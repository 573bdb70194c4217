import ConnectorQuery.Token

/-!
# Grammar errors

A list of tokens that is no statement is refused at the first token that cannot
go on. Three things may stand there: a token of another kind than the ones
expected, the end of the text, or a piece of text that is no token at all.
-/

namespace ConnectorQuery

/-- Why a list of tokens is no statement. -/
inductive GrammarError
  | unexpectedToken (expected found : String) (span : Span)
  | unexpectedEnd (expected : String) (span : Span)
  | unrecognised (text : String) (span : Span)
  deriving DecidableEq, Repr

namespace GrammarError

/-- The complaint about the token `found` where `expected` should stand. A name
    or value is quoted as it was written. -/
def unexpected (expected : String) (found : Token) : GrammarError :=
  match found.kind with
  | .endOfText => .unexpectedEnd expected found.span
  | .unrecognised => .unrecognised found.text found.span
  | kind =>
    let shown := if kind.isValue then kind.describe ++ " '" ++ found.text ++ "'" else kind.describe
    .unexpectedToken expected shown found.span

/-- The place of the token that was refused. -/
def span : GrammarError → Span
  | .unexpectedToken _ _ s => s
  | .unexpectedEnd _ s => s
  | .unrecognised _ s => s

/-- The wording of the complaint. -/
def message : GrammarError → String
  | .unexpectedToken expected found _ =>
    "unexpected token: expected " ++ expected ++ ", found " ++ found
  | .unexpectedEnd expected _ => "unexpected end of statement: expected " ++ expected
  | .unrecognised text _ => "unrecognised input '" ++ text ++ "'"

@[simp] theorem span_unexpected (expected : String) (found : Token) :
    (unexpected expected found).span = found.span := by
  unfold unexpected
  split <;> rfl

end GrammarError

end ConnectorQuery
