import ConnectorQuery.Query.Error
import ConnectorQuery.Statement.Error
import ConnectorQuery.Text.Position

/-!
# Failures

A text that should be one statement fails in one of two ways: it does not follow
the grammar, which is reported with the position of the offending token, or the
statement in it breaks a rule.
-/

namespace ConnectorQuery

/-- Why a text is no valid statement. -/
inductive Failure
  | grammar (position : Position) (cause : GrammarError)
  | rule (cause : RuleError)
  deriving DecidableEq, Repr

namespace Failure

/-- A grammar error with its position in the text of the statement. -/
def ofGrammar (text : String) (e : GrammarError) : Failure :=
  .grammar (Position.ofOffset text e.span.start) e

/-- The place of the failure, where it has one. -/
def span? : Failure → Option Span
  | .grammar _ e => some e.span
  | .rule e => e.span?

/-- The line and column of a grammar error. -/
def position? : Failure → Option Position
  | .grammar p _ => some p
  | .rule _ => none

/-- The broken rule behind the failure, if there is one. -/
def rule? : Failure → Option RuleError
  | .grammar _ _ => none
  | .rule e => some e

/-- The wording of the complaint. -/
def message : Failure → String
  | .grammar p e =>
    "failed to parse at line " ++ toString p.line ++ ", column " ++ toString p.column ++ ": " ++
      e.message
  | .rule e => e.message

/-- The wording of what is wrong, without its position. -/
def label : Failure → String
  | .grammar _ e => e.message
  | .rule e => e.message

/-- A complaint is what is wrong, behind the position that it has. -/
theorem message_eq_append_label (e : Failure) : e.message =
    (e.position?.elim "" fun p =>
      "failed to parse at line " ++ toString p.line ++ ", column " ++ toString p.column ++ ": ") ++
      e.label := by
  cases e with
  | grammar p cause => rfl
  | rule cause => exact String.empty_append.symm

end Failure

end ConnectorQuery
