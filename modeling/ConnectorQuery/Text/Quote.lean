/-!
# Quoting

A name may stand between two backticks or two single quotes. Everything up to
the next quote of the same kind belongs to the name, so a backtick may stand
between single quotes and the other way round.
-/

namespace ConnectorQuery.Text

/-- A character that opens and closes a quoted name. -/
def isQuote (c : Char) : Bool :=
  c == '\x60' || c == '\''

/-- The text without one pair of equal quotes around it. -/
def unquote (s : String) : String :=
  match s.toList with
  | q :: rest =>
    if isQuote q ∧ rest.getLast? = some q then String.ofList rest.dropLast else s
  | [] => s

theorem unquote_quoted {q : Char} (hq : isQuote q = true) (cs : List Char) :
    unquote (String.ofList (q :: (cs ++ [q]))) = String.ofList cs := by
  simp [unquote, hq]

end ConnectorQuery.Text
