import ConnectorQuery.Text.Blank

/-!
# Positive decimals

The counts of a statement are written as decimals: blanks around, one `+` or
none, then one or more of the digits `0` to `9`. Leading zeros are harmless, and
a number is accepted only from 1 to a given bound, so no digit string, however
long, can wrap around.
-/

namespace ConnectorQuery.Text

/-- The number that ASCII digits spell, the most significant digit first. -/
def digitsValue (cs : List Char) : Nat :=
  cs.foldl (fun n c => 10 * n + (c.toNat - '0'.toNat)) 0

/-- The digits of a number behind its optional sign. -/
def unsigned : List Char → List Char
  | '+' :: cs => cs
  | cs => cs

/-- The number that the text spells: blanks around, an optional sign, digits. -/
def decimal? (s : String) : Option Nat :=
  let digits := unsigned (trim s).toList
  if digits ≠ [] ∧ digits.all Char.isDigit then some (digitsValue digits) else none

/-- The number from 1 to `bound` that the text spells in decimal digits. -/
def positive? (bound : Nat) (s : String) : Option Nat :=
  (decimal? s).filter fun n => 1 ≤ n ∧ n ≤ bound

theorem positive?_eq_some_iff {bound n : Nat} {s : String} :
    positive? bound s = some n ↔ decimal? s = some n ∧ 1 ≤ n ∧ n ≤ bound := by
  simp [positive?, Option.filter_eq_some_iff]

end ConnectorQuery.Text
