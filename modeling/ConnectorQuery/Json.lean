/-!
# JSON values

The form in which statements and queries are exchanged. The members of an object
keep their order, which shows in its text. Numbers are decimals: an integer is
one without a scale.
-/

namespace ConnectorQuery

/-- A JSON value. -/
inductive Json
  | null
  | bool (b : Bool)
  /-- The number `mantissa / 10 ^ scale`. -/
  | number (mantissa : Int) (scale : Nat)
  | string (s : String)
  | array (items : List Json)
  | object (members : List (String × Json))
  deriving Repr, Inhabited

namespace Json

/-- A natural number. -/
def nat (n : Nat) : Json := .number n 0

/-- The members of a record. Instead of by its members, a record may also be
    given by their values alone, all of them and in the order of `names`. -/
def record? (names : List String) : Json → Option (List (String × Json))
  | .object members => some members
  | .array values => if values.length = names.length then some (names.zip values) else none
  | _ => none

end Json

end ConnectorQuery
