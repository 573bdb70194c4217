import ConnectorQuery.Dictionary
import ConnectorQuery.Json
import ConnectorQuery.Span

/-!
# Values with a JSON form

`Serial α` gives the values of a type a JSON form and reads it back. Numbers are
read only within the range of their type, and a missing value is `null`.

A *record* is written as an object. Reading one, members that it does not have
are left out of account, and an optional member may be missing. A *choice* is
written as its name, or, where it carries a value, as an object with the name
for its only member.
-/

namespace ConnectorQuery

/-- The values of the type have a JSON form. -/
class Serial (α : Type) where
  toJson : α → Json
  ofJson? : Json → Option α

namespace Serial

instance : Serial Json where
  toJson := id
  ofJson? := some

instance : Serial Bool where
  toJson := .bool
  ofJson?
    | .bool b => some b
    | _ => none

instance : Serial String where
  toJson := .string
  ofJson?
    | .string s => some s
    | _ => none

/-- The natural number below `bound` that a value is. -/
def natBelow? (bound : Nat) : Json → Option Nat
  | .number (.ofNat n) 0 => if n < bound then some n else none
  | _ => none

instance : Serial UInt32 where
  toJson n := .nat n.toNat
  ofJson? j := (natBelow? UInt32.size j).map .ofNat

instance : Serial UInt64 where
  toJson n := .nat n.toNat
  ofJson? j := (natBelow? UInt64.size j).map .ofNat

instance {α : Type} [Serial α] : Serial (Option α) where
  toJson
    | some a => toJson a
    | none => .null
  ofJson?
    | .null => some none
    | j => (ofJson? j).map some

instance {α : Type} [Serial α] : Serial (List α) where
  toJson as := .array (as.map toJson)
  ofJson?
    | .array js => js.mapM ofJson?
    | _ => none

instance : Serial Dictionary where
  toJson d := .object (d.entries.map fun e => (e.1, toJson e.2))
  ofJson?
    | .object members => do
      let pairs ← members.mapM fun m => do return (m.1, ← ofJson? m.2)
      return .ofList pairs
    | _ => none

/-! ## Records -/

/-- A member that a record must have. -/
def required {α : Type} [Serial α] (members : List (String × Json)) (name : String) : Option α :=
  (members.lookup name).bind ofJson?

/-- A member that may be missing. -/
def optional {α : Type} [Serial α] (members : List (String × Json)) (name : String) :
    Option (Option α) :=
  match members.lookup name with
  | some j => ofJson? j
  | none => some none

/-- An offset in a text, as wide as a machine word. -/
def offset? (members : List (String × Json)) (name : String) : Option Nat :=
  (members.lookup name).bind (natBelow? UInt64.size)

instance : Serial Span where
  toJson s := .object [("start", .nat s.start), ("end", .nat s.stop)]
  ofJson? j := do
    let ms ← j.record? ["start", "end"]
    return ⟨← offset? ms "start", ← offset? ms "end"⟩

instance {α : Type} [Serial α] : Serial (Located α) where
  toJson a := .object [("node", toJson a.val), ("span", toJson a.span)]
  ofJson? j := do
    let ms ← j.record? ["node", "span"]
    return ⟨← required ms "node", ← required ms "span"⟩

/-! ## Choices -/

/-- The name of a choice and the value that it carries, if any. -/
def choice? : Json → Option (String × Option Json)
  | .string name => some (name, none)
  | .object [(name, j)] => some (name, some j)
  | _ => none

/-- The name of a choice that carries no value, which may also be written as
    `null`. -/
def plainChoice? (j : Json) : Option String := do
  match ← choice? j with
  | (name, none) => some name
  | (name, some .null) => some name
  | (_, some _) => none

/-- The form of a type whose values are choices without values. -/
abbrev ofNames {α : Type} (values : List α) (name : α → String) : Serial α where
  toJson a := .string (name a)
  ofJson? j := do
    let n ← plainChoice? j
    values.find? (name · == n)

end Serial

end ConnectorQuery
