/-!
# Fields

A *field* is a place in a record: a name under the names that enclose it. It is
read from the value of the record, from its key or from its headers, and goes
out under a name of its own.
-/

namespace ConnectorQuery

/-- The part of a record that a field is read from. -/
inductive FieldType
  | value
  | key
  | header
  deriving DecidableEq, Repr

/-- A place in a record. -/
structure Field where
  name : String
  /-- The name that the field goes out under. -/
  outputName : String
  type : FieldType
  /-- The enclosing names, outermost first. -/
  parents : List String
  deriving DecidableEq, Repr

namespace Field

/-- The name of a wildcard. -/
def wildcard : String := "*"

/-- The field of the value with this name under these parents. -/
def plain (name : String) (parents : List String) : Field :=
  ⟨name, name, .value, parents⟩

/-- Some names enclose the field. -/
def hasParents (f : Field) : Bool :=
  !f.parents.isEmpty

def isWildcard (f : Field) : Bool :=
  f.name == wildcard

/-- The fields are one place in a record, whatever their output names. -/
def isDuplicateOf (f g : Field) : Bool :=
  f.name == g.name && f.type == g.type && f.parents == g.parents

/-- The path of the field, its names joined by dots. -/
def path (f : Field) : String :=
  ".".intercalate (f.parents ++ [f.name])

end Field

end ConnectorQuery
