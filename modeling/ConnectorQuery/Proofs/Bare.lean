import ConnectorQuery.Statement

/-!
# Statements without places

Two texts may spell the same statement with other gaps, and then its parts stand
at other places. What a statement says is the statement *without places*: all
its spans are taken off (`Statement.bare`). The grammar describes statements in
this form, and a statement is read back from its own text in this form.
-/

namespace ConnectorQuery

/-- The span of what stands nowhere. -/
def Span.nowhere : Span := ⟨0, 0⟩

/-- A value without a place. -/
def Located.nowhere {α : Type} (val : α) : Located α := ⟨val, .nowhere⟩

/-- The value without its place. -/
def Located.bare {α : Type} (x : Located α) : Located α := .nowhere x.val

/-- The column without its place. -/
def Column.bare (c : Column) : Column := { c with span := .nowhere }

/-- The path without its place. -/
def FieldPath.bare (p : FieldPath) : FieldPath := { p with name := p.name.bare }

/-- The entry without its places. -/
def TagEntry.bare (e : TagEntry) : TagEntry :=
  ⟨e.key.bare, e.marker.map Located.bare, e.value.map Located.bare, .nowhere⟩

/-- The pair without its places. -/
def Assignment.bare (a : Assignment) : Assignment := ⟨a.name.bare, a.value.bare⟩

/-- The clause without its places. -/
def Clause.bare : Clause → Clause
  | .flag f => .flag f
  | .setting s value => .setting s value.bare
  | .primaryKey columns => .primaryKey (columns.map Column.bare)
  | .ignore columns => .ignore (columns.map Column.bare)
  | .partitionBy names => .partitionBy (names.map FieldPath.bare)
  | .bucketing names count => .bucketing (names.map FieldPath.bare) (count.map Located.bare)
  | .storeAs type parameters => .storeAs type.bare (parameters.map Assignment.bare)
  | .timestamp value call => .timestamp value.bare call
  | .tags entries => .tags (entries.map TagEntry.bare)
  | .withKeys keys => .withKeys (keys.map Located.bare)
  | .properties entries => .properties (entries.map Assignment.bare)

/-- The statement without its places. -/
def Statement.bare (st : Statement) : Statement :=
  ⟨st.verb.map Located.bare, st.target.map Located.bare, st.columns.map Column.bare,
    st.source.bare, st.clauses.map fun c => .nowhere c.val.bare, .nowhere⟩

end ConnectorQuery
