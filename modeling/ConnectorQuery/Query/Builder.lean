import ConnectorQuery.Query.Resolve

/-!
# Building queries

A *builder* goes through a statement, first its columns and then its clauses, each in the
order of the text, and fills in the members of a query. It stops at the first part that
breaks a rule. Next to the query it keeps the segments of the column that it is at and the
keywords of the clauses so far, none of which may come again.

* `Builder.addColumn`: a column of the select list or of those that are ignored;
* `Builder.apply`: a clause;
* `Query.ofStatement`: the query of a statement.
-/

namespace ConnectorQuery

/-- The list for the selected fields of a part of the record. -/
def FieldList.ofPart : FieldType → FieldList
  | .value => .fields
  | .key => .keyFields
  | .header => .headerFields

namespace Query

/-- The fields of a list. -/
def listed (q : Query) : FieldList → List Field
  | .fields => q.fields
  | .keyFields => q.keyFields
  | .headerFields => q.headerFields
  | .ignoredFields => q.ignoredFields

/-- Other fields for a list. -/
def putListed (list : FieldList) (fs : List Field) : Update :=
  match list with
  | .fields => fun q => { q with fields := fs }
  | .keyFields => fun q => { q with keyFields := fs }
  | .headerFields => fun q => { q with headerFields := fs }
  | .ignoredFields => fun q => { q with ignoredFields := fs }

end Query

/-- What is kept while a query is built. -/
structure Builder where
  query : Query
  /-- The segments of the column that is being resolved. -/
  path : List String := []
  /-- The keywords of the clauses so far, as they are spelled. -/
  seen : List String := []

/-- A list that a column is added to. -/
inductive ColumnList
  | select
  | ignore
  deriving DecidableEq, Repr

namespace Builder

/-- A step of a builder, which may find a broken rule. -/
abbrev Step := StateT Builder (Except RuleError)

/-- Change the query. -/
def modifyQuery (u : Update) : Step Unit :=
  modify fun b => { b with query := u b.query }

/-! ## Columns -/

/-- Forget the column before. -/
def enterColumn : Step Unit :=
  modify fun b => { b with path := [] }

/-- One more segment of the column. -/
def pushSegment (segment : String) : Step Unit :=
  modify fun b => { b with path := b.path ++ [segment] }

/-- Take the segments: the last one is the name, the others are its parents. -/
def exitColumn : Step (Option (String × List String)) :=
  modifyGet fun b =>
    (b.path.getLast?.map fun name => (name, b.path.dropLast), { b with path := [] })

/-- The last segment of a column and the ones before it. -/
def resolve (c : Column) : Step (String × List String) := do
  if c.dangling then
    throw (.unterminatedPath (".".intercalate c.segments ++ ".") c.span)
  enterColumn
  for segment in c.segments do
    pushSegment segment
  match ← exitColumn with
  | some path => return path
  | none => throw (.blankName "SELECT" c.span)

/-- The part of the record that a field with these parents is read from. -/
def routeOf (parents : List String) : FieldType :=
  match parents.head? with
  | some first =>
    if first = keyMarker then .key else if first = headerMarker then .header else .value
  | none => .value

/-- Add a field to a list, in which it must be new. -/
def pushUnique (list : FieldList) (f : Field) (span : Span) : Step Unit := do
  let fs ← addField list ((← get).query.listed list) f span
  modifyQuery (Query.putListed list fs)

/-- Add a column to a list. A column of the select list that stands under `_key` or
    `_header` is read from that part of the record, without the marker. -/
def addColumn (c : Column) (list : ColumnList) : Step Unit := do
  let (name, parents) ← resolve c
  let outputName := c.rename.getD name
  if list = .ignore then
    pushUnique .ignoredFields ⟨name, outputName, .value, parents⟩ c.span
  else
    let type := routeOf parents
    let parents := if type = .value then parents else parents.tail
    pushUnique (.ofPart type) ⟨name, outputName, type, parents⟩ c.span

/-- Add a column to the primary key, under its own name. -/
def addKey (c : Column) : Step Unit := do
  let (name, parents) ← resolve c
  modifyQuery fun q => { q with primaryKeys := q.primaryKeys ++ [.plain name parents] }

/-! ## Clauses -/

/-- Add a storage parameter, whose name differs from the others whatever the case of its
    letters. -/
def addParameter (a : Assignment) : Step Unit := do
  let name := a.name.val
  if (← get).query.storedAsParameters.names.any (Text.eqIgnoringCase · name) then
    throw (.duplicateParameter name a.name.span)
  modifyQuery fun q =>
    { q with storedAsParameters := q.storedAsParameters.insert name a.value.val }

/-- Add a property, whose name differs from the others. -/
def addProperty (a : Assignment) : Step Unit := do
  let name := a.name.val
  if (← get).query.properties.names.contains name then
    throw (.duplicateProperty name a.name.span)
  modifyQuery fun q => { q with properties := q.properties.insert name a.value.val }

/-- Fill in what a clause says, once its keyword is known to be new. An empty list of tags
    says nothing. -/
def fill (keyword : String) (span : Span) (c : Clause) : Step Unit := do
  match c with
  | .primaryKey columns =>
    for column in columns do
      addKey column
  | .ignore columns =>
    for column in columns do
      addColumn column .ignore
  | .flag f => modifyQuery f.update
  | .setting s v => modifyQuery (← s.update v)
  | .partitionBy names =>
    let ns ← resolveNames keyword names
    modifyQuery fun q => { q with partitionBy := ns }
  | .bucketing names number =>
    let b ← Bucketing.resolve keyword span names number
    modifyQuery fun q => { q with bucketing := some b }
  | .storeAs type parameters =>
    modifyQuery fun q => { q with storedAs := some type.val }
    for parameter in parameters do
      addParameter parameter
  | .properties entries =>
    for entry in entries do
      addProperty entry
  | .timestamp value call =>
    let t ← Timestamp.ofPath (← value.resolve) call
    modifyQuery fun q => { q with timestamp := some t }
  | .tags entries =>
    let ts ← (entries.mapM Tag.ofEntry : Except RuleError (List Tag))
    unless ts.isEmpty do
      modifyQuery fun q => { q with tags := some ts }
  | .withKeys keys => modifyQuery fun q => { q with withKeys := some (keys.map (·.val)) }

/-- Apply a clause, whose keyword must be new. -/
def apply (clause : Located Clause) : Step Unit := do
  let keyword := clause.val.keyword.spelling
  if keyword ∈ (← get).seen then
    throw (.repeatedClause keyword clause.span)
  modify fun b => { b with seen := keyword :: b.seen }
  fill keyword clause.span clause.val

/-! ## Statements -/

/-- Nothing is built yet but the text of the statement. -/
def ofText (text : String) : Builder :=
  { query := { statement := text } }

/-- Take over what a statement names. -/
def takeNames (st : Statement) : Step Unit :=
  modifyQuery fun q =>
    { q with
      writeMode := st.verb.map (·.val)
      target := st.target.map (·.val)
      source := st.source.val }

/-- Take over what a statement names, and its select list. -/
def select (st : Statement) : Step Unit := do
  takeNames st
  for column in st.columns do
    addColumn column .select

/-- Build the query of a statement. -/
def build (st : Statement) : Step Query := do
  select st
  for clause in st.clauses do
    apply clause
  return (← get).query

end Builder

/-- The query that the statement with the text `text` means. -/
def Query.ofStatement (text : String) (st : Statement) : Except RuleError Query :=
  (Builder.build st).run' (Builder.ofText text)

end ConnectorQuery
