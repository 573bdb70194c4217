import ConnectorQuery.Query.Builder

/-!
# Queries part by part

A builder goes through a statement with one state that it changes all the time. Here the
same is said part by part. A clause is resolved without a look at the rest of the statement:
it comes to an `Update`, a change of the members that it lays down. Only whether its keyword
was there before depends on the others (`Query.applyClauses`).

* `Column.routedField`: the first segment of a column may route it to the key or the
  headers of the record;
* `Clause.update`: what a clause lays down.

Both come to the same query (`Query.ofStatement_eq`, in `Proofs.Query.Building`).
-/

namespace ConnectorQuery

/-! ## Columns -/

namespace Column

/-- The last segment of a column and the ones before it. -/
def resolve (c : Column) : Except RuleError (String × List String) :=
  if c.dangling then .error (.unterminatedPath (".".intercalate c.segments ++ ".") c.span)
  else
    match c.segments.getLast? with
    | some name => .ok (name, c.segments.dropLast)
    | none => .error (.blankName "SELECT" c.span)

/-- The field of a column that is not routed, under its output name. -/
def plainField (c : Column) : Except RuleError Field := do
  let (name, parents) ← c.resolve
  return ⟨name, c.rename.getD name, .value, parents⟩

/-- The field of a column of the select list: a column under `_key` or `_header`
    is read from that part of the record, without the marker. -/
def routedField (c : Column) : Except RuleError Field := do
  let f ← c.plainField
  return match f.parents with
    | first :: parents =>
      if first = keyMarker then { f with type := .key, parents }
      else if first = headerMarker then { f with type := .header, parents }
      else f
    | [] => f

end Column

/-- The query with a further column of the select list. -/
def Query.addColumn (q : Query) (c : Column) : Except RuleError Query := do
  let f ← c.routedField
  match f.type with
  | .value => return { q with fields := ← addField .fields q.fields f c.span }
  | .key => return { q with keyFields := ← addField .keyFields q.keyFields f c.span }
  | .header => return { q with headerFields := ← addField .headerFields q.headerFields f c.span }

/-- The fields of a list of columns that are ignored. -/
def ignoredFields (columns : List Column) : Except RuleError (List Field) :=
  columns.foldlM (fun fs c => do addField .ignoredFields fs (← c.plainField) c.span) []

/-- The field of a column of the primary key. -/
def Column.keyColumn (c : Column) : Except RuleError Field := do
  let (name, parents) ← c.resolve
  return .plain name parents

/-- The dictionary with a further storage parameter, whose name differs from the others
    whatever the case of its letters. -/
def addStorageParameter (d : Dictionary) (a : Assignment) : Except RuleError Dictionary :=
  if d.names.any (Text.eqIgnoringCase · a.name.val) then
    .error (.duplicateParameter a.name.val a.name.span)
  else .ok (d.insert a.name.val a.value.val)

/-- Storage parameters, whose names differ whatever the case of their letters. -/
def storageParameters (entries : List Assignment) : Except RuleError Dictionary :=
  entries.foldlM addStorageParameter .empty

/-- The dictionary with a further property, whose name differs from the others. -/
def addPropertyEntry (d : Dictionary) (a : Assignment) : Except RuleError Dictionary :=
  if d.names.contains a.name.val then .error (.duplicateProperty a.name.val a.name.span)
  else .ok (d.insert a.name.val a.value.val)

/-- Properties, whose names differ. -/
def propertyEntries (entries : List Assignment) : Except RuleError Dictionary :=
  entries.foldlM addPropertyEntry .empty

/-- What a clause with the span `span` lays down. An empty list of tags lays down
    nothing. -/
def Clause.update (span : Span) (c : Clause) : Except RuleError Update :=
  match c with
  | .flag f => return f.update
  | .setting s v => s.update v
  | .primaryKey columns => do
    let fs ← columns.mapM Column.keyColumn
    return fun q => { q with primaryKeys := fs }
  | .ignore columns => do
    let fs ← ConnectorQuery.ignoredFields columns
    return fun q => { q with ignoredFields := fs }
  | .partitionBy names => do
    let ns ← resolveNames c.keyword.spelling names
    return fun q => { q with partitionBy := ns }
  | .bucketing names number => do
    let b ← Bucketing.resolve c.keyword.spelling span names number
    return fun q => { q with bucketing := some b }
  | .storeAs type parameters => do
    let d ← storageParameters parameters
    return fun q => { q with storedAs := some type.val, storedAsParameters := d }
  | .timestamp value call => do
    let t ← Timestamp.ofPath (← value.resolve) call
    return fun q => { q with timestamp := some t }
  | .tags entries => do
    let ts ← entries.mapM Tag.ofEntry
    return if ts.isEmpty then id else fun q => { q with tags := some ts }
  | .withKeys keys => return fun q => { q with withKeys := some (keys.map (·.val)) }
  | .properties entries => do
    let d ← propertyEntries entries
    return fun q => { q with properties := d }

namespace Query

/-- The query with what the clauses lay down, none of which may have a keyword
    that is among `seen` or that an earlier one has. -/
def applyClauses (q : Query) (seen : List Keyword) : List (Located Clause) → Except RuleError Query
  | [] => .ok q
  | c :: cs =>
    let k := c.val.keyword
    if k ∈ seen then .error (.repeatedClause k.spelling c.span)
    else do
      let update ← c.val.update c.span
      applyClauses (update q) (k :: seen) cs

/-- The query that the columns of a statement are added to. -/
def opened (text : String) (st : Statement) : Query :=
  { statement := text
    writeMode := st.verb.map (·.val)
    target := st.target.map (·.val)
    source := st.source.val }

end Query

end ConnectorQuery
