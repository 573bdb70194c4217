import ConnectorQuery.Proofs.Outcome
import ConnectorQuery.Proofs.Query.Updates
import Mathlib.Logic.Function.Basic

/-!
# The members of a query

A query holds a value in each of its members (`Query.get`), and it is nothing
but these values (`Query.ext_get`). A member belongs to the statement itself or
to the clause with one keyword (`Query.Member.keyword?`), which is the only one
to lay it down:

* `Clause.lays_update`: a clause puts values of its own into members of its
  keyword;
* `Update.Lays.get_of_ne`: so every other member is left as it was;
* `Update.Lays.get_congr`: and what it lays down in a member does not depend on
  the other members.
-/

namespace ConnectorQuery

/-- What a setting comes to. -/
def Setting.Value : Setting → Type
  | batch | limit | projectTo | delay | lockTime => Option UInt32
  | ttl | flushInterval | flushSize | flushCount => Option UInt64
  | format => Option Format
  | timestampUnit => TimeUnit
  | compression => Option Compression
  | schemaEvolution => Option SchemaEvolution
  | partitioning => Option Partitioning
  | keyDelimiter => String
  | tableLocation | withType | converter | jmsSelector | regex | dynamicTarget | pipeline
  | partitioner | subscription | session | docType | indexSuffix | incrementalMode =>
    Option String

namespace Query

/-- The member of a flag. -/
def flag (q : Query) : Flag → Bool
  | .autoCreate => q.autoCreate
  | .autoEvolve => q.autoEvolve
  | .capitalize => q.capitalize
  | .initialised => q.initialised
  | .withStructure => q.retainStructure
  | .unwrap => q.unwrapping
  | .overwrite => q.overwrite
  | .ack => q.ack
  | .encodeBase64 => q.encodeBase64

/-- The member of a setting. -/
def setting (q : Query) : (s : Setting) → s.Value
  | .batch => q.batchSize
  | .limit => q.limit
  | .projectTo => q.projectTo
  | .delay => q.delay
  | .lockTime => q.lockTime
  | .ttl => q.ttl
  | .flushInterval => q.flushInterval
  | .flushSize => q.flushSize
  | .flushCount => q.flushCount
  | .format => q.format
  | .timestampUnit => q.timestampUnit
  | .compression => q.compression
  | .schemaEvolution => q.schemaEvolution
  | .partitioning => q.partitioning
  | .keyDelimiter => q.keyDelimiter
  | .tableLocation => q.tableLocation
  | .withType => q.withType
  | .converter => q.converter
  | .jmsSelector => q.jmsSelector
  | .regex => q.regex
  | .dynamicTarget => q.dynamicTarget
  | .pipeline => q.pipeline
  | .partitioner => q.partitioner
  | .subscription => q.subscription
  | .session => q.session
  | .docType => q.docType
  | .indexSuffix => q.indexSuffix
  | .incrementalMode => q.incrementalMode

/-- A member of a query. -/
inductive Member
  | statement
  | source
  | target
  | writeMode
  | fields
  | keyFields
  | headerFields
  | flag (f : Flag)
  | setting (s : Setting)
  | primaryKeys
  | ignoredFields
  | partitionBy
  | bucketing
  | storedAs
  | storedAsParameters
  | timestamp
  | tags
  | withKeys
  | properties
  deriving DecidableEq

namespace Member

/-- What a member holds. -/
def Value : Member → Type
  | statement | source => String
  | target | storedAs => Option String
  | writeMode => Option WriteMode
  | fields | keyFields | headerFields | primaryKeys | ignoredFields => List Field
  | flag _ => Bool
  | setting s => s.Value
  | partitionBy => List String
  | bucketing => Option Bucketing
  | storedAsParameters | properties => Dictionary
  | timestamp => Option Timestamp
  | tags => Option (List Tag)
  | withKeys => Option (List String)

/-- The keyword of the clause that lays down the member, if there is one. -/
def keyword? : Member → Option Keyword
  | statement | source | target | writeMode | fields | keyFields | headerFields => none
  | flag f => some (.flag f)
  | setting s => some (.setting s)
  | primaryKeys => some .primaryKey
  | ignoredFields => some .ignore
  | partitionBy => some .partitionBy
  | bucketing => some .clusterBy
  | storedAs | storedAsParameters => some .storeAs
  | timestamp => some .withTimestamp
  | tags => some .withTag
  | withKeys => some .withKey
  | properties => some .properties

end Member

/-- What the query holds in a member. -/
def get (q : Query) : (m : Member) → m.Value
  | .statement => q.statement
  | .source => q.source
  | .target => q.target
  | .writeMode => q.writeMode
  | .fields => q.fields
  | .keyFields => q.keyFields
  | .headerFields => q.headerFields
  | .flag f => q.flag f
  | .setting s => q.setting s
  | .primaryKeys => q.primaryKeys
  | .ignoredFields => q.ignoredFields
  | .partitionBy => q.partitionBy
  | .bucketing => q.bucketing
  | .storedAs => q.storedAs
  | .storedAsParameters => q.storedAsParameters
  | .timestamp => q.timestamp
  | .tags => q.tags
  | .withKeys => q.withKeys
  | .properties => q.properties

/-- The query that holds the given values in its members. -/
def ofMembers (x : (m : Member) → m.Value) : Query where
  statement := x .statement
  source := x .source
  target := x .target
  writeMode := x .writeMode
  fields := x .fields
  keyFields := x .keyFields
  headerFields := x .headerFields
  ignoredFields := x .ignoredFields
  primaryKeys := x .primaryKeys
  partitionBy := x .partitionBy
  bucketing := x .bucketing
  tags := x .tags
  timestamp := x .timestamp
  timestampUnit := x (.setting .timestampUnit)
  format := x (.setting .format)
  storedAs := x .storedAs
  storedAsParameters := x .storedAsParameters
  limit := x (.setting .limit)
  batchSize := x (.setting .batch)
  ttl := x (.setting .ttl)
  flushInterval := x (.setting .flushInterval)
  flushSize := x (.setting .flushSize)
  flushCount := x (.setting .flushCount)
  autoCreate := x (.flag .autoCreate)
  autoEvolve := x (.flag .autoEvolve)
  capitalize := x (.flag .capitalize)
  retainStructure := x (.flag .withStructure)
  unwrapping := x (.flag .unwrap)
  initialised := x (.flag .initialised)
  overwrite := x (.flag .overwrite)
  ack := x (.flag .ack)
  encodeBase64 := x (.flag .encodeBase64)
  withType := x (.setting .withType)
  converter := x (.setting .converter)
  jmsSelector := x (.setting .jmsSelector)
  regex := x (.setting .regex)
  compression := x (.setting .compression)
  partitioner := x (.setting .partitioner)
  subscription := x (.setting .subscription)
  delay := x (.setting .delay)
  session := x (.setting .session)
  lockTime := x (.setting .lockTime)
  dynamicTarget := x (.setting .dynamicTarget)
  pipeline := x (.setting .pipeline)
  tableLocation := x (.setting .tableLocation)
  schemaEvolution := x (.setting .schemaEvolution)
  partitioning := x (.setting .partitioning)
  withKeys := x .withKeys
  keyDelimiter := x (.setting .keyDelimiter)
  projectTo := x (.setting .projectTo)
  docType := x (.setting .docType)
  indexSuffix := x (.setting .indexSuffix)
  incrementalMode := x (.setting .incrementalMode)
  properties := x .properties

/-- A query is what its members hold. -/
theorem ofMembers_get (q : Query) : ofMembers q.get = q :=
  rfl

/-- A query put together from members has these members. -/
theorem get_ofMembers (x : (m : Member) → m.Value) : (ofMembers x).get = x := by
  funext m
  cases m with
  | flag f => cases f <;> rfl
  | setting s => cases s <;> rfl
  | _ => rfl

/-- Queries with the same members are the same. -/
theorem ext_get {q q' : Query} (h : ∀ m, q.get m = q'.get m) : q = q' := by
  rw [← ofMembers_get q, ← ofMembers_get q', funext h]

/-- The query with another value in one member. -/
def put (q : Query) (m : Member) (x : m.Value) : Query :=
  ofMembers (Function.update q.get m x)

/-- A member that was put is there. -/
theorem get_put_self (q : Query) (m : Member) (x : m.Value) : (q.put m x).get m = x := by
  rw [put, get_ofMembers, Function.update_self]

/-- To put one member leaves the others as they were. -/
theorem get_put_of_ne {q : Query} {m m' : Member} {x : m.Value} (h : m' ≠ m) :
    (q.put m x).get m' = q.get m' := by
  rw [put, get_ofMembers, Function.update_of_ne h]

/-- The query with other values in some members, of two values for one member
    the later one. -/
def putAll (q : Query) (xs : List ((m : Member) × m.Value)) : Query :=
  xs.foldl (fun q x => q.put x.1 x.2) q

/-- A member is left as it was by whatever puts only others. -/
theorem get_putAll_of_forall_ne {xs : List ((m : Member) × m.Value)} {m : Member}
    (h : ∀ x ∈ xs, x.1 ≠ m) {q : Query} : (q.putAll xs).get m = q.get m := by
  induction xs generalizing q with
  | nil => rfl
  | cons x xs ih =>
    obtain ⟨hx, hxs⟩ := List.forall_mem_cons.1 h
    exact (ih hxs).trans (get_put_of_ne hx.symm)

/-- What a member becomes depends on what it was and on nothing else of the query. -/
theorem get_putAll_congr {xs : List ((m : Member) × m.Value)} {q q' : Query} {m : Member}
    (h : q.get m = q'.get m) : (q.putAll xs).get m = (q'.putAll xs).get m := by
  induction xs generalizing q q' with
  | nil => exact h
  | cons x xs ih =>
    refine ih ?_
    by_cases same : m = x.1
    · subst same
      rw [get_put_self, get_put_self]
    · rw [get_put_of_ne same, get_put_of_ne same, h]

end Query

/-- What is put into members of the keyword, and nothing else. -/
def Update.Lays (k : Keyword) (u : Update) : Prop :=
  ∃ xs : List ((m : Query.Member) × m.Value), (∀ x ∈ xs, x.1.keyword? = some k) ∧
    ∀ q, u q = q.putAll xs

namespace Update.Lays

variable {k : Keyword} {u : Update}

/-- An update for one keyword leaves the members of others as they were. -/
theorem get_of_ne (h : u.Lays k) {q : Query} {m : Query.Member} (hm : m.keyword? ≠ some k) :
    (u q).get m = q.get m := by
  obtain ⟨xs, keyword, lays⟩ := h
  rw [lays]
  refine Query.get_putAll_of_forall_ne fun x hx same => ?_
  subst same
  exact hm (keyword x hx)

/-- What it makes of a member depends on what the member was. -/
theorem get_congr (h : u.Lays k) {q q' : Query} {m : Query.Member} (hm : q.get m = q'.get m) :
    (u q).get m = (u q').get m := by
  obtain ⟨xs, -, lays⟩ := h
  rw [lays, lays]
  exact Query.get_putAll_congr hm

end Update.Lays

/-! ## What clauses lay down -/

/-- To put a member is an update for its keyword. -/
theorem Update.lays_put {k : Keyword} {m : Query.Member} (x : m.Value)
    (h : m.keyword? = some k) : Update.Lays k fun q => q.put m x :=
  ⟨[⟨m, x⟩], List.forall_mem_singleton.2 h, fun _ => rfl⟩

/-- A flag puts the member of its own. -/
theorem Flag.update_eq (f : Flag) : f.update = fun q => q.put (.flag f) true := by
  cases f <;> rfl

/-- A setting that is accepted puts the member of its own. -/
theorem Setting.exists_update_eq {s : Setting} {v : Located String} {u : Update}
    (h : s.update v = .ok u) : ∃ x : s.Value, u = fun q => q.put (.setting s) x := by
  cases s with
  | batch | limit | projectTo | delay | lockTime | ttl | flushInterval | flushSize | flushCount
  | format | compression | schemaEvolution | partitioning =>
    obtain ⟨n, -, h⟩ := except_bind_eq_ok.1 h
    exact ⟨some n, (Except.ok.inj h).symm⟩
  | timestampUnit | keyDelimiter =>
    obtain ⟨x, -, h⟩ := except_bind_eq_ok.1 h
    exact ⟨x, (Except.ok.inj h).symm⟩
  | tableLocation | withType | converter | jmsSelector | regex | dynamicTarget | pipeline
  | partitioner | subscription | session | docType | indexSuffix | incrementalMode =>
    exact ⟨some v.val, (Except.ok.inj h).symm⟩

/-- Every clause that is accepted updates the members of its keyword only, one case for each. -/
theorem Clause.lays_update {c : Clause} {span : Span} {u : Update}
    (h : c.update span = .ok u) : u.Lays c.keyword := by
  cases c with
  | flag f =>
    cases h
    rw [Flag.update_eq]
    exact Update.lays_put (m := .flag f) true rfl
  | setting s v =>
    obtain ⟨x, rfl⟩ := Setting.exists_update_eq h
    exact Update.lays_put (m := .setting s) x rfl
  | primaryKey columns =>
    obtain ⟨fs, -, h⟩ := except_bind_eq_ok.1 h
    cases h
    exact Update.lays_put (m := .primaryKeys) fs rfl
  | ignore columns =>
    obtain ⟨fs, -, h⟩ := except_bind_eq_ok.1 h
    cases h
    exact Update.lays_put (m := .ignoredFields) fs rfl
  | partitionBy names =>
    obtain ⟨ns, -, h⟩ := except_bind_eq_ok.1 h
    cases h
    exact Update.lays_put (m := .partitionBy) ns rfl
  | bucketing names number =>
    obtain ⟨b, -, h⟩ := except_bind_eq_ok.1 h
    cases h
    exact Update.lays_put (m := .bucketing) (some b) rfl
  | storeAs type parameters =>
    obtain ⟨d, -, h⟩ := except_bind_eq_ok.1 h
    cases h
    refine ⟨[⟨.storedAs, some type.val⟩, ⟨.storedAsParameters, d⟩], ?_, fun _ => rfl⟩
    exact List.forall_mem_cons.2 ⟨rfl, List.forall_mem_singleton.2 rfl⟩
  | timestamp value call =>
    obtain ⟨name, -, h⟩ := except_bind_eq_ok.1 h
    obtain ⟨t, -, h⟩ := except_bind_eq_ok.1 h
    cases h
    exact Update.lays_put (m := .timestamp) (some t) rfl
  | tags entries =>
    obtain ⟨ts, -, h⟩ := except_bind_eq_ok.1 h
    cases h
    -- an empty list of tags lays down nothing
    by_cases none : ts.isEmpty = true
    · rw [if_pos none]
      exact ⟨[], List.forall_mem_nil _, fun _ => rfl⟩
    · rw [if_neg none]
      exact Update.lays_put (m := .tags) (some ts) rfl
  | withKeys keys =>
    cases h
    exact Update.lays_put (m := .withKeys) (some (keys.map (·.val))) rfl
  | properties entries =>
    obtain ⟨d, -, h⟩ := except_bind_eq_ok.1 h
    cases h
    exact Update.lays_put (m := .properties) d rfl

end ConnectorQuery
