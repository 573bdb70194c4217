import ConnectorQuery.Proofs.Query.Columns
import ConnectorQuery.Proofs.Statement.WellFormed

/-!
# Valid queries

A query that a text means is *valid* (`Query.Valid`): its parts agree with each
other, and every member holds what its clause may lay down.

Columns and clauses are resolved one after the other, so what holds of the query
has to be kept by each of them. A query is *lawful* when it is valid but for
selecting something, which only holds from the first column on. A query without
columns and clauses is lawful, and

* `Query.valid_addColumn`: a column keeps that, and selects a field;
* `Clause.valid_update`: what a well-formed clause lays down keeps it valid, one
  case for each kind of clause;
* `Query.valid_of_parse`: so the query of every text is valid.
-/

namespace ConnectorQuery

/-- Fields of one part of a record, no two of them the same place. -/
structure FieldsOf (type : FieldType) (fs : List Field) : Prop where
  type : ∀ f ∈ fs, f.type = type
  distinct : fs.Pairwise fun f g => f.isDuplicateOf g = false

/-- No segment in front of the field says that it is read from the key or from
    the headers. -/
def Field.Unrouted (f : Field) : Prop :=
  f.parents.head? ≠ some keyMarker ∧ f.parents.head? ≠ some headerMarker

/-- Names that are not blank and differ whatever the case of their letters. -/
structure UniqueNames (names : List String) : Prop where
  not_blank : ∀ n ∈ names, Text.isAllBlank n = false
  distinct : names.Pairwise fun m n => Text.eqIgnoringCase m n = false

/-- A number from 1 to `bound`. -/
def IsPositive (bound n : Nat) : Prop :=
  1 ≤ n ∧ n ≤ bound

/-- Some buckets, and one name at least to choose among them. -/
structure Bucketing.Valid (b : Bucketing) : Prop where
  names_ne_nil : b.names ≠ []
  names : UniqueNames b.names
  count : IsPositive maxCount b.count.toNat

/-- The key of a tag does not end with a dot, and the tag has a value unless it
    is found in the field of its name. -/
structure Tag.Valid (t : Tag) : Prop where
  key : (Text.trim t.key).toList.getLast? ≠ some '.'
  value : t.value = none ↔ t.type = .default

/-- The query is valid but for selecting something. -/
structure Query.Lawful (q : Query) : Prop where
  target : q.target.isSome = q.writeMode.isSome
  fields : FieldsOf .value q.fields
  keyFields : FieldsOf .key q.keyFields
  headerFields : FieldsOf .header q.headerFields
  ignoredFields : FieldsOf .value q.ignoredFields
  primaryKeys : ∀ f ∈ q.primaryKeys, f.type = .value
  unrouted : ∀ f ∈ q.fields, f.Unrouted
  partitionBy : UniqueNames q.partitionBy
  bucketing : ∀ b ∈ q.bucketing, b.Valid
  tags : ∀ ts ∈ q.tags, ts ≠ [] ∧ ∀ t ∈ ts, t.Valid
  timestamp : ∀ path, q.timestamp = some (.field path) →
    Text.eqIgnoringCase path Timestamp.systemTimeText = false
  storedAsParameters :
    q.storedAsParameters.names.Pairwise fun m n => Text.eqIgnoringCase m n = false
  limit : ∀ n ∈ q.limit, IsPositive maxCount n.toNat
  batchSize : ∀ n ∈ q.batchSize, IsPositive maxCount n.toNat
  delay : ∀ n ∈ q.delay, IsPositive maxCount n.toNat
  lockTime : ∀ n ∈ q.lockTime, IsPositive maxCount n.toNat
  projectTo : ∀ n ∈ q.projectTo, IsPositive maxCount n.toNat
  ttl : ∀ n ∈ q.ttl, IsPositive maxLong n.toNat
  flushInterval : ∀ n ∈ q.flushInterval, IsPositive maxLong n.toNat
  flushSize : ∀ n ∈ q.flushSize, IsPositive maxLong n.toNat
  flushCount : ∀ n ∈ q.flushCount, IsPositive maxLong n.toNat
  withKeys : q.withKeys ≠ some []
  keyDelimiter : Text.isAllBlank q.keyDelimiter = false

/-- The query keeps all the rules that a statement must keep. -/
structure Query.Valid (q : Query) : Prop extends q.Lawful where
  selects : q.fields ≠ [] ∨ q.keyFields ≠ [] ∨ q.headerFields ≠ []

/-! ## Columns -/

theorem FieldsOf.nil {type : FieldType} : FieldsOf type [] :=
  ⟨List.forall_mem_nil _, .nil⟩

/-- A field that is accepted comes last, and still no field is in the list twice. -/
theorem FieldsOf.append {type : FieldType} {list : FieldList} {fs fs' : List Field} {f : Field}
    {span : Span} (hfs : FieldsOf type fs) (hf : f.type = type)
    (h : addField list fs f span = .ok fs') : fs' = fs ++ [f] ∧ FieldsOf type fs' := by
  obtain ⟨new, rfl⟩ := addField_eq_ok_iff.1 h
  refine ⟨rfl, ?_, List.pairwise_append.2 ⟨hfs.distinct, List.pairwise_singleton _ _, ?_⟩⟩
  · exact List.forall_mem_append.2 ⟨hfs.type, List.forall_mem_singleton.2 hf⟩
  · intro g hg f' hf'
    rw [List.mem_singleton.1 hf']
    exact new g hg

/-- A field that stays in the value of the record has no marker in front. -/
theorem Column.unrouted_of_routedField {c : Column} {f : Field} (h : c.routedField = .ok f)
    (ht : f.type = .value) : f.Unrouted := by
  have written := (Column.routedField_eq_ok h).2
  have part : FieldType.ofSegments c.segments = .value := written.type.symm.trans ht
  have whole := written.segments
  rw [part] at whole
  cases hp : f.parents with
  | nil => simp [Field.Unrouted, hp]
  | cons first parents =>
    have segments : first :: (parents ++ [f.name]) = c.segments := by rwa [hp] at whole
    rw [← segments, FieldType.ofSegments_cons] at part
    split at part
    · cases part
    split at part
    · cases part
    rename_i notKey notHeader
    simp [Field.Unrouted, hp, notKey, notHeader]

/-- A lawful query is valid once a column is accepted. -/
theorem Query.valid_addColumn {q q' : Query} {c : Column} (hq : q.Lawful)
    (h : q.addColumn c = .ok q') : q'.Valid := by
  obtain ⟨f, hf, h⟩ := except_bind_eq_ok.1 h
  -- the part of the record that the field is read from says which list grows
  cases ht : f.type with
  | value =>
    simp only [ht] at h
    obtain ⟨fs, hfs, h⟩ := except_bind_eq_ok.1 h
    cases h
    obtain ⟨rfl, fields⟩ := hq.fields.append ht hfs
    have unrouted : ∀ g ∈ q.fields ++ [f], g.Unrouted := List.forall_mem_append.2
      ⟨hq.unrouted, List.forall_mem_singleton.2 (Column.unrouted_of_routedField hf ht)⟩
    exact { hq with fields, unrouted, selects := .inl (List.append_ne_nil_of_right_ne_nil _ nofun) }
  | key =>
    simp only [ht] at h
    obtain ⟨fs, hfs, h⟩ := except_bind_eq_ok.1 h
    cases h
    obtain ⟨rfl, keyFields⟩ := hq.keyFields.append ht hfs
    exact { hq with keyFields, selects := .inr (.inl (List.append_ne_nil_of_right_ne_nil _ nofun)) }
  | header =>
    simp only [ht] at h
    obtain ⟨fs, hfs, h⟩ := except_bind_eq_ok.1 h
    cases h
    obtain ⟨rfl, headerFields⟩ := hq.headerFields.append ht hfs
    exact { hq with
      headerFields, selects := .inr (.inr (List.append_ne_nil_of_right_ne_nil _ nofun)) }

/-- Ignored fields are fields of the value, none of them twice. -/
theorem fieldsOf_ignoredFields {columns : List Column} {fs : List Field}
    (h : ignoredFields columns = .ok fs) : FieldsOf .value fs := by
  refine foldlM_preserves (FieldsOf .value) ?_ FieldsOf.nil h
  intro fs c fs' hfs h
  obtain ⟨f, hf, h⟩ := except_bind_eq_ok.1 h
  exact (hfs.append (Column.plainField_eq_ok hf).2.type h).2

/-! ## Values -/

theorem UniqueNames.nil : UniqueNames [] :=
  ⟨List.forall_mem_nil _, .nil⟩

/-- Names that are accepted differ. -/
theorem uniqueNames_of_eq_ok {clause : String} {names : List (Located String)}
    {ns : List String} (h : uniqueNames clause names = .ok ns) : UniqueNames ns := by
  refine foldlM_preserves UniqueNames ?_ UniqueNames.nil h
  intro seen name seen' hseen h
  split at h
  · cases h
  split at h
  · cases h
  rename_i notBlank new
  cases h
  refine ⟨?_, List.pairwise_append.2 ⟨hseen.distinct, List.pairwise_singleton _ _, ?_⟩⟩
  · exact List.forall_mem_append.2
      ⟨hseen.not_blank, List.forall_mem_singleton.2 (Bool.eq_false_iff.2 notBlank)⟩
  · intro m hm n hn
    obtain rfl := List.mem_singleton.1 hn
    exact Bool.eq_false_iff.2 (List.any_eq_false.1 (Bool.eq_false_iff.2 new) m hm)

/-- Names are kept as they are written. -/
theorem eq_of_uniqueNames {clause : String} {names : List (Located String)} {ns : List String}
    (h : uniqueNames clause names = .ok ns) : ns = names.map (·.val) := by
  refine append_map_of_foldlM ?_ h
  intro seen name seen' h
  split at h
  · cases h
  split at h
  · cases h
  · exact (Except.ok.inj h).symm

/-- Paths that are accepted are the names that were read. -/
theorem eq_of_mapM_resolve {paths : List FieldPath} {names : List (Located String)}
    (h : paths.mapM FieldPath.resolve = .ok names) : names = paths.map (·.name) := by
  have each := mapM_eq_ok_iff.1 h
  clear h
  induction each with
  | nil => rfl
  | @cons p name paths names resolved _ ih =>
    rw [FieldPath.resolve] at resolved
    split at resolved
    · cases resolved
    cases resolved
    rw [ih, List.map_cons]

/-- A list of names is accepted as it was read, and no name is in it twice. -/
theorem resolveNames_eq_ok {clause : String} {paths : List FieldPath} {ns : List String}
    (h : resolveNames clause paths = .ok ns) :
    ns = paths.map (·.name.val) ∧ UniqueNames ns := by
  obtain ⟨names, hnames, h⟩ := except_bind_eq_ok.1 h
  refine ⟨?_, uniqueNames_of_eq_ok h⟩
  rw [eq_of_uniqueNames h, eq_of_mapM_resolve hnames, List.map_map]
  rfl

/-- A count that is accepted is positive and within its bound. -/
theorem isPositive_countOf {clause : String} {value : Located String} {n : UInt32}
    (h : countOf clause value = .ok n) : IsPositive maxCount n.toNat := by
  delta countOf at h
  split at h
  · rename_i m hm
    cases h
    obtain ⟨-, low, high⟩ := Text.positive?_eq_some_iff.1 hm
    rw [UInt32.toNat_ofNat_of_lt' (Nat.lt_of_le_of_lt high (by decide))]
    exact ⟨low, high⟩
  · cases h

/-- A long number that is accepted is positive and within its bound. -/
theorem isPositive_longOf {clause : String} {value : Located String} {n : UInt64}
    (h : longOf clause value = .ok n) : IsPositive maxLong n.toNat := by
  delta longOf at h
  split at h
  · rename_i m hm
    cases h
    obtain ⟨-, low, high⟩ := Text.positive?_eq_some_iff.1 hm
    rw [UInt64.toNat_ofNat_of_lt' (Nat.lt_of_le_of_lt high (by decide))]
    exact ⟨low, high⟩
  · cases h

/-- A bucketing that is accepted has names, no two of them the same, and a positive number. -/
theorem Bucketing.valid_resolve {clause : String} {span : Span} {names : List FieldPath}
    {number : Option (Located String)} {b : Bucketing}
    (h : Bucketing.resolve clause span names number = .ok b) : b.Valid := by
  rw [resolve.eq_def] at h
  split at h
  · cases h
  rename_i notEmpty
  cases number with
  | none => cases h
  | some n =>
    obtain ⟨ns, hns, h⟩ := except_bind_eq_ok.1 h
    obtain ⟨count, hcount, h⟩ := except_bind_eq_ok.1 h
    cases h
    obtain ⟨rfl, unique⟩ := resolveNames_eq_ok hns
    refine ⟨mt List.map_eq_nil_iff.1 ?_, unique, isPositive_countOf hcount⟩
    exact fun nil => notEmpty (List.isEmpty_iff.2 nil)

/-- A tag that is accepted has no dot at the end of its key, and a value where its type
    asks for one. -/
theorem Tag.valid_ofEntry {e : TagEntry} {t : Tag} (he : e.WellFormed)
    (h : Tag.ofEntry e = .ok t) : t.Valid := by
  rw [Tag.ofEntry] at h
  split at h
  · cases h
  rename_i noDot
  obtain ⟨key, marker, value, span⟩ := e
  cases marker with
  | none =>
    -- without a marker there is no value either
    obtain rfl : value = none := he rfl
    cases h
    exact ⟨noDot, by simp⟩
  | some marker =>
    cases value with
    | none => cases h
    | some value =>
      simp only at h
      split at h
      · cases h
        exact ⟨noDot, by simp⟩
      split at h
      · cases h
        exact ⟨noDot, by simp⟩
      · cases h

/-- The system time in any letter case is never taken for a field. -/
theorem Timestamp.not_systemTimeText_of_field {value : Located String} {call : Bool}
    {path : String} (h : Timestamp.ofPath value call = .ok (.field path)) :
    Text.eqIgnoringCase path systemTimeText = false := by
  rw [Timestamp.ofPath] at h
  split at h
  · split at h <;> cases h
  split at h
  · cases h
  rename_i other
  cases h
  exact Bool.eq_false_iff.2 other

/-- A further name that differs from all others keeps them different. -/
theorem Dictionary.distinct_insertInto {name value : String} {es : List (String × String)}
    (h : es.Pairwise fun x y => Text.eqIgnoringCase x.1 y.1 = false)
    (hn : ∀ x ∈ es, Text.eqIgnoringCase x.1 name = false) :
    (insertInto name value es).Pairwise fun x y => Text.eqIgnoringCase x.1 y.1 = false := by
  induction es with
  | nil => exact List.pairwise_singleton _ _
  | cons e es ih =>
    obtain ⟨others, rest⟩ := List.pairwise_cons.1 h
    obtain ⟨first, hn'⟩ := List.forall_mem_cons.1 hn
    rw [insertInto]
    split
    · refine List.pairwise_cons.2 ⟨fun x hx => ?_, h⟩
      rw [Text.eqIgnoringCase_comm]
      exact hn x hx
    split
    · -- the same name would be in the dictionary already
      rename_i same
      rw [same, Text.eqIgnoringCase_refl] at first
      exact nomatch first
    · refine List.pairwise_cons.2 ⟨fun x hx => ?_, ih rest hn'⟩
      rcases mem_insertInto hx with rfl | hx
      · exact first
      · exact others x hx

/-- No two parameters have the same name in any letter case. -/
theorem distinct_storageParameters {entries : List Assignment} {d : Dictionary}
    (h : storageParameters entries = .ok d) :
    d.names.Pairwise fun m n => Text.eqIgnoringCase m n = false := by
  refine foldlM_preserves (fun d : Dictionary =>
    d.names.Pairwise fun m n => Text.eqIgnoringCase m n = false) ?_ .nil h
  intro d e d' hd h
  rw [addStorageParameter] at h
  split at h
  · cases h
  rename_i new
  cases h
  refine List.pairwise_map.2
    (Dictionary.distinct_insertInto (List.pairwise_map.1 hd) fun x hx => ?_)
  exact Bool.eq_false_iff.2
    (List.any_eq_false.1 (Bool.eq_false_iff.2 new) x.1 (List.mem_map_of_mem hx))

/-- A delimiter that is accepted is not blank. -/
theorem not_blank_delimiterOf {value : Located String} {d : String}
    (h : delimiterOf value = .ok d) : Text.isAllBlank d = false := by
  rw [delimiterOf] at h
  split at h
  · cases h
  rename_i notBlank
  cases h
  exact Bool.eq_false_iff.2 notBlank

/-! ## Clauses -/

theorem Flag.valid_update {f : Flag} {q : Query} (hq : q.Valid) : (f.update q).Valid := by
  cases f <;> exact { hq with }

theorem forall_mem_some {α : Type} {p : α → Prop} {a : α} (h : p a) : ∀ b ∈ some a, p b := by
  intro b hb
  obtain rfl := Option.some.inj hb
  exact h

/-- What a setting lays down is in the range of its member. -/
theorem Setting.valid_update {s : Setting} {v : Located String} {u : Update} {q : Query}
    (h : s.update v = .ok u) (hq : q.Valid) : (u q).Valid := by
  cases s with
  | batch =>
    obtain ⟨n, hn, h⟩ := except_bind_eq_ok.1 h
    cases h
    exact { hq with batchSize := forall_mem_some (isPositive_countOf hn) }
  | limit =>
    obtain ⟨n, hn, h⟩ := except_bind_eq_ok.1 h
    cases h
    exact { hq with limit := forall_mem_some (isPositive_countOf hn) }
  | projectTo =>
    obtain ⟨n, hn, h⟩ := except_bind_eq_ok.1 h
    cases h
    exact { hq with projectTo := forall_mem_some (isPositive_countOf hn) }
  | delay =>
    obtain ⟨n, hn, h⟩ := except_bind_eq_ok.1 h
    cases h
    exact { hq with delay := forall_mem_some (isPositive_countOf hn) }
  | lockTime =>
    obtain ⟨n, hn, h⟩ := except_bind_eq_ok.1 h
    cases h
    exact { hq with lockTime := forall_mem_some (isPositive_countOf hn) }
  | ttl =>
    obtain ⟨n, hn, h⟩ := except_bind_eq_ok.1 h
    cases h
    exact { hq with ttl := forall_mem_some (isPositive_longOf hn) }
  | flushInterval =>
    obtain ⟨n, hn, h⟩ := except_bind_eq_ok.1 h
    cases h
    exact { hq with flushInterval := forall_mem_some (isPositive_longOf hn) }
  | flushSize =>
    obtain ⟨n, hn, h⟩ := except_bind_eq_ok.1 h
    cases h
    exact { hq with flushSize := forall_mem_some (isPositive_longOf hn) }
  | flushCount =>
    obtain ⟨n, hn, h⟩ := except_bind_eq_ok.1 h
    cases h
    exact { hq with flushCount := forall_mem_some (isPositive_longOf hn) }
  -- of the other members the rules say nothing, but for the delimiter
  | format | timestampUnit | compression | schemaEvolution | partitioning =>
    obtain ⟨m, -, h⟩ := except_bind_eq_ok.1 h
    cases h
    exact { hq with }
  | keyDelimiter =>
    obtain ⟨d, hd, h⟩ := except_bind_eq_ok.1 h
    cases h
    exact { hq with keyDelimiter := not_blank_delimiterOf hd }
  | tableLocation | withType | converter | jmsSelector | regex | dynamicTarget | pipeline
  | partitioner | subscription | session | docType | indexSuffix | incrementalMode =>
    cases h
    exact { hq with }

/-- What a well-formed clause lays down keeps a query valid. -/
theorem Clause.valid_update {c : Clause} {span : Span} {u : Update} {q : Query}
    (hc : c.WellFormed) (h : c.update span = .ok u) (hq : q.Valid) : (u q).Valid := by
  cases c with
  | flag f =>
    cases h
    exact Flag.valid_update hq
  | setting s v => exact Setting.valid_update h hq
  | primaryKey columns =>
    obtain ⟨fs, hfs, h⟩ := except_bind_eq_ok.1 h
    cases h
    refine { hq with primaryKeys := fun f hf => ?_ }
    obtain ⟨c, -, hcf⟩ := exists_of_mem_mapM hfs f hf
    exact (Column.keyColumn_eq_ok hcf).2.type
  | ignore columns =>
    obtain ⟨fs, hfs, h⟩ := except_bind_eq_ok.1 h
    cases h
    exact { hq with ignoredFields := fieldsOf_ignoredFields hfs }
  | partitionBy names =>
    obtain ⟨ns, hns, h⟩ := except_bind_eq_ok.1 h
    cases h
    exact { hq with partitionBy := (resolveNames_eq_ok hns).2 }
  | bucketing names number =>
    obtain ⟨b, hb, h⟩ := except_bind_eq_ok.1 h
    cases h
    exact { hq with bucketing := forall_mem_some (Bucketing.valid_resolve hb) }
  | storeAs type parameters =>
    obtain ⟨d, hd, h⟩ := except_bind_eq_ok.1 h
    cases h
    exact { hq with storedAsParameters := distinct_storageParameters hd }
  | timestamp value call =>
    obtain ⟨name, -, h⟩ := except_bind_eq_ok.1 h
    obtain ⟨t, ht, h⟩ := except_bind_eq_ok.1 h
    cases h
    refine { hq with timestamp := fun path hpath => ?_ }
    obtain rfl := Option.some.inj hpath
    exact Timestamp.not_systemTimeText_of_field ht
  | tags entries =>
    obtain ⟨ts, hts, h⟩ := except_bind_eq_ok.1 h
    cases h
    -- an empty list of tags lays down nothing
    by_cases none : ts.isEmpty = true
    · rw [if_pos none]
      exact hq
    rw [if_neg none]
    refine { hq with tags := forall_mem_some ⟨fun nil => none (List.isEmpty_iff.2 nil), ?_⟩ }
    intro t ht
    obtain ⟨e, he, hte⟩ := exists_of_mem_mapM hts t ht
    exact Tag.valid_ofEntry (hc e he) hte
  | withKeys keys =>
    cases h
    exact { hq with withKeys := fun nil => hc (List.map_eq_nil_iff.1 (Option.some.inj nil)) }
  | properties entries =>
    obtain ⟨d, -, h⟩ := except_bind_eq_ok.1 h
    cases h
    exact { hq with }

/-! ## Statements -/

/-- Clauses that are accepted leave a valid query. The induction is on the clauses, and
    each one's update keeps the query valid. -/
theorem Query.valid_applyClauses {cs : List (Located Clause)} {q q' : Query}
    {seen : List Keyword} (hcs : ∀ c ∈ cs, c.val.WellFormed)
    (h : q.applyClauses seen cs = .ok q') (hq : q.Valid) : q'.Valid := by
  induction cs generalizing q seen with
  | nil =>
    cases h
    exact hq
  | cons c cs ih =>
    obtain ⟨hc, hcs'⟩ := List.forall_mem_cons.1 hcs
    rw [applyClauses] at h
    split at h
    · cases h
    obtain ⟨u, hu, h⟩ := except_bind_eq_ok.1 h
    exact ih hcs' h (Clause.valid_update hc hu hq)

/-- The columns of a statement, of which there is one at least, make a lawful
    query valid. -/
theorem Query.valid_addColumns {columns : List Column} {q q' : Query} (hne : columns ≠ [])
    (hq : q.Lawful) (h : columns.foldlM addColumn q = .ok q') : q'.Valid := by
  cases columns with
  | nil => exact absurd rfl hne
  | cons c columns =>
    rw [List.foldlM_cons] at h
    obtain ⟨q₁, h₁, h⟩ := except_bind_eq_ok.1 h
    exact foldlM_preserves Query.Valid (fun _ _ _ hq h => valid_addColumn hq.toLawful h)
      (valid_addColumn hq h₁) h

/-- Without columns and clauses there is nothing to keep but that a verb comes
    with a target. -/
theorem Query.lawful_opened {text source : String} {target : Option String}
    {writeMode : Option WriteMode} (h : target.isSome = writeMode.isSome) :
    Query.Lawful { statement := text, source, target, writeMode } where
  target := h
  fields := .nil
  keyFields := .nil
  headerFields := .nil
  ignoredFields := .nil
  primaryKeys := List.forall_mem_nil _
  unrouted := List.forall_mem_nil _
  partitionBy := .nil
  bucketing := nofun
  tags := nofun
  timestamp := nofun
  storedAsParameters := .nil
  limit := nofun
  batchSize := nofun
  delay := nofun
  lockTime := nofun
  projectTo := nofun
  ttl := nofun
  flushInterval := nofun
  flushSize := nofun
  flushCount := nofun
  withKeys := nofun
  keyDelimiter := show Text.isAllBlank "." = false by decide

/-- What is built from a well-formed statement is valid. -/
theorem Query.valid_ofStatement {text : String} {st : Statement} {q : Query}
    (hst : st.WellFormed) (h : Query.ofStatement text st = .ok q) : q.Valid := by
  rw [ofStatement_eq] at h
  obtain ⟨selected, hselected, h⟩ := except_bind_eq_ok.1 h
  refine valid_applyClauses hst.clauses h (valid_addColumns hst.columns_ne_nil ?_ hselected)
  refine lawful_opened ?_
  rw [Option.isSome_map, Option.isSome_map, hst.target]

/-- The query that a text means is valid. -/
theorem Query.valid_of_parse {text : String} {q : Query} (h : Query.parse text = .ok q) :
    q.Valid := by
  obtain ⟨st, hst, h⟩ := except_bind_eq_ok.1 h
  exact valid_ofStatement (Statement.wellFormed_of_parse hst) (mapError_eq_ok.1 h)

theorem Query.valid_of_parse_insert :
    ∃ q, Query.parse "INSERT INTO t SELECT a, _key.b FROM s WITHTAG (x = y) LIMIT 10" = .ok q ∧
      q.Valid := by
  obtain ⟨q, h⟩ := exists_of_isOk
    (x := Query.parse "INSERT INTO t SELECT a, _key.b FROM s WITHTAG (x = y) LIMIT 10")
    (by decide +kernel)
  exact ⟨q, h, valid_of_parse h⟩

end ConnectorQuery
