import ConnectorQuery.Proofs.Query.Building
import ConnectorQuery.Proofs.Statement.Places

/-!
# Places of broken rules

A statement is resolved part by part, and a rule that is broken concerns one of
the parts. So it has a place, and this is a place of the statement: the span of
a column, of a value, of an entry or of a whole clause.

* `PointsInto`: where the outcome is a broken rule, it concerns one of the places;
* `Query.pointsInto_ofStatement`: the rules of a statement point into it.
-/

namespace ConnectorQuery

open Spanned (spans)

variable {α β : Type}

/-- Where the outcome is a broken rule, it concerns one of the places. -/
def PointsInto (places : List Span) (x : Except RuleError α) : Prop :=
  ∀ e, x = .error e → ∃ s ∈ places, e.span? = some s

variable {places : List Span}

/-- What succeeds points nowhere. -/
theorem pointsInto_ok (a : α) : PointsInto places (.ok a) := nofun

/-- A complaint points to the place it carries. -/
theorem pointsInto_error {e : RuleError} {s : Span} (hs : s ∈ places) (he : e.span? = some s) :
    PointsInto places (.error e : Except RuleError α) := by
  rintro _ ⟨⟩
  exact ⟨s, hs, he⟩

/-- What points into some places points into more of them. -/
theorem PointsInto.mono {places' : List Span} {x : Except RuleError α} (h : PointsInto places x)
    (sub : places ⊆ places') : PointsInto places' x := by
  intro e he
  obtain ⟨s, hs, span⟩ := h e he
  exact ⟨s, sub hs, span⟩

/-- Steps in a row point where each of them does. -/
theorem PointsInto.bind {x : Except RuleError α} {f : α → Except RuleError β}
    (hx : PointsInto places x) (hf : ∀ a, x = .ok a → PointsInto places (f a)) :
    PointsInto places (x >>= f) := by
  intro e h
  obtain he | ⟨a, ha, he⟩ := except_bind_eq_error.1 h
  · exact hx e he
  · exact hf a ha e he

section

variable [Spanned α] {as : List α}

/-- The places of an item are places of its list. -/
theorem spans_subset {a : α} (h : a ∈ as) : spans a ⊆ spans as :=
  fun _ hs => List.mem_flatMap.2 ⟨a, h, hs⟩

/-- A step on each item of a list points into the items, if it points into the
    item at hand. -/
theorem pointsInto_mapM {f : α → Except RuleError β} (h : ∀ a, PointsInto (spans a) (f a)) :
    PointsInto (spans as) (as.mapM f) := by
  induction as with
  | nil => exact pointsInto_ok _
  | cons a as ih =>
    rw [List.mapM_cons]
    refine ((h a).mono (spans_subset List.mem_cons_self)).bind fun b _ => ?_
    exact (ih.mono (List.subset_append_right _ _)).bind fun bs _ => pointsInto_ok _

/-- Steps over a list point where the step for each item does. -/
theorem pointsInto_foldlM {step : β → α → Except RuleError β}
    (h : ∀ b a, PointsInto (spans a) (step b a)) (b : β) :
    PointsInto (spans as) (as.foldlM step b) := by
  induction as generalizing b with
  | nil => exact pointsInto_ok _
  | cons a as ih =>
    rw [List.foldlM_cons]
    refine ((h b a).mono (spans_subset List.mem_cons_self)).bind fun b' _ => ?_
    exact (ih b').mono (List.subset_append_right _ _)

end

/-! ## Columns -/

namespace Column

variable (c : Column)

/-- A column without a name is refused as a whole. -/
theorem pointsInto_resolve : PointsInto (spans c) c.resolve := by
  unfold resolve
  split
  · exact pointsInto_error List.mem_cons_self rfl
  · split
    · exact pointsInto_ok _
    · exact pointsInto_error List.mem_cons_self rfl

theorem pointsInto_plainField : PointsInto (spans c) c.plainField :=
  c.pointsInto_resolve.bind fun _ _ => pointsInto_ok _

theorem pointsInto_routedField : PointsInto (spans c) c.routedField :=
  c.pointsInto_plainField.bind fun _ _ => pointsInto_ok _

theorem pointsInto_keyColumn : PointsInto (spans c) c.keyColumn :=
  c.pointsInto_resolve.bind fun _ _ => pointsInto_ok _

end Column

/-- A field that is there already is refused where the caller says. -/
theorem pointsInto_addField (list : FieldList) (fs : List Field) (f : Field) {s : Span}
    (hs : s ∈ places) : PointsInto places (addField list fs f s) := by
  unfold addField
  split
  · exact pointsInto_error hs rfl
  · exact pointsInto_ok _

/-- Both ways to refuse a column point to it. -/
theorem Query.pointsInto_addColumn (q : Query) (c : Column) :
    PointsInto (spans c) (q.addColumn c) := by
  refine c.pointsInto_routedField.bind fun f _ => ?_
  have added (list : FieldList) (fs : List Field) : PointsInto (spans c) (addField list fs f c.span) :=
    pointsInto_addField list fs f List.mem_cons_self
  split <;> exact (added _ _).bind fun _ _ => pointsInto_ok _

theorem pointsInto_ignoredFields (columns : List Column) :
    PointsInto (spans columns) (ignoredFields columns) :=
  pointsInto_foldlM (fun _ c => c.pointsInto_plainField.bind fun _ _ =>
    pointsInto_addField _ _ _ List.mem_cons_self) _

/-! ## Values -/

theorem FieldPath.pointsInto_resolve (p : FieldPath) : PointsInto (spans p) p.resolve := by
  unfold resolve
  split
  · exact pointsInto_error List.mem_cons_self rfl
  · exact pointsInto_ok _

/-- A path that is accepted is accepted as it was read. -/
theorem FieldPath.resolve_eq_ok {p : FieldPath} {name : Located String}
    (h : p.resolve = .ok name) : p.name = name := by
  unfold resolve at h
  split at h <;> cases h
  rfl

/-- Of two equal names the later one is refused. -/
theorem pointsInto_uniqueNames (clause : String) (names : List (Located String)) :
    PointsInto (spans names) (uniqueNames clause names) := by
  refine pointsInto_foldlM (fun seen name => ?_) _
  split
  · exact pointsInto_error List.mem_cons_self rfl
  · split
    · exact pointsInto_error List.mem_cons_self rfl
    · exact pointsInto_ok _

theorem pointsInto_resolveNames (clause : String) (paths : List FieldPath) :
    PointsInto (spans paths) (resolveNames clause paths) := by
  refine (pointsInto_mapM FieldPath.pointsInto_resolve).bind fun names hnames => ?_
  refine (pointsInto_uniqueNames clause names).mono fun s hs => ?_
  -- a name has the place of the path that it comes from
  obtain ⟨name, hname, hs⟩ := List.mem_flatMap.1 hs
  obtain ⟨p, hp, hresolve⟩ := exists_of_mem_mapM hnames name hname
  obtain rfl := FieldPath.resolve_eq_ok hresolve
  exact List.mem_flatMap.2 ⟨p, hp, hs⟩

variable (value : Located String)

/-- A value that is no number is refused as a whole. -/
theorem pointsInto_countOf (clause : String) : PointsInto (spans value) (countOf clause value) := by
  unfold countOf
  split
  · exact pointsInto_ok _
  · exact pointsInto_error List.mem_cons_self rfl

theorem pointsInto_longOf (clause : String) : PointsInto (spans value) (longOf clause value) := by
  unfold longOf
  split
  · exact pointsInto_ok _
  · exact pointsInto_error List.mem_cons_self rfl

theorem pointsInto_memberOf (α : Type) [Vocabulary α] :
    PointsInto (spans value) (memberOf α value) := by
  unfold memberOf
  split
  · exact pointsInto_ok _
  · exact pointsInto_error List.mem_cons_self rfl

theorem pointsInto_delimiterOf : PointsInto (spans value) (delimiterOf value) := by
  unfold delimiterOf
  split
  · exact pointsInto_error List.mem_cons_self rfl
  · exact pointsInto_ok _

theorem Timestamp.pointsInto_ofPath (call : Bool) :
    PointsInto (spans value) (Timestamp.ofPath value call) := by
  unfold Timestamp.ofPath
  split
  · split
    · exact pointsInto_ok _
    · exact pointsInto_error List.mem_cons_self rfl
  · split <;> exact pointsInto_ok _

theorem Tag.pointsInto_ofEntry (e : TagEntry) : PointsInto (spans e) (Tag.ofEntry e) := by
  have key : e.key.span ∈ spans e := List.mem_cons_of_mem _ List.mem_cons_self
  unfold Tag.ofEntry
  dsimp only
  split
  · exact pointsInto_error key rfl
  · split
    · exact pointsInto_ok _
    · split
      · exact pointsInto_ok _
      · split
        · exact pointsInto_ok _
        · exact pointsInto_error List.mem_cons_self rfl
    · exact pointsInto_error List.mem_cons_self rfl

theorem pointsInto_storageParameters (entries : List Assignment) :
    PointsInto (spans entries) (storageParameters entries) := by
  refine pointsInto_foldlM (fun d e => ?_) _
  unfold addStorageParameter
  split
  · exact pointsInto_error List.mem_cons_self rfl
  · exact pointsInto_ok _

theorem pointsInto_propertyEntries (entries : List Assignment) :
    PointsInto (spans entries) (propertyEntries entries) := by
  refine pointsInto_foldlM (fun d e => ?_) _
  unfold addPropertyEntry
  split
  · exact pointsInto_error List.mem_cons_self rfl
  · exact pointsInto_ok _

/-- A clause that says nothing is refused as a whole, and else one of its names or its
    number is. -/
theorem Bucketing.pointsInto_resolve (clause : String) (span : Span) (names : List FieldPath)
    (number : Option (Located String)) :
    PointsInto (span :: spans (names, number)) (Bucketing.resolve clause span names number) := by
  have inNames : spans names ⊆ span :: spans (names, number) :=
    List.subset_cons_of_subset _ (List.subset_append_left _ _)
  unfold Bucketing.resolve
  split
  · exact pointsInto_error List.mem_cons_self rfl
  · split
    · exact pointsInto_error List.mem_cons_self rfl
    · rename_i n
      have inNumber : spans n ⊆ span :: spans (names, some n) :=
        fun s hs => List.mem_cons_of_mem _ (List.mem_append_right _
          (List.mem_append_left _ hs))
      exact ((pointsInto_resolveNames _ _).mono inNames).bind fun _ _ =>
        ((pointsInto_countOf n _).mono inNumber).bind fun _ _ => pointsInto_ok _

/-! ## Clauses -/

/-- Every setting of one value refuses this value only. -/
theorem Setting.pointsInto_update (s : Setting) : PointsInto (spans value) (s.update value) := by
  cases s with
  | batch | limit | projectTo | delay | lockTime =>
    exact (pointsInto_countOf value _).bind fun _ _ => pointsInto_ok _
  | ttl | flushInterval | flushSize | flushCount =>
    exact (pointsInto_longOf value _).bind fun _ _ => pointsInto_ok _
  | format | timestampUnit | compression | schemaEvolution | partitioning =>
    exact (pointsInto_memberOf value _).bind fun _ _ => pointsInto_ok _
  | keyDelimiter => exact (pointsInto_delimiterOf value).bind fun _ _ => pointsInto_ok _
  | _ => exact pointsInto_ok _

/-- A rule that a clause breaks concerns the clause or a part of it. -/
theorem Clause.pointsInto_update (span : Span) (c : Clause) :
    PointsInto (span :: spans c) (c.update span) := by
  have inside {x : Except RuleError Update} (h : PointsInto (spans c) x) :
      PointsInto (span :: spans c) x := h.mono (List.subset_cons_self _ _)
  cases c with
  | flag f => exact pointsInto_ok _
  | setting s v => exact inside (s.pointsInto_update v)
  | primaryKey columns =>
    exact inside ((pointsInto_mapM Column.pointsInto_keyColumn).bind fun _ _ => pointsInto_ok _)
  | ignore columns =>
    exact inside ((pointsInto_ignoredFields columns).bind fun _ _ => pointsInto_ok _)
  | partitionBy names =>
    exact inside ((pointsInto_resolveNames _ names).bind fun _ _ => pointsInto_ok _)
  | bucketing names number =>
    exact (Bucketing.pointsInto_resolve _ span names number).bind fun _ _ => pointsInto_ok _
  | storeAs type parameters =>
    refine inside (((pointsInto_storageParameters parameters).mono ?_).bind fun _ _ =>
      pointsInto_ok _)
    exact List.subset_append_right _ _
  | timestamp path call =>
    refine inside (path.pointsInto_resolve.bind fun name hname => ?_)
    obtain rfl := FieldPath.resolve_eq_ok hname
    exact (Timestamp.pointsInto_ofPath _ call).bind fun _ _ => pointsInto_ok _
  | tags entries =>
    exact inside ((pointsInto_mapM Tag.pointsInto_ofEntry).bind fun _ _ => pointsInto_ok _)
  | withKeys keys => exact pointsInto_ok _
  | properties entries =>
    exact inside ((pointsInto_propertyEntries entries).bind fun _ _ => pointsInto_ok _)

namespace Query

/-- A clause is refused inside itself, also when it comes for the second time. -/
theorem pointsInto_applyClauses (q : Query) (seen : List Keyword) (cs : List (Located Clause)) :
    PointsInto (spans cs) (q.applyClauses seen cs) := by
  induction cs generalizing q seen with
  | nil => exact pointsInto_ok _
  | cons c cs ih =>
    have first : spans c ⊆ spans (c :: cs) := spans_subset List.mem_cons_self
    unfold applyClauses
    dsimp only
    split
    · exact pointsInto_error (first List.mem_cons_self) rfl
    · refine ((c.val.pointsInto_update c.span).mono first).bind fun update _ => ?_
      exact (ih _ _).mono (List.subset_append_right _ _)

/-- A rule that a statement breaks concerns a part of it. -/
theorem pointsInto_ofStatement (text : String) (st : Statement) :
    PointsInto (spans st) (ofStatement text st) := by
  -- the parts of a statement in the order in which its spans are listed
  have columns : spans st.columns ⊆ spans st :=
    List.subset_cons_of_subset _ (List.subset_append_of_subset_right _
      (List.subset_append_of_subset_right _ (List.subset_append_left _ _)))
  have clauses : spans st.clauses ⊆ spans st :=
    List.subset_cons_of_subset _ (List.subset_append_of_subset_right _
      (List.subset_append_of_subset_right _ (List.subset_append_of_subset_right _
        (List.subset_append_right _ _))))
  rw [ofStatement_eq]
  refine ((pointsInto_foldlM pointsInto_addColumn _).mono columns).bind fun selected _ => ?_
  exact (selected.pointsInto_applyClauses [] st.clauses).mono clauses

/-- Whatever a text fails on has its place in the text. -/
theorem isPlaced_of_parse {text : String} {e : Failure} (h : parse text = .error e) :
    ∃ s, e.span? = some s ∧ s.IsPlaced text := by
  have ofText : ∀ t ∈ Token.tokenize text, t.span.IsPlaced text :=
    fun _ => Token.isPlaced_of_mem_tokenize
  obtain ⟨r, read, parsed⟩ := Statement.exists_ofTokens? text
  obtain herr | ⟨st, hst, hrule⟩ := except_bind_eq_error.1 h
  · obtain ⟨g, rfl, rfl⟩ := mapError_eq_error.1 (parsed.symm.trans herr)
    exact ⟨g.span, rfl, Statement.isPlaced_of_ofTokens?_error ofText read⟩
  · obtain rfl := mapError_eq_ok.1 (parsed.symm.trans hst)
    obtain ⟨rule, broken, rfl⟩ := mapError_eq_error.1 hrule
    obtain ⟨s, hs, span⟩ := pointsInto_ofStatement text st rule broken
    exact ⟨s, span, Statement.placed_of_ofTokens? ofText read s hs⟩

end Query

end ConnectorQuery
