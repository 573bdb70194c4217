import ConnectorQuery.Proofs.Query.ClauseOrder
import Mathlib.Data.List.Nodup

/-!
# Columns and their fields

A column becomes a field without loss: its last segment is the name and the others are
the parents, but for a marker in front, which says that the field is read from the key
or the headers of the record. Put in front again, it gives back the segments
(`Field.WrittenAs`).

So two fields of one part of the record are duplicates exactly if their columns have the
same segments (`Field.WrittenAs.isDuplicateOf_iff`), and columns with the same segments
are always read from one part. That is why each list of fields can be searched for
duplicates alone, though the columns of all parts stand in one select list: a column is
added to the fields of those in front of it exactly if it can be resolved and none of
them has its segments (`Query.Selected.addColumn`, `Query.Selected.exists_addColumn`).

* `Query.Selected.exists_foldlM_addColumn_iff`: so is the whole select list;
* `ignoredFields_eq_ok`, `exists_ignoredFields_iff`: and the columns of an ignore clause;
* `Query.columns_lossless`: what becomes of all columns of a statement.
-/

namespace ConnectorQuery

open List (Forall₂)

/-! ## Fields as they are written -/

namespace FieldType

/-- The segment in front of the columns that are read from the part, if there is one. -/
def marker : FieldType → List String
  | value => []
  | key => [keyMarker]
  | header => [headerMarker]

/-- The part of the record that a column of the select list is read from. A marker that
    is the only segment is a name. -/
def ofSegments (segments : List String) : FieldType :=
  if 2 ≤ segments.length ∧ segments.head? = some keyMarker then key
  else if 2 ≤ segments.length ∧ segments.head? = some headerMarker then header
  else value

/-- A name alone is a field of the value, marker or not. -/
theorem ofSegments_singleton (name : String) : ofSegments [name] = value := rfl

/-- A name with parents is routed by the first one of these. -/
theorem ofSegments_cons (first name : String) (parents : List String) :
    ofSegments (first :: (parents ++ [name])) =
      if first = keyMarker then key else if first = headerMarker then header else value := by
  simp [ofSegments]

end FieldType

/-- The field of the part is written with these segments, behind the marker of the part.
    It goes out under the name `rename`, or under its own. -/
structure Field.WrittenAs (f : Field) (part : FieldType) (segments : List String)
    (rename : Option String) : Prop where
  type : f.type = part
  name : segments.getLast? = some f.name
  segments : part.marker ++ (f.parents ++ [f.name]) = segments
  outputName : f.outputName = rename.getD f.name

/-- Fields of one part are the same place exactly if they are written alike. -/
theorem Field.WrittenAs.isDuplicateOf_iff {f g : Field} {part : FieldType}
    {segments segments' : List String} {rename rename' : Option String}
    (hf : f.WrittenAs part segments rename) (hg : g.WrittenAs part segments' rename') :
    f.isDuplicateOf g = true ↔ segments = segments' := by
  obtain ⟨rfl, -, rfl, -⟩ := hf
  obtain ⟨type, -, rfl, -⟩ := hg
  simp [isDuplicateOf, type, and_comm]

namespace Column

variable {c : Column} {f : Field}

/-- The column is complete, and not empty. -/
def Resolvable (c : Column) : Prop :=
  c.dangling = false ∧ c.segments ≠ []

/-- The name of a column is its last segment, and its parents are those in front. -/
theorem resolve_eq_ok {name : String} {parents : List String}
    (h : c.resolve = .ok (name, parents)) :
    c.dangling = false ∧ c.segments = parents ++ [name] := by
  rw [resolve] at h
  split at h
  · cases h
  rename_i complete
  split at h
  · rename_i last hlast
    cases h
    exact ⟨Bool.eq_false_iff.2 complete, (List.dropLast_append_getLast? _ hlast).symm⟩
  · cases h

/-- A column that has segments and no dot behind them has a name. -/
theorem exists_resolve (h : c.Resolvable) : ∃ p, c.resolve = .ok p := by
  obtain ⟨complete, notEmpty⟩ := h
  rw [resolve, if_neg (Bool.eq_false_iff.1 complete), List.getLast?_eq_some_getLast notEmpty]
  exact ⟨_, rfl⟩

/-- In `IGNORE` a marker is a segment like any other. -/
theorem plainField_eq_ok (h : c.plainField = .ok f) :
    c.Resolvable ∧ f.WrittenAs .value c.segments c.rename := by
  obtain ⟨⟨name, parents⟩, resolved, h⟩ := except_bind_eq_ok.1 h
  obtain ⟨complete, whole⟩ := resolve_eq_ok resolved
  cases h
  rw [Resolvable, whole]
  refine ⟨⟨complete, by simp⟩, rfl, by simp, rfl, rfl⟩

/-- A column that has a name has a field that is not routed. -/
theorem exists_plainField (h : c.Resolvable) : ∃ f, c.plainField = .ok f := by
  obtain ⟨p, resolved⟩ := exists_resolve h
  exact ⟨_, except_bind_eq_ok.2 ⟨p, resolved, rfl⟩⟩

/-- A column of the select list is read from the part that its segments say. -/
theorem routedField_eq_ok (h : c.routedField = .ok f) : c.Resolvable ∧
    f.WrittenAs (.ofSegments c.segments) c.segments c.rename := by
  obtain ⟨g, plain, h⟩ := except_bind_eq_ok.1 h
  obtain ⟨resolvable, type, last, whole, output⟩ := plainField_eq_ok plain
  refine ⟨resolvable, ?_⟩
  cases hp : g.parents with
  | nil =>
    have single : [g.name] = c.segments := by rwa [hp] at whole
    simp only [hp] at h
    cases h
    rw [← single, FieldType.ofSegments_singleton, single]
    exact ⟨type, last, whole, output⟩
  | cons first parents =>
    simp only [hp] at h
    have segments : first :: (parents ++ [g.name]) = c.segments := by rwa [hp] at whole
    rw [← segments, FieldType.ofSegments_cons, segments]
    -- a marker in front is put back by the part that it stands for
    split at h
    · rename_i isKey
      cases h
      subst isKey
      rw [if_pos rfl]
      exact ⟨rfl, last, segments, output⟩
    split at h
    · rename_i notKey isHeader
      cases h
      subst isHeader
      rw [if_neg notKey, if_pos rfl]
      exact ⟨rfl, last, segments, output⟩
    · rename_i notKey notHeader
      cases h
      rw [if_neg notKey, if_neg notHeader]
      exact ⟨type, last, whole, output⟩

/-- A select list takes any column that has a name. -/
theorem exists_routedField (h : c.Resolvable) : ∃ f, c.routedField = .ok f := by
  obtain ⟨f, plain⟩ := exists_plainField h
  exact ⟨_, except_bind_eq_ok.2 ⟨f, plain, rfl⟩⟩

/-- A column of the primary key goes out under its own name. -/
theorem keyColumn_eq_ok (h : c.keyColumn = .ok f) :
    c.Resolvable ∧ f.WrittenAs .value c.segments none := by
  obtain ⟨⟨name, parents⟩, resolved, h⟩ := except_bind_eq_ok.1 h
  obtain ⟨complete, whole⟩ := resolve_eq_ok resolved
  cases h
  rw [Resolvable, whole]
  exact ⟨⟨complete, by simp⟩, rfl, by simp [Field.plain], rfl, rfl⟩

/-- A primary key takes any column that has a name. -/
theorem exists_keyColumn (h : c.Resolvable) : ∃ f, c.keyColumn = .ok f := by
  obtain ⟨p, resolved⟩ := exists_resolve h
  exact ⟨_, except_bind_eq_ok.2 ⟨p, resolved, rfl⟩⟩

end Column

/-! ## Lists of columns -/

namespace Column

/-- The columns can stand in one list: each can be resolved, and no two have the same
    segments. -/
structure Distinct (cs : List Column) : Prop where
  resolvable : ∀ c ∈ cs, c.Resolvable
  segments : (cs.map (·.segments)).Nodup

/-- The columns have these fields of the part, in order. -/
def HaveFields (part : FieldType) (cs : List Column) (fs : List Field) : Prop :=
  Forall₂ (fun c f => f.WrittenAs part c.segments c.rename) cs fs

variable {cs cs' : List Column} {fs : List Field} {part : FieldType}

theorem distinct_nil : Distinct [] :=
  ⟨List.forall_mem_nil _, .nil⟩

/-- With one more column a list stays distinct if the column has a name and its segments
    are new. -/
theorem distinct_concat_iff {c : Column} : Distinct (cs ++ [c]) ↔
    Distinct cs ∧ c.Resolvable ∧ c.segments ∉ cs.map (·.segments) := by
  have nodup_iff : ((cs ++ [c]).map (·.segments)).Nodup ↔
      c.segments ∉ cs.map (·.segments) ∧ (cs.map (·.segments)).Nodup := by
    rw [List.map_append, List.map_singleton, ← List.concat_eq_append, List.nodup_concat]
  constructor
  · rintro ⟨resolvable, segments⟩
    obtain ⟨front, last⟩ := List.forall_mem_append.1 resolvable
    obtain ⟨new, nodup⟩ := nodup_iff.1 segments
    exact ⟨⟨front, nodup⟩, last c List.mem_cons_self, new⟩
  · rintro ⟨⟨resolvable, segments⟩, last, new⟩
    exact ⟨List.forall_mem_append.2 ⟨resolvable, List.forall_mem_singleton.2 last⟩,
      nodup_iff.2 ⟨new, segments⟩⟩

/-- The first columns of a distinct list are distinct. -/
theorem Distinct.of_append (h : Distinct (cs ++ cs')) : Distinct cs := by
  obtain ⟨resolvable, segments⟩ := h
  rw [List.map_append] at segments
  exact ⟨fun c hc => resolvable c (List.mem_append_left _ hc), segments.of_append_left⟩

/-- Fields stand for one more column with one more field. -/
theorem HaveFields.concat {c : Column} {f : Field} (h : HaveFields part cs fs)
    (hf : f.WrittenAs part c.segments c.rename) : HaveFields part (cs ++ [c]) (fs ++ [f]) :=
  List.rel_append h (.cons hf .nil)

/-- A field is new exactly if no column has its segments. -/
theorem HaveFields.forall_not_duplicate_iff {f : Field} {segments : List String}
    {rename : Option String} (h : HaveFields part cs fs) (hf : f.WrittenAs part segments rename) :
    (∀ g ∈ fs, g.isDuplicateOf f = false) ↔ segments ∉ cs.map (·.segments) := by
  rw [HaveFields] at h
  induction h with
  | nil => simp
  | @cons c g cs fs hg _ ih =>
    rw [List.forall_mem_cons, ih, List.map_cons, List.mem_cons, not_or, ← Bool.not_eq_true,
      hg.isDuplicateOf_iff hf]
    exact and_congr_left fun _ => ⟨Ne.symm, Ne.symm⟩

end Column

/-- A field is added at the end of its list, unless the list has the same one. -/
theorem addField_eq_ok_iff {list : FieldList} {fs fs' : List Field} {f : Field} {span : Span} :
    addField list fs f span = .ok fs' ↔
      (∀ g ∈ fs, g.isDuplicateOf f = false) ∧ fs' = fs ++ [f] := by
  rw [addField]
  split
  · rename_i taken
    obtain ⟨g, hg, same⟩ := List.any_eq_true.1 taken
    exact ⟨nofun, fun ⟨new, _⟩ => nomatch same.symm.trans (new g hg)⟩
  · rename_i new
    have new := List.any_eq_false.1 (Bool.eq_false_iff.2 new)
    refine ⟨fun h => ⟨fun g hg => Bool.eq_false_iff.2 (new g hg), (Except.ok.inj h).symm⟩, ?_⟩
    rintro ⟨-, rfl⟩
    rfl

/-! ## The select list -/

namespace Query

/-- The selected fields of a part of the record. -/
def fieldsOf (q : Query) : FieldType → List Field
  | .value => q.fields
  | .key => q.keyFields
  | .header => q.headerFields

variable {q q' : Query} {c : Column} {f : Field}

/-- A column adds its field to those of its part, where this is new. -/
theorem addColumn_eq_ok (h : q.addColumn c = .ok q') : ∃ f, c.routedField = .ok f ∧
    (∀ g ∈ q.fieldsOf f.type, g.isDuplicateOf f = false) ∧
    ∀ part, q'.fieldsOf part =
      if f.type = part then q.fieldsOf part ++ [f] else q.fieldsOf part := by
  obtain ⟨f, routed, h⟩ := except_bind_eq_ok.1 h
  refine ⟨f, routed, ?_⟩
  cases ht : f.type with
  | value | key | header =>
    simp only [ht] at h
    obtain ⟨fs, added, h⟩ := except_bind_eq_ok.1 h
    cases h
    obtain ⟨new, rfl⟩ := addField_eq_ok_iff.1 added
    refine ⟨new, fun part => ?_⟩
    cases part <;> rfl

/-- A column whose field is new in its list is accepted. -/
theorem exists_addColumn (routed : c.routedField = .ok f)
    (new : ∀ g ∈ q.fieldsOf f.type, g.isDuplicateOf f = false) :
    ∃ q', q.addColumn c = .ok q' := by
  cases ht : f.type with
  | value | key | header =>
    rw [ht] at new
    simp only [addColumn, except_bind_eq_ok, routed, Except.ok.injEq, exists_eq_left', ht]
    exact ⟨_, _, addField_eq_ok_iff.2 ⟨new, rfl⟩, rfl⟩

/-- The query selects just the columns. -/
structure Selected (q : Query) (cs : List Column) : Prop where
  distinct : Column.Distinct cs
  fields : ∀ part, Column.HaveFields part (cs.filter (.ofSegments ·.segments = part))
    (q.fieldsOf part)

variable {cs before : List Column}

/-- The field of a column is new exactly if no column of the select list has its segments: those
    with its segments are read from its part. -/
theorem Selected.forall_not_duplicate_iff (h : q.Selected cs)
    (hf : f.WrittenAs (.ofSegments c.segments) c.segments c.rename) :
    (∀ g ∈ q.fieldsOf f.type, g.isDuplicateOf f = false) ↔ c.segments ∉ cs.map (·.segments) := by
  rw [hf.type, (h.fields _).forall_not_duplicate_iff hf, not_iff_not, List.mem_map, List.mem_map]
  refine exists_congr fun c' => and_congr_left fun same => ?_
  rw [List.mem_filter, same]
  simp

/-- An accepted column keeps the select list as the columns say. -/
theorem Selected.addColumn (h : q.Selected before) (added : q.addColumn c = .ok q') :
    q'.Selected (before ++ [c]) := by
  obtain ⟨f, routed, new, fields⟩ := addColumn_eq_ok added
  obtain ⟨resolvable, written⟩ := Column.routedField_eq_ok routed
  refine ⟨Column.distinct_concat_iff.2 ⟨h.distinct, resolvable,
    (h.forall_not_duplicate_iff written).1 new⟩, fun part => ?_⟩
  rw [fields, written.type, List.filter_append]
  -- the list of one part grows by the field, and so does the list of its columns
  by_cases own : FieldType.ofSegments c.segments = part
  · subst own
    rw [if_pos rfl, List.filter_cons_of_pos (by simp), List.filter_nil]
    exact (h.fields _).concat written
  · rw [if_neg own, List.filter_cons_of_neg (by simpa using own), List.filter_nil, List.append_nil]
    exact h.fields part

/-- A column that keeps the list distinct is accepted: no field of its own list has its
    segments. -/
theorem Selected.exists_addColumn (h : q.Selected before)
    (distinct : Column.Distinct (before ++ [c])) : ∃ q', q.addColumn c = .ok q' := by
  obtain ⟨-, resolvable, new⟩ := Column.distinct_concat_iff.1 distinct
  obtain ⟨f, routed⟩ := Column.exists_routedField resolvable
  have written := (Column.routedField_eq_ok routed).2
  exact Query.exists_addColumn routed ((h.forall_not_duplicate_iff written).2 new)

/-- A query without fields selects no columns. -/
theorem selected_nil (h : ∀ part, q.fieldsOf part = []) : q.Selected [] :=
  ⟨Column.distinct_nil, fun part => h part ▸ .nil⟩

/-- After all columns the select list is as they say. -/
theorem Selected.foldlM_addColumn (h : q.Selected [])
    (added : cs.foldlM Query.addColumn q = .ok q') : q'.Selected cs :=
  foldlM_follows (fun before q => q.Selected before) (fun _ _ _ _ => Selected.addColumn) [] h added

/-- The columns are accepted if and only if they are distinct. -/
theorem Selected.exists_foldlM_addColumn_iff (h : q.Selected []) :
    (∃ q', cs.foldlM Query.addColumn q = .ok q') ↔ Column.Distinct cs :=
  exists_foldlM_iff (fun before q => q.Selected before) (fun _ _ _ _ => Selected.addColumn)
    (fun _ _ => Column.Distinct.of_append) (fun _ _ _ => Selected.exists_addColumn)
    (fun _ _ => Selected.distinct) h

end Query

/-! ## The columns of clauses -/

/-- The fields are those of the ignored columns. -/
structure Column.Ignored (cs : List Column) (fs : List Field) : Prop where
  distinct : Distinct cs
  fields : HaveFields .value cs fs

section Clauses

variable {cs before : List Column} {c : Column} {fs fs' : List Field}

theorem Column.ignored_nil : Ignored [] [] :=
  ⟨distinct_nil, .nil⟩

/-- One more accepted column keeps the ignored fields as the columns say. -/
theorem Column.Ignored.concat (h : Ignored before fs)
    (added : (do addField .ignoredFields fs (← c.plainField) c.span) = .ok fs') :
    Ignored (before ++ [c]) fs' := by
  obtain ⟨f, plain, added⟩ := except_bind_eq_ok.1 added
  obtain ⟨resolvable, written⟩ := plainField_eq_ok plain
  obtain ⟨new, rfl⟩ := addField_eq_ok_iff.1 added
  have unseen := (h.fields.forall_not_duplicate_iff written).1 new
  exact ⟨distinct_concat_iff.2 ⟨h.distinct, resolvable, unseen⟩, h.fields.concat written⟩

/-- A column that keeps the list distinct is accepted here as well. -/
theorem Column.Ignored.exists_concat (h : Ignored before fs)
    (distinct : Distinct (before ++ [c])) :
    ∃ fs', (do addField .ignoredFields fs (← c.plainField) c.span) = .ok fs' := by
  obtain ⟨-, resolvable, unseen⟩ := distinct_concat_iff.1 distinct
  obtain ⟨f, plain⟩ := exists_plainField resolvable
  have written := (plainField_eq_ok plain).2
  have new := (h.fields.forall_not_duplicate_iff written).2 unseen
  exact ⟨_, except_bind_eq_ok.2 ⟨f, plain, addField_eq_ok_iff.2 ⟨new, rfl⟩⟩⟩

/-- The ignored fields are as their columns say. -/
theorem ignoredFields_eq_ok (h : ignoredFields cs = .ok fs) : Column.Ignored cs fs :=
  foldlM_follows Column.Ignored (fun _ _ _ _ => Column.Ignored.concat) [] Column.ignored_nil h

/-- Ignored columns are accepted if and only if they are distinct. -/
theorem exists_ignoredFields_iff : (∃ fs, ignoredFields cs = .ok fs) ↔ Column.Distinct cs :=
  exists_foldlM_iff Column.Ignored (fun _ _ _ _ => Column.Ignored.concat)
    (fun _ _ => Column.Distinct.of_append) (fun _ _ _ => Column.Ignored.exists_concat)
    (fun _ _ => Column.Ignored.distinct) Column.ignored_nil

/-- The columns have these fields of the primary key, in order. -/
def Column.HaveKeys (cs : List Column) (fs : List Field) : Prop :=
  Forall₂ (fun c f => f.WrittenAs .value c.segments none) cs fs

/-- The keys are as their columns say, one by one. -/
theorem haveKeys_of_mapM (h : cs.mapM Column.keyColumn = .ok fs) : Column.HaveKeys cs fs :=
  (mapM_eq_ok_iff.1 h).imp fun _ _ key => (Column.keyColumn_eq_ok key).2

/-- Keys are accepted if every column has a name. No two are compared. -/
theorem exists_mapM_keyColumn_iff :
    (∃ fs, cs.mapM Column.keyColumn = .ok fs) ↔ ∀ c ∈ cs, c.Resolvable := by
  rw [exists_mapM_iff]
  refine forall₂_congr fun c _ => ⟨?_, Column.exists_keyColumn⟩
  rintro ⟨f, key⟩
  exact (Column.keyColumn_eq_ok key).1

end Clauses

namespace Clause

variable {columns : List Column} {span : Span} {u : Update}

/-- A clause of ignored columns is accepted if and only if these are distinct. -/
theorem exists_update_ignore_iff :
    (∃ u, update span (.ignore columns) = .ok u) ↔ Column.Distinct columns := by
  rw [← exists_ignoredFields_iff]
  exact exists_bind_pure_iff

/-- A clause of ignored columns sets the ignored fields to those of its columns. -/
theorem haveFields_of_update_ignore (h : update span (.ignore columns) = .ok u) (q : Query) :
    Column.HaveFields .value columns (u q).ignoredFields := by
  obtain ⟨fs, ignored, h⟩ := except_bind_eq_ok.1 h
  cases h
  exact (ignoredFields_eq_ok ignored).fields

/-- A clause of keys is accepted if and only if each column has a name. -/
theorem exists_update_primaryKey_iff :
    (∃ u, update span (.primaryKey columns) = .ok u) ↔ ∀ c ∈ columns, c.Resolvable := by
  rw [← exists_mapM_keyColumn_iff]
  exact exists_bind_pure_iff

/-- A clause of keys sets the primary key to that of its columns. -/
theorem haveKeys_of_update_primaryKey (h : update span (.primaryKey columns) = .ok u)
    (q : Query) : Column.HaveKeys columns (u q).primaryKeys := by
  obtain ⟨fs, keys, h⟩ := except_bind_eq_ok.1 h
  cases h
  exact haveKeys_of_mapM keys

end Clause

/-! ## Statements -/

namespace Query

/-- No clause has selected fields. -/
theorem Laid.fieldsOf_eq {q q' : Query} {cs : List (Located Clause)} (h : Laid q cs q')
    (part : FieldType) : q'.fieldsOf part = q.fieldsOf part := by
  cases part with
  | value => exact h.other .fields fun _ _ => nofun
  | key => exact h.other .keyFields fun _ _ => nofun
  | header => exact h.other .headerFields fun _ _ => nofun

/-- Other clauses change nothing about the columns, which are added first. -/
theorem ofStatement_withClauses (text : String) (st : Statement) (cs : List (Located Clause)) :
    ofStatement text (st.withClauses cs) =
      st.columns.foldlM addColumn (opened text st) >>= (·.applyClauses [] cs) :=
  ofStatement_eq text (st.withClauses cs)

section Among

variable {text : String} {st : Statement} {before after : List (Located Clause)} {span : Span}
  {columns : List Column}

/-- Among other clauses, the columns of an ignore clause may take the place of none exactly if
    they are complete, not empty and different. -/
theorem exists_ignore_iff :
    (∃ q, ofStatement text (st.withClauses (before ++ ⟨.ignore columns, span⟩ :: after)) = .ok q) ↔
      (∃ q, ofStatement text (st.withClauses (before ++ ⟨.ignore [], span⟩ :: after)) = .ok q) ∧
        Column.Distinct columns := by
  rw [← Clause.exists_update_ignore_iff]
  exact exists_ofStatement_replace_iff (.ignore columns) (.ignore []) rfl ⟨_, rfl⟩

/-- Among other clauses, the columns of a primary key may take the place of none exactly if
    they are complete and not empty. -/
theorem exists_primaryKey_iff :
    (∃ q, ofStatement text
        (st.withClauses (before ++ ⟨.primaryKey columns, span⟩ :: after)) = .ok q) ↔
      (∃ q, ofStatement text
        (st.withClauses (before ++ ⟨.primaryKey [], span⟩ :: after)) = .ok q) ∧
        ∀ c ∈ columns, c.Resolvable := by
  rw [← Clause.exists_update_primaryKey_iff]
  exact exists_ofStatement_replace_iff (.primaryKey columns) (.primaryKey []) rfl ⟨_, rfl⟩

end Among

/-- The select list is empty at first. -/
theorem selected_opened (text : String) (st : Statement) : (opened text st).Selected [] :=
  selected_nil fun part => by cases part <;> rfl

/-- No column of a statement is lost, and no two of them fall together unless they have
    the same segments. The select list is accepted exactly if its columns are complete,
    not empty and different; the columns of each part of the record have, in order, the
    fields of this part, whatever clauses follow. An ignore clause is accepted exactly if
    its columns are complete, not empty and different, and has their fields without a look
    at the markers; a primary key may also repeat a column. -/
theorem columns_lossless (text : String) (st : Statement) :
    ((∃ q, ofStatement text (st.withClauses []) = .ok q) ↔ Column.Distinct st.columns) ∧
    ofStatement text st =
      ofStatement text (st.withClauses []) >>= (·.applyClauses [] st.clauses) ∧
    (∀ before after span columns,
      ((∃ q, ofStatement text
          (st.withClauses (before ++ ⟨.ignore columns, span⟩ :: after)) = .ok q) ↔
        (∃ q, ofStatement text
          (st.withClauses (before ++ ⟨.ignore [], span⟩ :: after)) = .ok q) ∧
          Column.Distinct columns) ∧
      ((∃ q, ofStatement text
          (st.withClauses (before ++ ⟨.primaryKey columns, span⟩ :: after)) = .ok q) ↔
        (∃ q, ofStatement text
          (st.withClauses (before ++ ⟨.primaryKey [], span⟩ :: after)) = .ok q) ∧
          ∀ c ∈ columns, c.Resolvable)) ∧
    ∀ q, ofStatement text st = .ok q →
      (∀ part, Column.HaveFields part (st.columns.filter (.ofSegments ·.segments = part))
        (q.fieldsOf part)) ∧
      (∀ c ∈ st.clauses, ∀ columns, c.val = .ignore columns →
        Column.HaveFields .value columns q.ignoredFields) ∧
      ∀ c ∈ st.clauses, ∀ columns, c.val = .primaryKey columns →
        Column.HaveKeys columns q.primaryKeys := by
  have empty := selected_opened text st
  have whole := ofStatement_withClauses text st st.clauses
  have bare : ofStatement text (st.withClauses []) = st.columns.foldlM addColumn (opened text st) :=
    (ofStatement_withClauses text st []).trans (bind_pure _)
  rw [bare]
  refine ⟨empty.exists_foldlM_addColumn_iff, whole, fun before after span columns =>
    ⟨exists_ignore_iff, exists_primaryKey_iff⟩, fun q h => ?_⟩
  obtain ⟨selected, added, h⟩ := except_bind_eq_ok.1 (whole.symm.trans h)
  have laid := applyClauses_eq_ok_iff.1 h
  -- no clause has selected fields, and only one has the ignored fields or the key
  refine ⟨fun part => ?_, fun c hc columns ignore => ?_, fun c hc columns primaryKey => ?_⟩
  · rw [laid.fieldsOf_eq]
    exact (empty.foldlM_addColumn added).fields part
  · obtain ⟨u, hu⟩ := laid.resolved c hc
    have own : q.ignoredFields = (u selected).ignoredFields :=
      laid.own c hc u hu .ignoredFields (by rw [ignore]; rfl)
    rw [own]
    exact Clause.haveFields_of_update_ignore (ignore ▸ hu) selected
  · obtain ⟨u, hu⟩ := laid.resolved c hc
    have own : q.primaryKeys = (u selected).primaryKeys :=
      laid.own c hc u hu .primaryKeys (by rw [primaryKey]; rfl)
    rw [own]
    exact Clause.haveKeys_of_update_primaryKey (primaryKey ▸ hu) selected

end Query

/-- A statement that reads fields of each part of the record, ignores a column under a
    marker and names a column twice in its primary key. -/
def Statement.marked : Statement where
  verb := none
  target := none
  columns := [⟨["_key"], false, none, .nowhere⟩, ⟨["_key", "_key", "x"], false, none, .nowhere⟩,
    ⟨["_header", "*"], false, none, .nowhere⟩, ⟨["a", "b"], false, some "c", .nowhere⟩]
  source := .nowhere "s"
  clauses := [.nowhere (.ignore [⟨["_key", "y"], false, none, .nowhere⟩]),
    .nowhere (.primaryKey [⟨["a"], false, none, .nowhere⟩, ⟨["a"], false, none, .nowhere⟩])]
  span := .nowhere

theorem Query.columns_lossless_marked : Column.Distinct Statement.marked.columns ∧
    ∃ q, Query.ofStatement "" .marked = .ok q ∧
      Column.HaveFields .key [⟨["_key", "_key", "x"], false, none, .nowhere⟩] q.keyFields ∧
      Column.HaveFields .value [⟨["_key", "y"], false, none, .nowhere⟩] q.ignoredFields ∧
      Column.HaveKeys [⟨["a"], false, none, .nowhere⟩, ⟨["a"], false, none, .nowhere⟩]
        q.primaryKeys := by
  obtain ⟨q₀, bare⟩ := exists_of_isOk
    (x := Query.ofStatement "" (Statement.marked.withClauses [])) (by decide +kernel)
  obtain ⟨q, h⟩ := exists_of_isOk (x := Query.ofStatement "" .marked) (by decide +kernel)
  obtain ⟨accepted, -, -, lists⟩ := columns_lossless "" .marked
  obtain ⟨fields, ignored, keys⟩ := lists q h
  refine ⟨accepted.1 ⟨q₀, bare⟩, q, h, fields .key, ?_, ?_⟩
  · exact ignored _ List.mem_cons_self _ rfl
  · exact keys _ (List.mem_cons_of_mem _ List.mem_cons_self) _ rfl

end ConnectorQuery
