import ConnectorQuery.Proofs.Grammar.Completeness

/-!
# Well-formed statements

A statement that is read from a text is *well-formed*: it has a verb and a target
or neither, its lists are not empty where the grammar asks for an item, every
column names something, and a tag without a marker has no value. Whoever
resolves statements relies on this (`Query.Valid`), and no other statement can
be written down as a text.

The places of a statement do not matter for it (`Statement.wellFormed_of_bare`), so
it is enough that everything the grammar spells is well-formed
(`wellFormed_of_isStatement`).
-/

namespace ConnectorQuery

/-- The column names something. -/
def Column.WellFormed (c : Column) : Prop :=
  c.segments ≠ []

/-- A tag without a marker has no value. -/
def TagEntry.WellFormed (e : TagEntry) : Prop :=
  e.marker = none → e.value = none

/-- What the grammar asks of a clause. -/
def Clause.WellFormed : Clause → Prop
  | .primaryKey columns => columns ≠ [] ∧ ∀ c ∈ columns, c.WellFormed ∧ c.rename = none
  | .ignore columns => columns ≠ [] ∧ ∀ c ∈ columns, c.WellFormed
  | .partitionBy names => names ≠ []
  | .tags entries => ∀ e ∈ entries, e.WellFormed
  | .withKeys keys => keys ≠ []
  | .properties entries => entries ≠ []
  | .flag _ | .setting _ _ | .bucketing _ _ | .storeAs _ _ | .timestamp _ _ => True

/-- What the grammar asks of a statement. -/
structure Statement.WellFormed (st : Statement) : Prop where
  target : st.target.isSome = st.verb.isSome
  columns_ne_nil : st.columns ≠ []
  columns : ∀ c ∈ st.columns, c.WellFormed
  clauses : ∀ c ∈ st.clauses, c.val.WellFormed

/-! ## Places do not matter -/

/-- Whether a clause is well-formed does not hang on its places. -/
theorem Clause.wellFormed_of_bare {c : Clause} (h : c.bare.WellFormed) : c.WellFormed := by
  cases c with
  | flag _ | setting _ _ | bucketing _ _ | storeAs _ _ | timestamp _ _ => trivial
  | primaryKey columns =>
    obtain ⟨items, each⟩ := h
    exact ⟨mt List.map_eq_nil_iff.2 items, fun c hc => each c.bare (List.mem_map_of_mem hc)⟩
  | ignore columns =>
    obtain ⟨items, each⟩ := h
    exact ⟨mt List.map_eq_nil_iff.2 items, fun c hc => each c.bare (List.mem_map_of_mem hc)⟩
  | partitionBy names => exact mt List.map_eq_nil_iff.2 h
  | tags entries =>
    intro e he noMarker
    refine Option.map_eq_none_iff.1 (h e.bare (List.mem_map_of_mem he) ?_)
    exact Option.map_eq_none_iff.2 noMarker
  | withKeys keys => exact mt List.map_eq_nil_iff.2 h
  | properties entries => exact mt List.map_eq_nil_iff.2 h

theorem Statement.wellFormed_of_bare {st : Statement} (h : st.bare.WellFormed) :
    st.WellFormed where
  target := by simpa [Statement.bare] using h.target
  columns_ne_nil := mt List.map_eq_nil_iff.2 h.columns_ne_nil
  columns := fun c hc => h.columns c.bare (List.mem_map_of_mem hc)
  clauses := fun c hc => Clause.wellFormed_of_bare
    (h.clauses (.nowhere c.val.bare) (List.mem_map_of_mem hc))

/-! ## What the grammar spells is well-formed -/

namespace Grammar

theorem IsList.ne_nil {α : Type} {p : Phrase α} {ts rest : List Token} {as : List α}
    (h : IsList p ts as rest) : as ≠ [] := by
  cases h <;> exact List.cons_ne_nil _ _

/-- What holds of every item that is spelled holds of all items of a list. -/
theorem IsList.forall_mem {α : Type} {p : Phrase α} {ts rest : List Token} {as : List α}
    {good : α → Prop} (h : IsList p ts as rest) (hp : ∀ ts a rest, p ts a rest → good a) :
    ∀ a ∈ as, good a := by
  induction h with
  | one ha => exact List.forall_mem_singleton.2 (hp _ _ _ ha)
  | more ha _ _ ih => exact List.forall_mem_cons.2 ⟨hp _ _ _ ha, ih⟩

theorem IsSequence.forall_mem {α : Type} {p : Phrase α} {ts rest : List Token} {as : List α}
    {good : α → Prop} (h : IsSequence p ts as rest) (hp : ∀ ts a rest, p ts a rest → good a) :
    ∀ a ∈ as, good a := by
  induction h with
  | nil => exact List.forall_mem_nil _
  | cons ha _ ih => exact List.forall_mem_cons.2 ⟨hp _ _ _ ha, ih⟩

/-- A column that is spelled has a segment. -/
theorem IsColumn.wellFormed {mayRename : Bool} {ts rest : List Token} {c : Column}
    (h : IsColumn mayRename ts c rest) : c.WellFormed := by
  cases h <;> exact List.cons_ne_nil _ _

/-- Where a column may not be renamed, it is not. -/
theorem IsColumn.rename_eq_none {ts rest : List Token} {c : Column}
    (h : IsColumn false ts c rest) : c.rename = none := by
  cases h with
  | wildcard _ | plain _ _ => rfl
  | renamed mayRename _ _ _ _ => exact nomatch mayRename

/-- A tag that is spelled has a value only behind a marker. -/
theorem IsTagEntry.wellFormed {ts rest : List Token} {e : TagEntry} (h : IsTagEntry ts e rest) :
    e.WellFormed := by
  cases h with
  | key _ => exact fun _ => rfl
  | assigned _ _ _ | marked _ _ => exact nofun

/-- A clause that is spelled is well-formed, one case for each form. -/
theorem IsClause.wellFormed {ts rest : List Token} {c : Clause} (h : IsClause ts c rest) :
    c.WellFormed := by
  cases h with
  | flag _ _ | setting _ _ _ | bucketing _ _ _ _ | storeAs _ _ _ | timestamp _ _ _ _ => trivial
  | primaryKey _ areColumns =>
    refine ⟨areColumns.ne_nil, areColumns.forall_mem fun _ _ _ h => ?_⟩
    exact ⟨h.wellFormed, h.rename_eq_none⟩
  | ignore _ areColumns =>
    exact ⟨areColumns.ne_nil, areColumns.forall_mem fun _ _ _ h => h.wellFormed⟩
  | partitionBy _ areNames => exact areNames.ne_nil
  | tags _ _ areEntries =>
    obtain ⟨_, _, -, entries, -⟩ := areEntries
    rcases entries with ⟨rfl, -⟩ | entries
    · exact List.forall_mem_nil _
    · exact entries.forall_mem fun _ _ _ h => h.wellFormed
  | withKeys _ _ areKeys =>
    obtain ⟨_, _, -, keys, -⟩ := areKeys
    exact keys.ne_nil
  | properties _ _ areEntries =>
    obtain ⟨_, _, -, entries, -⟩ := areEntries
    exact entries.ne_nil

/-- A statement that is spelled is well-formed. -/
theorem wellFormed_of_isStatement {ts : List Token} {st : Statement} (h : IsStatement ts st) :
    st.WellFormed := by
  cases h with
  | intro isInto _ areColumns _ _ areClauses _ _ _ =>
    refine ⟨?_, areColumns.ne_nil, areColumns.forall_mem fun _ _ _ h => h.wellFormed,
      areClauses.forall_mem fun _ _ _ h => h.2.wellFormed⟩
    generalize st.verb = verb, st.target = target at isInto
    cases isInto <;> rfl

end Grammar

/-- Every statement that is read from a text is well-formed. -/
theorem Statement.wellFormed_of_parse {text : String} {st : Statement}
    (h : Statement.parse text = .ok st) : st.WellFormed :=
  wellFormed_of_bare (Grammar.wellFormed_of_isStatement (exists_parse_bare_iff.1 ⟨st, h, rfl⟩))

end ConnectorQuery
