import ConnectorQuery.Proofs.Bare
import ConnectorQuery.Proofs.Query.Building

/-!
# The order of clauses

The clauses of a statement may stand in any order. What a list of clauses makes
of a query can be said without its order (`Query.Laid`): their keywords differ,
each of them can be resolved, and each lays down the members of its keyword as
if it stood alone, while the other members are left as they were.

* `Query.Laid.perm`: the order does not matter for this;
* `Query.applyClauses_eq_ok_iff`: it is what applying the clauses one after the
  other comes to;
* `Query.clauses_independent`: so each clause of a statement does what it does
  alone, wherever it stands.
-/

namespace ConnectorQuery

/-- The statement with other clauses. -/
def Statement.withClauses (st : Statement) (cs : List (Located Clause)) : Statement :=
  { st with clauses := cs }

namespace Query

variable {q q' : Query} {cs cs' : List (Located Clause)}

/-- The query `q'` is `q` with what the clauses lay down, each as if it stood
    alone. -/
structure Laid (q : Query) (cs : List (Located Clause)) (q' : Query) : Prop where
  keywords : (cs.map fun c => c.val.keyword).Nodup
  resolved : ∀ c ∈ cs, ∃ u, c.val.update c.span = .ok u
  own : ∀ c ∈ cs, ∀ u, c.val.update c.span = .ok u → ∀ m : Member,
    m.keyword? = some c.val.keyword → q'.get m = (u q).get m
  other : ∀ m : Member, (∀ c ∈ cs, m.keyword? ≠ some c.val.keyword) → q'.get m = q.get m

theorem Laid.perm (h : Laid q cs q') (hcs : cs'.Perm cs) : Laid q cs' q' where
  keywords := (hcs.map _).nodup_iff.2 h.keywords
  resolved := fun c hc => h.resolved c (hcs.mem_iff.1 hc)
  own := fun c hc => h.own c (hcs.mem_iff.1 hc)
  other := fun m hm => h.other m fun c hc => hm c (hcs.mem_iff.2 hc)

/-- Every member is either laid down by one of the clauses or left as it was. -/
theorem Laid.unique (h : Laid q cs q') {q'' : Query} (h' : Laid q cs q'') : q' = q'' := by
  refine ext_get fun m => ?_
  by_cases laidDown : ∃ c ∈ cs, m.keyword? = some c.val.keyword
  · obtain ⟨c, hc, hm⟩ := laidDown
    obtain ⟨u, hu⟩ := h.resolved c hc
    rw [h.own c hc u hu m hm, h'.own c hc u hu m hm]
  · have untouched : ∀ c ∈ cs, m.keyword? ≠ some c.val.keyword :=
      fun c hc hm => laidDown ⟨c, hc, hm⟩
    rw [h.other m untouched, h'.other m untouched]

theorem laid_nil (q : Query) : Laid q [] q :=
  ⟨.nil, List.forall_mem_nil _, List.forall_mem_nil _, fun _ _ => rfl⟩

/-- A clause in front of others with other keywords. -/
theorem Laid.cons {c : Located Clause} {u : Update} (hu : c.val.update c.span = .ok u)
    (new : ∀ c' ∈ cs, c'.val.keyword ≠ c.val.keyword) (h : Laid (u q) cs q') :
    Laid q (c :: cs) q' := by
  have lays := Clause.lays_update hu
  have keyword_ne {c' : Located Clause} (hc' : c' ∈ cs) {m : Member}
      (hm : m.keyword? = some c'.val.keyword) : m.keyword? ≠ some c.val.keyword :=
    fun same => new c' hc' (Option.some.inj (hm.symm.trans same))
  refine ⟨?_, List.forall_mem_cons.2 ⟨⟨u, hu⟩, h.resolved⟩, ?_, fun m hm => ?_⟩
  · refine List.nodup_cons.2 ⟨fun mem => ?_, h.keywords⟩
    obtain ⟨c', hc', same⟩ := List.mem_map.1 mem
    exact new c' hc' same
  · refine List.forall_mem_cons.2 ⟨fun u' hu' m hm => ?_, fun c' hc' u' hu' m hm => ?_⟩
    · -- no clause behind this one has its keyword
      obtain rfl := Except.ok.inj (hu.symm.trans hu')
      exact h.other m fun c' hc' same => keyword_ne hc' same hm
    · -- what the clause lays down is not seen by the ones behind it
      rw [h.own c' hc' u' hu' m hm]
      exact (Clause.lays_update hu').get_congr (lays.get_of_ne (keyword_ne hc' hm))
  · obtain ⟨hc, hcs⟩ := List.forall_mem_cons.1 hm
    rw [h.other m hcs, lays.get_of_ne hc]

theorem laid_of_applyClauses {seen : List Keyword} (h : q.applyClauses seen cs = .ok q') :
    Laid q cs q' ∧ ∀ c ∈ cs, c.val.keyword ∉ seen := by
  -- the induction is on the clauses, for any query to begin with
  induction cs generalizing q seen with
  | nil =>
    cases h
    exact ⟨laid_nil _, List.forall_mem_nil _⟩
  | cons c cs ih =>
    rw [applyClauses] at h
    split at h
    · cases h
    rename_i new
    obtain ⟨u, hu, h⟩ := except_bind_eq_ok.1 h
    obtain ⟨laid, unseen⟩ := ih h
    refine ⟨laid.cons hu fun c' hc' same => unseen c' hc' ?_, List.forall_mem_cons.2 ⟨new, ?_⟩⟩
    · exact same ▸ List.mem_cons_self
    · exact fun c' hc' seen => unseen c' hc' (List.mem_cons_of_mem _ seen)

/-- Clauses with different keywords that can all be resolved can be applied. -/
theorem exists_applyClauses {seen : List Keyword}
    (keywords : (cs.map fun c => c.val.keyword).Nodup)
    (resolved : ∀ c ∈ cs, ∃ u, c.val.update c.span = .ok u)
    (unseen : ∀ c ∈ cs, c.val.keyword ∉ seen) : ∃ q', q.applyClauses seen cs = .ok q' := by
  induction cs generalizing q seen with
  | nil => exact ⟨q, rfl⟩
  | cons c cs ih =>
    obtain ⟨first, keywords'⟩ := List.nodup_cons.1 keywords
    obtain ⟨⟨u, hu⟩, resolved'⟩ := List.forall_mem_cons.1 resolved
    obtain ⟨new, unseen'⟩ := List.forall_mem_cons.1 unseen
    rw [applyClauses, if_neg new, hu]
    refine ih keywords' resolved' fun c' hc' mem => ?_
    rcases List.mem_cons.1 mem with same | mem
    · exact first (List.mem_map.2 ⟨c', hc', same⟩)
    · exact unseen' c' hc' mem

theorem applyClauses_eq_ok_iff : q.applyClauses [] cs = .ok q' ↔ Laid q cs q' := by
  refine ⟨fun h => (laid_of_applyClauses h).1, fun h => ?_⟩
  have unseen : ∀ c ∈ cs, c.val.keyword ∉ [] := fun _ _ => List.not_mem_nil
  obtain ⟨q'', h''⟩ := @exists_applyClauses q cs [] h.keywords h.resolved unseen
  rw [h'', h.unique (laid_of_applyClauses h'').1]

/-! ## Statements -/

variable {text : String} {st : Statement}

/-- The clauses are laid down on the query of the statement without them. -/
theorem ofStatement_eq_ok_iff : ofStatement text (st.withClauses cs) = .ok q ↔
    ∃ q₀, ofStatement text (st.withClauses []) = .ok q₀ ∧ Laid q₀ cs q := by
  simp only [ofStatement_eq]
  constructor
  · intro h
    obtain ⟨q₀, selected, h⟩ := except_bind_eq_ok.1 h
    exact ⟨q₀, except_bind_eq_ok.2 ⟨q₀, selected, rfl⟩, applyClauses_eq_ok_iff.1 h⟩
  · rintro ⟨q₀, h, laid⟩
    obtain ⟨q₁, selected, h⟩ := except_bind_eq_ok.1 h
    cases h
    exact except_bind_eq_ok.2 ⟨_, selected, applyClauses_eq_ok_iff.2 laid⟩

/-- A clause alone lays down what it comes to. -/
theorem laid_singleton_iff {c : Located Clause} :
    Laid q [c] q' ↔ ∃ u, c.val.update c.span = .ok u ∧ u q = q' := by
  have alone {u : Update} (hu : c.val.update c.span = .ok u) : Laid q [c] (u q) :=
    (laid_nil (u q)).cons hu (List.forall_mem_nil _)
  constructor
  · intro h
    obtain ⟨u, hu⟩ := h.resolved c List.mem_cons_self
    exact ⟨u, hu, (alone hu).unique h⟩
  · rintro ⟨u, hu, rfl⟩
    exact alone hu

/-! ### One clause among others -/

section Among

variable {before after : List (Located Clause)} {c : Clause} {span : Span}

/-- What a list of clauses needs to be accepted. -/
theorem exists_ofStatement_iff {cs : List (Located Clause)} :
    (∃ q, ofStatement text (st.withClauses cs) = .ok q) ↔
      (∃ q, ofStatement text (st.withClauses []) = .ok q) ∧
        (cs.map fun c => c.val.keyword).Nodup ∧ ∀ c ∈ cs, ∃ u, c.val.update c.span = .ok u := by
  constructor
  · rintro ⟨q, h⟩
    obtain ⟨q₀, h₀, laid⟩ := ofStatement_eq_ok_iff.1 h
    exact ⟨⟨q₀, h₀⟩, laid.keywords, laid.resolved⟩
  · rintro ⟨⟨q₀, h₀⟩, keywords, resolved⟩
    obtain ⟨q, h⟩ := @exists_applyClauses q₀ cs [] keywords resolved fun _ _ => List.not_mem_nil
    exact ⟨q, ofStatement_eq_ok_iff.2 ⟨q₀, h₀, applyClauses_eq_ok_iff.1 h⟩⟩

/-- A clause may stand in place of another one with its keyword that can be resolved
    exactly if it can be resolved, too. -/
theorem exists_ofStatement_replace_iff (c c' : Clause) (same : c.keyword = c'.keyword)
    (resolved : ∃ u, c'.update span = .ok u) :
    (∃ q, ofStatement text (st.withClauses (before ++ ⟨c, span⟩ :: after)) = .ok q) ↔
      (∃ q, ofStatement text (st.withClauses (before ++ ⟨c', span⟩ :: after)) = .ok q) ∧
        ∃ u, c.update span = .ok u := by
  rw [exists_ofStatement_iff, @exists_ofStatement_iff _ _ (before ++ ⟨c', span⟩ :: after)]
  simp only [List.map_append, List.map_cons, same, List.forall_mem_append, List.forall_mem_cons]
  tauto

/-- What the clause lays down in a member of its keyword. -/
theorem get_of_ofStatement
    (h : ofStatement text (st.withClauses (before ++ ⟨c, span⟩ :: after)) = .ok q) (m : Member)
    (hm : m.keyword? = some c.keyword) :
    ∃ q₀ u, c.update span = .ok u ∧ q.get m = (u q₀).get m := by
  obtain ⟨q₀, -, laid⟩ := ofStatement_eq_ok_iff.1 h
  have mem : (⟨c, span⟩ : Located Clause) ∈ before ++ ⟨c, span⟩ :: after := by simp
  obtain ⟨u, hu⟩ := laid.resolved _ mem
  exact ⟨q₀, u, hu, laid.own _ mem u hu m hm⟩

end Among

/-- The clauses of a statement do not depend on each other. Their order does not
    matter; they can be resolved together if their keywords differ and each can
    be resolved alone; and every member of the query is what the clause that lays
    it down makes of it alone, or what it is without clauses. -/
theorem clauses_independent (text : String) (st : Statement) :
    (∀ cs, cs.Perm st.clauses → ∀ q,
      ofStatement text st = .ok q ↔ ofStatement text (st.withClauses cs) = .ok q) ∧
    ((∃ q, ofStatement text st = .ok q) ↔
      (∃ q, ofStatement text (st.withClauses []) = .ok q) ∧
        (st.clauses.map fun c => c.val.keyword).Nodup ∧
        ∀ c ∈ st.clauses, ∃ q, ofStatement text (st.withClauses [c]) = .ok q) ∧
    ∀ q, ofStatement text st = .ok q → ∀ m : Member,
      (∀ c ∈ st.clauses, m.keyword? = some c.val.keyword →
        ∃ q', ofStatement text (st.withClauses [c]) = .ok q' ∧ q.get m = q'.get m) ∧
      ((∀ c ∈ st.clauses, m.keyword? ≠ some c.val.keyword) →
        ∃ q', ofStatement text (st.withClauses []) = .ok q' ∧ q.get m = q'.get m) := by
  have whole : st.withClauses st.clauses = st := rfl
  have ofStatement_eq_ok {q : Query} := @ofStatement_eq_ok_iff q st.clauses text st
  rw [whole] at ofStatement_eq_ok
  refine ⟨fun cs hcs q => ?_, ⟨?_, ?_⟩, ?_⟩
  · -- the query without clauses is the same, and the order does not matter for the rest
    rw [ofStatement_eq_ok, ofStatement_eq_ok_iff]
    exact exists_congr fun q₀ => and_congr_right fun _ => ⟨(·.perm hcs), (·.perm hcs.symm)⟩
  · -- what can be resolved together can be resolved alone
    rintro ⟨q, h⟩
    obtain ⟨q₀, h₀, laid⟩ := ofStatement_eq_ok.1 h
    refine ⟨⟨q₀, h₀⟩, laid.keywords, fun c hc => ?_⟩
    obtain ⟨u, hu⟩ := laid.resolved c hc
    exact ⟨u q₀, ofStatement_eq_ok_iff.2 ⟨q₀, h₀, laid_singleton_iff.2 ⟨u, hu, rfl⟩⟩⟩
  · -- and the other way round, if the keywords differ
    rintro ⟨⟨q₀, h₀⟩, keywords, alone⟩
    have resolved : ∀ c ∈ st.clauses, ∃ u, c.val.update c.span = .ok u := by
      intro c hc
      obtain ⟨q, h⟩ := alone c hc
      obtain ⟨_, -, laid⟩ := ofStatement_eq_ok_iff.1 h
      exact laid.resolved c List.mem_cons_self
    obtain ⟨q, h⟩ := @exists_applyClauses q₀ st.clauses [] keywords resolved
      fun _ _ => List.not_mem_nil
    exact ⟨q, ofStatement_eq_ok.2 ⟨q₀, h₀, applyClauses_eq_ok_iff.1 h⟩⟩
  · -- member by member
    intro q h m
    obtain ⟨q₀, h₀, laid⟩ := ofStatement_eq_ok.1 h
    refine ⟨fun c hc hm => ?_, fun hm => ⟨q₀, h₀, laid.other m hm⟩⟩
    obtain ⟨u, hu⟩ := laid.resolved c hc
    refine ⟨u q₀, ofStatement_eq_ok_iff.2 ⟨q₀, h₀, laid_singleton_iff.2 ⟨u, hu, rfl⟩⟩, ?_⟩
    exact laid.own c hc u hu m hm

end Query

/-- A statement with a setting and a flag. -/
def Statement.limited : Statement where
  verb := none
  target := none
  columns := [⟨["a"], false, none, .nowhere⟩]
  source := .nowhere "s"
  clauses := [.nowhere (.setting .limit (.nowhere "10")), .nowhere (.flag .autoCreate)]
  span := .nowhere

theorem Query.clauses_independent_limited :
    ∃ q q' : Query, Query.ofStatement "" .limited = .ok q ∧
      Query.ofStatement "" (Statement.limited.withClauses Statement.limited.clauses.reverse) =
        .ok q ∧
      Query.ofStatement "" (Statement.limited.withClauses
        [.nowhere (.setting .limit (.nowhere "10"))]) = .ok q' ∧
      q.limit = q'.limit := by
  obtain ⟨q, h⟩ := exists_of_isOk (x := Query.ofStatement "" .limited) (by decide +kernel)
  obtain ⟨order, -, members⟩ := clauses_independent "" .limited
  obtain ⟨q', h', limit⟩ := (members q h (.setting .limit)).1 _ List.mem_cons_self rfl
  exact ⟨q, q', h, (order _ (List.reverse_perm _) q).1 h, h', limit⟩

end ConnectorQuery
