import ConnectorQuery.Proofs.Mapping.Conflicts

/-!
# Mapping tables are one-to-one

The lookups of a mapping table stop at the first statement that reads from the source.
They find all there is to find, since the statements of a table are compatible: no two
of them read from one source, and no two write to one target
(`MappingTable.OneToOne`). So a source has one statement and at most one target, and
the pairs of sources and targets are a map that can be read both ways.

* `OneToOne.query?_eq_some_iff`, `OneToOne.target?_eq_some_iff`: what is found;
* `MappingTable.one_to_one_of_map`: the table of a batch.
-/

namespace ConnectorQuery.MappingTable

variable {t : MappingTable} {q q' : Query} {s g g' : String}

/-- No two statements read from one source, and no two write to one target. -/
structure OneToOne (t : MappingTable) : Prop where
  sources : t.sources.Nodup
  targets : (t.queries.filterMap (·.target)).Nodup

theorem oneToOne_of_map {m : Mapper} {text : String} (h : m.map text = .ok t) : t.OneToOne :=
  have compatible := (Mapper.compatible_of_map h).2
  ⟨compatible.sources_distinct, compatible.targets_distinct⟩

/-! ## Lookups -/

theorem of_query?_eq_some (h : t.query? s = some q) : q ∈ t.queries ∧ q.source = s := by
  rw [query?] at h
  have fits := List.find?_some h
  exact ⟨List.mem_of_find?_eq_some h, beq_iff_eq.1 fits⟩

/-- The statement that is found is the only one with its source. -/
theorem OneToOne.query?_eq_some_iff (h : t.OneToOne) :
    t.query? s = some q ↔ q ∈ t.queries ∧ q.source = s := by
  refine ⟨of_query?_eq_some, ?_⟩
  rintro ⟨hq, rfl⟩
  -- some statement is found, and no other one has this source
  have isFound : (t.query? q.source).isSome := List.find?_isSome.2 ⟨q, hq, beq_self_eq_true _⟩
  obtain ⟨p, found⟩ := Option.isSome_iff_exists.1 isFound
  obtain ⟨hp, same⟩ := of_query?_eq_some found
  rw [found, List.inj_on_of_nodup_map h.sources hp hq same]

theorem query?_eq_none_iff : t.query? s = none ↔ s ∉ t.sources := by
  rw [query?, List.find?_eq_none, sources, List.mem_map]
  constructor
  · rintro none ⟨q, hq, rfl⟩
    exact none q hq (beq_self_eq_true _)
  · exact fun notIn q hq same => notIn ⟨q, hq, beq_iff_eq.1 same⟩

theorem OneToOne.target?_eq_some_iff (h : t.OneToOne) :
    t.target? s = some g ↔ ∃ q ∈ t.queries, q.source = s ∧ q.target = some g := by
  rw [target?, Option.bind_eq_some_iff]
  refine exists_congr fun q => ?_
  rw [h.query?_eq_some_iff, and_assoc]

/-! ## Pairs -/

theorem mem_pairs_iff :
    (s, g) ∈ t.pairs ↔ ∃ q ∈ t.queries, q.source = s ∧ q.target = some g := by
  rw [pairs, List.mem_filterMap]
  refine exists_congr fun q => and_congr_right fun _ => ?_
  cases q.target with
  | none => simp
  | some target => simp

/-- The sources of the pairs are among those of all statements, in order. -/
theorem map_fst_pairs_sublist (t : MappingTable) : (t.pairs.map (·.1)).Sublist t.sources := by
  rw [pairs, sources]
  induction t.queries with
  | nil => exact .slnil
  | cons q qs ih =>
    cases ht : q.target with
    | none =>
      rw [List.filterMap_cons_none (by rw [ht]; rfl)]
      exact ih.cons _
    | some target =>
      rw [List.filterMap_cons_some (by rw [ht]; rfl)]
      exact ih.cons_cons _

theorem map_snd_pairs (t : MappingTable) : t.pairs.map (·.2) = t.queries.filterMap (·.target) := by
  rw [pairs, List.map_filterMap]
  congr
  funext q
  cases q.target <;> rfl

theorem OneToOne.nodup_pairs (h : t.OneToOne) :
    (t.pairs.map (·.1)).Nodup ∧ (t.pairs.map (·.2)).Nodup :=
  ⟨h.sources.sublist t.map_fst_pairs_sublist, t.map_snd_pairs ▸ h.targets⟩

/-- The pairs of two statements stand in the order of the statements. -/
theorem pairs_sublist (order : [q, q'].Sublist t.queries) (hg : q.target = some g)
    (hg' : q'.target = some g') : [(q.source, g), (q'.source, g')].Sublist t.pairs := by
  have both := order.filterMap fun q => q.target.map fun target => (q.source, target)
  rwa [List.filterMap_cons_some (by rw [hg]; rfl), List.filterMap_cons_some (by rw [hg']; rfl),
    List.filterMap_nil] at both

/-! ## The table of a batch -/

/-- The table of a batch has the statements of the batch in order, and maps one-to-one.
    A source has one statement, and this is found, with its target; what is no source is
    not found. The pairs are the sources with the targets that are found for them. Each
    stands there once, no two have one source or one target, and they stand in the order
    of their statements. -/
theorem one_to_one_of_map {m : Mapper} {text : String} (h : m.map text = .ok t) :
    Mapper.Reads (m.split text) t.queries ∧
    t.sources.Nodup ∧
    (∀ q ∈ t.queries, t.query? q.source = some q ∧ t.target? q.source = q.target) ∧
    (∀ s, s ∉ t.sources → t.query? s = none ∧ t.target? s = none) ∧
    (∀ s g, (s, g) ∈ t.pairs ↔ t.target? s = some g) ∧
    (∀ s g, t.target? s = some g → t.pairs.count (s, g) = 1) ∧
    (t.pairs.map (·.1)).Nodup ∧ (t.pairs.map (·.2)).Nodup ∧
    ∀ q q', [q, q'].Sublist t.queries → ∀ g ∈ q.target, ∀ g' ∈ q'.target,
      [(q.source, g), (q'.source, g')].Sublist t.pairs := by
  have oneToOne := oneToOne_of_map h
  have pair (s g : String) : (s, g) ∈ t.pairs ↔ t.target? s = some g := by
    rw [mem_pairs_iff, oneToOne.target?_eq_some_iff]
  obtain ⟨sources, targets⟩ := oneToOne.nodup_pairs
  refine ⟨(Mapper.compatible_of_map h).1, oneToOne.sources, fun q hq => ?_, fun s hs => ?_, pair,
    fun s g found => ?_, sources, targets, fun q q' order g hg g' hg' => pairs_sublist order hg hg'⟩
  · have found := oneToOne.query?_eq_some_iff.2 ⟨hq, rfl⟩
    exact ⟨found, by rw [target?, found, Option.bind_some]⟩
  · have missing := query?_eq_none_iff.2 hs
    exact ⟨missing, by rw [target?, missing, Option.bind_none]⟩
  · exact List.count_eq_one_of_mem sources.of_map ((pair s g).2 found)

/-- A name may be a source and a target, and a statement that only selects has no pair. -/
theorem one_to_one_of_map_selecting :
    let text := "INSERT INTO b SELECT * FROM a; SELECT * FROM b; UPSERT INTO a SELECT * FROM c"
    ∃ t, (⟨.standard, .any⟩ : Mapper).map text = .ok t ∧ t.sources = ["a", "b", "c"] ∧
      t.pairs = [("a", "b"), ("c", "a")] ∧
      (∀ q ∈ t.queries, t.query? q.source = some q ∧ t.target? q.source = q.target) ∧
      (t.query? "d" = none ∧ t.target? "d" = none) ∧
      t.target? "c" = some "a" ∧ t.target? "b" = none := by
  intro text
  let m : Mapper := ⟨.standard, .any⟩
  have lists : (m.map text).map (fun t => (t.sources, t.pairs)) =
      .ok (["a", "b", "c"], [("a", "b"), ("c", "a")]) := by decide +kernel
  obtain ⟨t, ht, lists⟩ := map_eq_ok.1 lists
  obtain ⟨sources, pairs⟩ := Prod.mk.inj lists
  obtain ⟨-, -, own, missing, pair, -⟩ := one_to_one_of_map ht
  refine ⟨t, ht, sources, pairs, own, missing "d" ?_, (pair "c" "a").1 ?_, ?_⟩
  · rw [sources]
    decide
  · rw [pairs]
    decide
  · -- the source `b` has no pair
    refine Option.eq_none_iff_forall_not_mem.2 fun g hg => ?_
    have inPairs := (pair "b" g).2 hg
    rw [pairs] at inPairs
    simp at inPairs

end ConnectorQuery.MappingTable
