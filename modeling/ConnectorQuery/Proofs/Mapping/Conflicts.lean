import ConnectorQuery.Mapping
import ConnectorQuery.Proofs.Outcome
import Mathlib.Data.List.Nodup

/-!
# Conflicts in a batch

A batch has a mapping table when its statements are *compatible*: the policy
accepts the names of each, no two read from one source, and no two write to one
target (`Mapper.Compatible`). Nothing else can go wrong, so a batch without a
table has a first statement that *fails* behind the ones in front of it
(`Mapper.Fails`): it cannot be read, a name of it is rejected, or one of them has
a statement in front mapped to it already.

The names that are mapped already are kept while the batch is read. They are those
of the statements read so far (`Seen`), so a step that goes on has found an
admitted statement, and one that stops has found a statement that fails
(`mapOne_eq_ok`, `mapOne_eq_error`), and likewise for a whole run
(`mapPieces_eq_ok`, `mapPieces_eq_error`). As no statement of a compatible batch
fails, the batch alone decides between the two outcomes (`map_eq_iff`).
-/

namespace ConnectorQuery

/-- The queries of the pieces that can be read. -/
def Piece.queries (pieces : List Piece) : List Query :=
  pieces.filterMap fun p => (Query.parse p.text).toOption

namespace Mapper

/-- The statements can be mapped together. -/
structure Compatible (m : Mapper) (qs : List Query) : Prop where
  source_accepted : ∀ q ∈ qs, m.policy.rejection? .source q.source = none
  target_accepted : ∀ q ∈ qs, ∀ t ∈ q.target, m.policy.rejection? .target t = none
  sources_distinct : (qs.map (·.source)).Nodup
  targets_distinct : (qs.filterMap (·.target)).Nodup

/-- Why the statement with the text `text` cannot be mapped behind the statements
    `before`. Of several reasons the first one counts: each stands for the others
    in front of it not to hold. -/
inductive Fails (m : Mapper) (before : List Query) (text : String) : Failure → Prop
  | unread {e : Failure} : Query.parse text = .error e → Fails m before text e
  | sourceRejected {q : Query} {reason : String} :
      Query.parse text = .ok q → m.policy.rejection? .source q.source = some reason →
      Fails m before text (.rule (.invalidName .source q.source reason))
  | sourceTaken {q : Query} :
      Query.parse text = .ok q → m.policy.rejection? .source q.source = none →
      q.source ∈ before.map (·.source) →
      Fails m before text (.rule (.duplicateMapping .source q.source))
  | targetRejected {q : Query} {target reason : String} :
      Query.parse text = .ok q → m.policy.rejection? .source q.source = none →
      q.source ∉ before.map (·.source) → q.target = some target →
      m.policy.rejection? .target target = some reason →
      Fails m before text (.rule (.invalidName .target target reason))
  | targetTaken {q : Query} {target : String} :
      Query.parse text = .ok q → m.policy.rejection? .source q.source = none →
      q.source ∉ before.map (·.source) → q.target = some target →
      m.policy.rejection? .target target = none → target ∈ before.filterMap (·.target) →
      Fails m before text (.rule (.duplicateMapping .target target))

/-- The query can be mapped behind the statements `before`. -/
structure Admitted (m : Mapper) (before : List Query) (q : Query) : Prop where
  source_accepted : m.policy.rejection? .source q.source = none
  source_new : q.source ∉ before.map (·.source)
  target_accepted : ∀ t ∈ q.target, m.policy.rejection? .target t = none
  target_new : ∀ t ∈ q.target, t ∉ before.filterMap (·.target)

variable {m : Mapper} {before qs : List Query} {q : Query} {text : String}

theorem compatible_nil : m.Compatible [] :=
  ⟨List.forall_mem_nil _, List.forall_mem_nil _, .nil, .nil⟩

/-- Compatible statements are those each of which can be mapped behind the others
    in front of it. -/
theorem compatible_concat_iff :
    m.Compatible (before ++ [q]) ↔ m.Compatible before ∧ m.Admitted before q := by
  constructor
  · rintro ⟨sourceAccepted, targetAccepted, sources, targets⟩
    rw [List.map_append, List.nodup_append] at sources
    rw [List.filterMap_append, List.nodup_append] at targets
    obtain ⟨sources, -, newSource⟩ := sources
    obtain ⟨targets, -, newTarget⟩ := targets
    have last : q ∈ before ++ [q] := List.mem_append_right _ List.mem_cons_self
    refine ⟨⟨fun p hp => sourceAccepted p (List.mem_append_left _ hp),
      fun p hp => targetAccepted p (List.mem_append_left _ hp), sources, targets⟩,
      ⟨sourceAccepted q last, fun h => ?_, targetAccepted q last, fun t ht h => ?_⟩⟩
    · exact newSource _ h _ List.mem_cons_self rfl
    · exact newTarget t h t (List.mem_filterMap.2 ⟨q, List.mem_cons_self, ht⟩) rfl
  · -- conversely, what is admitted was not there yet
    rintro ⟨⟨sourceAccepted, targetAccepted, sources, targets⟩, admitted⟩
    refine ⟨List.forall_mem_append.2 ⟨sourceAccepted, ?_⟩,
      List.forall_mem_append.2 ⟨targetAccepted, ?_⟩, ?_, ?_⟩
    · exact List.forall_mem_singleton.2 admitted.source_accepted
    · exact List.forall_mem_singleton.2 admitted.target_accepted
    · rw [List.map_append, List.nodup_append]
      refine ⟨sources, List.nodup_singleton _, ?_⟩
      rintro s hs _ hq rfl
      obtain rfl := List.mem_singleton.1 hq
      exact admitted.source_new hs
    · rw [List.filterMap_append, List.nodup_append]
      refine ⟨targets, ?_, ?_⟩
      · cases h : q.target <;> simp [h]
      · rintro t ht _ hq rfl
        obtain ⟨q', hq', htarget⟩ := List.mem_filterMap.1 hq
        obtain rfl := List.mem_singleton.1 hq'
        exact admitted.target_new t htarget ht

/-- The first of compatible queries are compatible. -/
theorem Compatible.of_append (h : m.Compatible (before ++ qs)) : m.Compatible before := by
  refine ⟨fun q hq => h.source_accepted q (List.mem_append_left _ hq),
    fun q hq => h.target_accepted q (List.mem_append_left _ hq), ?_, ?_⟩
  · have := h.sources_distinct
    rw [List.map_append] at this
    exact this.of_append_left
  · have := h.targets_distinct
    rw [List.filterMap_append] at this
    exact this.of_append_left

/-! ## A statement fails or is admitted -/

/-- A statement that fails is not admitted. -/
theorem Fails.not_admitted {e : Failure} (h : m.Fails before text e)
    (hq : Query.parse text = .ok q) : ¬m.Admitted before q := by
  intro admitted
  cases h with
  | unread he => exact nomatch hq.symm.trans he
  | sourceRejected hq' rejected =>
    obtain rfl := Except.ok.inj (hq.symm.trans hq')
    exact nomatch admitted.source_accepted.symm.trans rejected
  | sourceTaken hq' _ taken =>
    obtain rfl := Except.ok.inj (hq.symm.trans hq')
    exact admitted.source_new taken
  | targetRejected hq' _ _ ht rejected =>
    obtain rfl := Except.ok.inj (hq.symm.trans hq')
    exact nomatch (admitted.target_accepted _ ht).symm.trans rejected
  | targetTaken hq' _ _ ht _ taken =>
    obtain rfl := Except.ok.inj (hq.symm.trans hq')
    exact admitted.target_new _ ht taken

/-- The names that were mapped so far are those of the statements `before`. -/
structure Seen (before : List Query) (sources targets : List String) : Prop where
  source : ∀ s, s ∈ sources ↔ s ∈ before.map (·.source)
  target : ∀ t, t ∈ targets ↔ t ∈ before.filterMap (·.target)

theorem seen_nil : Seen [] [] [] :=
  ⟨fun _ => Iff.rfl, fun _ => Iff.rfl⟩

variable {sources targets : List String}

/-- One more query adds its source and its target to what was seen. -/
theorem Seen.concat (h : Seen before sources targets) (q : Query) :
    Seen (before ++ [q]) (q.source :: sources) (q.target.toList ++ targets) := by
  refine ⟨fun s => ?_, fun t => ?_⟩
  · simp [h.source, or_comm]
  · cases ht : q.target <;> simp [h.target, ht, or_comm]

/-- A name that is entered is accepted and new. -/
theorem enter_eq_ok {role : Role} {name : String} {seen seen' : List String}
    (h : m.enter role name seen = .ok seen') :
    m.policy.rejection? role name = none ∧ name ∉ seen ∧ seen' = name :: seen := by
  rw [enter] at h
  split at h
  · cases h
  rename_i accepted
  split at h
  · cases h
  rename_i new
  cases h
  exact ⟨accepted, new, rfl⟩

/-- A name that is not entered is rejected, or accepted and mapped already. -/
theorem enter_eq_error {role : Role} {name : String} {seen : List String} {e : RuleError}
    (h : m.enter role name seen = .error e) :
    (∃ reason, m.policy.rejection? role name = some reason ∧ e = .invalidName role name reason) ∨
      m.policy.rejection? role name = none ∧ name ∈ seen ∧ e = .duplicateMapping role name := by
  rw [enter] at h
  split at h
  · rename_i reason rejected
    cases h
    exact .inl ⟨reason, rejected, rfl⟩
  rename_i accepted
  split at h
  · rename_i taken
    cases h
    exact .inr ⟨accepted, taken, rfl⟩
  · cases h

/-- A target that is accepted is one that the policy allows and that was not seen. -/
theorem enterTarget_eq_ok {targets' : List String} (h : m.enterTarget q targets = .ok targets') :
    (∀ t ∈ q.target, m.policy.rejection? .target t = none ∧ t ∉ targets) ∧
      targets' = q.target.toList ++ targets := by
  rw [enterTarget] at h
  cases ht : q.target with
  | none =>
    simp only [ht] at h
    cases h
    exact ⟨nofun, rfl⟩
  | some target =>
    simp only [ht] at h
    obtain ⟨accepted, new, rfl⟩ := enter_eq_ok h
    refine ⟨fun t ht => ?_, rfl⟩
    obtain rfl := Option.some.inj ht
    exact ⟨accepted, new⟩

/-- A statement goes on with compatible ones, whose names are those mapped from
    then on. -/
theorem mapOne_eq_ok {sources' targets' : List String} (seen : Seen before sources targets)
    (h : m.mapOne text sources targets = .ok (q, sources', targets')) :
    Query.parse text = .ok q ∧ m.Admitted before q ∧ Seen (before ++ [q]) sources' targets' := by
  obtain ⟨q, hq, h⟩ := except_bind_eq_ok.1 h
  obtain ⟨_, hs, h⟩ := except_bind_eq_ok.1 h
  obtain ⟨_, ht, h⟩ := except_bind_eq_ok.1 h
  cases h
  obtain ⟨accepted, new, rfl⟩ := enter_eq_ok (mapError_eq_ok.1 hs)
  obtain ⟨targets, rfl⟩ := enterTarget_eq_ok (mapError_eq_ok.1 ht)
  refine ⟨hq, ⟨accepted, mt (seen.source _).2 new, fun t ht => (targets t ht).1, fun t ht => ?_⟩,
    seen.concat q⟩
  exact mt (seen.target t).2 (targets t ht).2

/-- Only a query with a target can fail at it. -/
theorem enterTarget_eq_error {e : RuleError} (h : m.enterTarget q targets = .error e) :
    ∃ target, q.target = some target ∧ m.enter .target target targets = .error e := by
  rw [enterTarget] at h
  cases ht : q.target with
  | none => simp only [ht] at h; cases h
  | some target =>
    simp only [ht] at h
    exact ⟨target, rfl, h⟩

/-- A statement that stops the batch fails behind those in front of it. -/
theorem mapOne_eq_error {e : Failure} (seen : Seen before sources targets)
    (h : m.mapOne text sources targets = .error e) : m.Fails before text e := by
  obtain hq | ⟨q, hq, h⟩ := except_bind_eq_error.1 h
  · exact .unread hq
  -- a step that is reached says that those before it passed
  obtain hs | ⟨sources', hs, h⟩ := except_bind_eq_error.1 h
  · obtain ⟨e, stopped, rfl⟩ := mapError_eq_error.1 hs
    obtain ⟨reason, rejected, rfl⟩ | ⟨accepted, taken, rfl⟩ := enter_eq_error stopped
    · exact .sourceRejected hq rejected
    · exact .sourceTaken hq accepted ((seen.source _).1 taken)
  obtain ⟨accepted, new, rfl⟩ := enter_eq_ok (mapError_eq_ok.1 hs)
  have new := mt (seen.source _).2 new
  obtain ht | ⟨targets', _, h⟩ := except_bind_eq_error.1 h
  · obtain ⟨e, stopped, rfl⟩ := mapError_eq_error.1 ht
    obtain ⟨target, htarget, stopped⟩ := enterTarget_eq_error stopped
    obtain ⟨reason, rejected, rfl⟩ | ⟨acceptedTarget, taken, rfl⟩ := enter_eq_error stopped
    · exact .targetRejected hq accepted new htarget rejected
    · exact .targetTaken hq accepted new htarget acceptedTarget ((seen.target _).1 taken)
  · cases h

/-! ## The statements of a batch -/

variable {pieces : List Piece} {index : Nat}

/-- The pieces are read as the queries, in order. -/
def Reads (pieces : List Piece) (qs : List Query) : Prop :=
  pieces.map (fun p => Query.parse p.text) = qs.map .ok

/-- A batch that is mapped was read piece by piece, and its queries are compatible with
    those before. The induction is on the pieces, for whatever was seen so far. -/
theorem mapPieces_eq_ok (seen : Seen before sources targets) (compatible : m.Compatible before)
    (h : m.mapPieces index sources targets pieces = .ok qs) :
    Reads pieces qs ∧ m.Compatible (before ++ qs) := by
  induction pieces generalizing index before sources targets qs with
  | nil =>
    cases h
    exact ⟨rfl, (List.append_nil before).symm ▸ compatible⟩
  | cons p ps ih =>
    obtain ⟨⟨q, sources', targets'⟩, hone, h⟩ := except_bind_eq_ok.1 h
    obtain ⟨qs', hrest, h⟩ := except_bind_eq_ok.1 h
    cases h
    obtain ⟨hq, admitted, seen'⟩ := mapOne_eq_ok seen (mapError_eq_ok.1 hone)
    obtain ⟨reads, all⟩ := ih seen' (compatible_concat_iff.2 ⟨compatible, admitted⟩) hrest
    rw [List.append_assoc] at all
    refine ⟨?_, all⟩
    rw [Reads, List.map_cons, hq, List.map_cons]
    exact congrArg _ reads

/-- A batch that is stopped has a statement that fails, behind compatible ones. -/
theorem mapPieces_eq_error {e : BatchFailure} (seen : Seen before sources targets)
    (compatible : m.Compatible before)
    (h : m.mapPieces index sources targets pieces = .error e) :
    ∃ i p qs, pieces[i]? = some p ∧ e.index = index + i ∧ e.offset = p.offset ∧
      Reads (pieces.take i) qs ∧ m.Compatible (before ++ qs) ∧
      m.Fails (before ++ qs) p.text e.cause := by
  induction pieces generalizing index before sources targets with
  | nil => cases h
  -- the first piece is to blame, or it was read and one behind it is
  | cons p ps ih =>
    obtain hone | ⟨⟨q, sources', targets'⟩, hone, h⟩ := except_bind_eq_error.1 h
    · obtain ⟨cause, stopped, rfl⟩ := mapError_eq_error.1 hone
      refine ⟨0, p, [], rfl, rfl, rfl, rfl, ?_, ?_⟩
      · rwa [List.append_nil]
      · rw [List.append_nil]
        exact mapOne_eq_error seen stopped
    · obtain ⟨hq, admitted, seen'⟩ := mapOne_eq_ok seen (mapError_eq_ok.1 hone)
      obtain hrest | ⟨_, _, h⟩ := except_bind_eq_error.1 h
      · obtain ⟨i, p', qs, hi, hindex, offset, reads, all, fails⟩ :=
          ih seen' (compatible_concat_iff.2 ⟨compatible, admitted⟩) hrest
        rw [List.append_assoc] at all fails
        refine ⟨i + 1, p', q :: qs, hi, ?_, offset, ?_, all, fails⟩
        · rw [hindex, Nat.add_assoc, Nat.add_comm 1]
        · rw [Reads, List.take_succ_cons, List.map_cons, hq, List.map_cons]
          exact congrArg _ reads
      · cases h

theorem Reads.take (h : Reads pieces qs) (i : Nat) : Reads (pieces.take i) (qs.take i) := by
  rw [Reads, List.map_take, List.map_take]
  exact congrArg (List.take i) h

/-- The pieces are read in one way. -/
theorem Reads.unique {qs' : List Query} (h : Reads pieces qs) (h' : Reads pieces qs') :
    qs = qs' :=
  List.map_injective_iff.2 (fun _ _ => Except.ok.inj) (h.symm.trans h')

/-- What can be read of pieces all of which are read. -/
theorem Reads.queries_eq (h : Reads pieces qs) : Piece.queries pieces = qs := by
  have each : Piece.queries pieces = (pieces.map fun p => Query.parse p.text).filterMap
      Except.toOption := by
    rw [List.filterMap_map]
    rfl
  rw [each, h, List.filterMap_map]
  exact List.filterMap_some

/-- The first reason is one. -/
theorem Fails.unique {e e' : Failure} (h : m.Fails before text e)
    (h' : m.Fails before text e') : e = e' := by
  cases h <;> cases h' <;> grind

/-- No statement of a compatible batch fails. -/
theorem Compatible.not_fails (h : m.Compatible qs) (reads : Reads pieces qs) {i : Nat} {p : Piece}
    (hp : pieces[i]? = some p) (e : Failure) : ¬m.Fails (qs.take i) p.text e := by
  have same := congrArg (·[i]?) reads
  simp only [List.getElem?_map, hp, Option.map_some] at same
  obtain ⟨q, hq, hok⟩ := Option.map_eq_some_iff.1 same.symm
  have upTo : m.Compatible (qs.take i ++ [q]) := by
    have whole : qs.take (i + 1) = qs.take i ++ [q] := by
      rw [List.take_add_one, hq, Option.toList_some]
    rw [← whole]
    rw [← List.take_append_drop (i + 1) qs] at h
    exact h.of_append
  exact fun fails => fails.not_admitted hok.symm (compatible_concat_iff.1 upTo).2

/-- The failure is that of the first statement of a batch that fails behind those
    in front of it. -/
structure Blames (m : Mapper) (pieces : List Piece) (e : BatchFailure) : Prop where
  fails : ∃ p, pieces[e.index]? = some p ∧ e.offset = p.offset ∧
    m.Fails (Piece.queries (pieces.take e.index)) p.text e.cause
  first : ∀ i < e.index, ∀ p, pieces[i]? = some p → ∀ cause,
    ¬m.Fails (Piece.queries (pieces.take i)) p.text cause

/-- One failure at most is to blame. -/
theorem Blames.unique {e e' : BatchFailure} (h : m.Blames pieces e) (h' : m.Blames pieces e') :
    e = e' := by
  obtain ⟨⟨p, hp, offset, fails⟩, first⟩ := h
  obtain ⟨⟨p', hp', offset', fails'⟩, first'⟩ := h'
  have same : e.index = e'.index := by
    rcases Nat.lt_trichotomy e.index e'.index with lt | same | gt
    · exact absurd fails (first' _ lt _ hp _)
    · exact same
    · exact absurd fails' (first _ gt _ hp' _)
  obtain ⟨index, o, cause⟩ := e
  obtain ⟨index', o', cause'⟩ := e'
  obtain rfl : index = index' := same
  obtain rfl : p = p' := Option.some.inj (hp.symm.trans hp')
  rw [show o = o' from offset.trans offset'.symm, show cause = cause' from fails.unique fails']

/-- A batch without conflicts blames nobody. -/
theorem Compatible.not_blames (h : m.Compatible qs) (reads : Reads pieces qs) (e : BatchFailure) :
    ¬m.Blames pieces e := by
  rintro ⟨⟨p, hp, -, fails⟩, -⟩
  rw [(reads.take e.index).queries_eq] at fails
  exact h.not_fails reads hp e.cause fails

/-- A table holds the queries that were read, and they are compatible. -/
theorem compatible_of_map {table : MappingTable} (h : m.map text = .ok table) :
    Reads (m.split text) table.queries ∧ m.Compatible table.queries := by
  obtain ⟨qs, run, hqs⟩ := except_bind_eq_ok.1 h
  cases hqs
  exact mapPieces_eq_ok seen_nil compatible_nil run

/-- A failure names the statement that is to blame. -/
theorem blames_of_map {e : BatchFailure} (h : m.map text = .error e) :
    m.Blames (m.split text) e := by
  obtain run | ⟨_, _, h⟩ := except_bind_eq_error.1 h
  · obtain ⟨i, p, qs, hp, hi, offset, reads, compatible, fails⟩ :=
      mapPieces_eq_error seen_nil compatible_nil run
    rw [Nat.zero_add] at hi
    subst hi
    refine ⟨⟨p, hp, offset, reads.queries_eq.symm ▸ fails⟩, fun i hi p' hp' cause => ?_⟩
    -- the statements in front are compatible
    have front := reads.take i
    rw [List.take_take, Nat.min_eq_left (Nat.le_of_lt hi)] at front
    rw [front.queries_eq]
    exact compatible.not_fails reads ((List.getElem?_take_of_lt hi).trans hp') cause
  · cases h

/-- A batch has a mapping table exactly when all of its statements are read and
    are compatible, and then it is the table of these statements. Otherwise the
    first statement that fails behind those in front of it is blamed, with the
    first reason it fails for. -/
theorem map_eq_iff (m : Mapper) (text : String) :
    (∀ table, m.map text = .ok table ↔
      Reads (m.split text) table.queries ∧ m.Compatible table.queries) ∧
    ∀ e, m.map text = .error e ↔ m.Blames (m.split text) e := by
  refine ⟨fun table => ⟨compatible_of_map, ?_⟩, fun e => ⟨blames_of_map, fun blames => ?_⟩⟩
  · rintro ⟨reads, compatible⟩
    cases h : m.map text with
    | ok table' =>
      obtain ⟨qs⟩ := table
      obtain ⟨qs'⟩ := table'
      rw [show qs' = qs from (compatible_of_map h).1.unique reads]
    | error e => exact absurd (blames_of_map h) (compatible.not_blames reads e)
  · cases h : m.map text with
    | ok table =>
      obtain ⟨reads, compatible⟩ := compatible_of_map h
      exact absurd blames (compatible.not_blames reads e)
    | error e' => rw [(blames_of_map h).unique blames]

end Mapper

end ConnectorQuery
