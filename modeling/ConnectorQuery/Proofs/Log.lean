import ConnectorQuery.Log

/-!
# What the log tells

The log of a statement tells of its clauses, in the order of the text, up to the one that
is refused. The log of a batch ends with a verdict: how many statements were mapped, or which
one is rejected and why. Only that rejection is a warning, so a batch that is mapped
goes without any.

* `Query.exists_parseLog`: the records of one statement;
* `Mapper.exists_mapLog`: the records of a batch.
-/

namespace ConnectorQuery

/-- Records that only matter to those who look for them. -/
def LogRecord.IsQuiet (r : LogRecord) : Prop :=
  r.level = .debug ∨ r.level = .trace

/-- The records of clauses are those of the first ones. -/
theorem Builder.exists_clausesLog (b : Builder) (cs : List (Located Clause)) :
    ∃ n, b.clausesLog cs = (cs.take n).map fun c => .applying c.val := by
  induction cs generalizing b with
  | nil => exact ⟨0, rfl⟩
  | cons c cs ih =>
    rcases step : (apply c).run b with e | ⟨done, b'⟩
    · -- the clause that is refused is told of, and nothing behind it
      refine ⟨1, ?_⟩
      rw [clausesLog, step]
      rfl
    · obtain ⟨n, rest⟩ := ih b'
      refine ⟨n + 1, ?_⟩
      rw [clausesLog, step, List.take_succ_cons, List.map_cons, ← rest]

/-- The records of a statement: that it was read, then its first clauses. -/
theorem Query.exists_parseLog {text : String} {st : Statement}
    (read : Statement.parse text = .ok st) :
    ∃ n, parseLog text = .parsed st :: (st.clauses.take n).map fun c => .applying c.val := by
  rw [parseLog, read]
  rcases step : (Builder.select st).run (Builder.ofText text) with e | ⟨done, b⟩
  · exact ⟨0, by simp [Builder.buildLog, step]⟩
  · obtain ⟨n, rest⟩ := b.exists_clausesLog st.clauses
    exact ⟨n, by simp [Builder.buildLog, step, rest]⟩

/-- No record of a statement is a warning. -/
theorem Query.isQuiet_of_mem_parseLog {text : String} {r : LogRecord} (h : r ∈ parseLog text) :
    r.IsQuiet := by
  rcases read : Statement.parse text with e | st
  · rw [parseLog, read] at h
    exact absurd h List.not_mem_nil
  · obtain ⟨n, records⟩ := exists_parseLog read
    rw [records, List.mem_cons, List.mem_map] at h
    rcases h with rfl | ⟨c, -, rfl⟩
    · exact .inl rfl
    · exact .inr rfl

/-- What is told of a batch in the end, if `n` statements were mapped before. -/
def LogRecord.verdict (n : Nat) : Except BatchFailure (List Query) → LogRecord
  | .ok qs => complete (n + qs.length)
  | .error e => rejected e.index e.cause

theorem LogRecord.verdict_map_cons (n : Nat) (q : Query) (x : Except BatchFailure (List Query)) :
    verdict n (x.map (q :: ·)) = verdict (n + 1) x := by
  rcases x with e | qs
  · rfl
  · exact congrArg complete (Nat.add_right_comm n qs.length 1)

namespace Mapper

variable (m : Mapper)

/-- Behind a statement that is mapped, the others are mapped with one more before them. -/
theorem mapPieces_cons_of_ok {n : Nat} {sources targets sources' targets' : List String}
    {p : Piece} {q : Query} (h : m.mapOne p.text sources targets = .ok (q, sources', targets'))
    (ps : List Piece) : m.mapPieces n sources targets (p :: ps) =
      (m.mapPieces (n + 1) sources' targets' ps).map (q :: ·) := by
  rw [mapPieces, h]
  rfl

/-- The records of the pieces from the one with index `n` on. -/
theorem exists_piecesLog (n : Nat) (sources targets : List String) (ps : List Piece) :
    ∃ records, m.piecesLog n sources targets ps =
        records ++ [.verdict n (m.mapPieces n sources targets ps)] ∧
      ∀ r ∈ records, r.IsQuiet := by
  induction ps generalizing n sources targets with
  | nil => exact ⟨[], rfl, List.forall_mem_nil _⟩
  | cons p ps ih =>
    rcases step : m.mapOne p.text sources targets with e | ⟨q, sources', targets'⟩
    · refine ⟨Query.parseLog p.text, ?_, fun _ => Query.isQuiet_of_mem_parseLog⟩
      rw [piecesLog, mapPieces, step]
      rfl
    · obtain ⟨records, rest, quiet⟩ := ih (n + 1) sources' targets'
      refine ⟨Query.parseLog p.text ++ .mapped n q :: records, ?_, ?_⟩
      · rw [piecesLog, step, m.mapPieces_cons_of_ok step, LogRecord.verdict_map_cons,
          List.append_assoc, List.cons_append, ← rest]
      · rw [List.forall_mem_append, List.forall_mem_cons]
        exact ⟨fun _ => Query.isQuiet_of_mem_parseLog, .inl rfl, quiet⟩

/-- The records of a batch end with the verdict on it, which alone can be a warning. -/
theorem exists_mapLog (text : String) :
    ∃ records, m.mapLog text =
        records ++ [.verdict 0 ((m.map text).map (·.queries))] ∧
      ∀ r ∈ records, r.IsQuiet := by
  obtain ⟨records, rest, quiet⟩ := m.exists_piecesLog 0 [] [] (m.split text)
  refine ⟨records, ?_, quiet⟩
  rw [mapLog, rest, map]
  rcases m.mapPieces 0 [] [] (m.split text) with e | qs <;> rfl

end Mapper

end ConnectorQuery
