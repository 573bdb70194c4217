import ConnectorQuery.Proofs.Mapping.Conflicts
import ConnectorQuery.Proofs.Query.Places
import ConnectorQuery.Proofs.Text.Position
import Mathlib.Data.List.TakeWhile

/-!
# Places in a batch

A piece of a batch is a part of the text of the batch, and it knows how far
behind it stands there (`Piece.IsPartOf`). So a place in the piece is moved into
the text by its offset, and what stands at the two places is the same
(`BatchFailure.pointsInto`).

With the places of statements and of broken rules, everything that is complained
about can be shown in the text (`places_usable`). A complaint about the grammar counts
lines and columns from its statement, and these can be found in the batch as well
(`BatchFailure.isPositioned`).
-/

namespace ConnectorQuery

/-- The piece is a part of the text, and begins there at its offset. -/
def Piece.IsPartOf (text : String) (p : Piece) : Prop :=
  ∃ front behind, text.toList = front ++ p.text.toList ++ behind ∧ Text.width front = p.offset

theorem Text.exists_trimEnd (cs : List Char) :
    ∃ blanks, cs = trimEnd cs ++ blanks ∧ ∀ c ∈ blanks, isBlank c = true := by
  refine ⟨(cs.reverse.takeWhile isBlank).reverse, ?_, fun c hc => ?_⟩
  · rw [trimEnd, ← List.reverse_append, List.takeWhile_append_dropWhile, List.reverse_reverse]
  · exact List.mem_takeWhile_imp (List.mem_reverse.1 hc)

/-- A piece is a part of its segment, with nothing but blanks around it. -/
theorem Piece.exists_of_ofSegment? {offset : Nat} {segment : List Char} {p : Piece}
    (h : ofSegment? offset segment = some p) : ∃ front behind,
      segment = front ++ p.text.toList ++ behind ∧ offset + Text.width front = p.offset ∧
      (∀ c ∈ front, Text.isBlank c = true) ∧ ∀ c ∈ behind, Text.isBlank c = true := by
  rw [ofSegment?] at h
  split at h
  · cases h
  · cases h
    obtain ⟨behind, kept, blanks⟩ := Text.exists_trimEnd (Text.trimStart segment)
    refine ⟨segment.takeWhile Text.isBlank, behind, ?_, rfl,
      fun c hc => List.mem_takeWhile_imp hc, blanks⟩
    rw [String.toList_ofList, List.append_assoc, ← kept]
    exact List.takeWhile_append_dropWhile.symm

theorem mem_placePieces_cons {terminator : Char} {offset : Nat} {s : List Char}
    {ss : List (List Char)} {p : Piece} : p ∈ placePieces terminator offset (s :: ss) ↔
      Piece.ofSegment? offset s = some p ∨
        p ∈ placePieces terminator (offset + Text.width s + terminator.utf8Size) ss := by
  rw [placePieces]
  cases Piece.ofSegment? offset s with
  | none => exact ⟨.inr, fun h => h.resolve_left nofun⟩
  | some q => rw [List.mem_cons, Option.some_inj, eq_comm]

/-- A piece is a part of the text that the segments make up with the terminators
    between them. -/
theorem exists_of_mem_placePieces {terminator : Char} {offset : Nat} {s : List Char}
    {ss : List (List Char)} {p : Piece} (h : p ∈ placePieces terminator offset (s :: ss)) :
    ∃ front behind, s ++ ss.flatMap (terminator :: ·) = front ++ p.text.toList ++ behind ∧
      offset + Text.width front = p.offset := by
  induction ss generalizing s offset with
  | nil =>
    rcases mem_placePieces_cons.1 h with own | later
    · obtain ⟨front, behind, segment, start, -⟩ := Piece.exists_of_ofSegment? own
      exact ⟨front, behind, (List.append_nil s).trans segment, start⟩
    · exact absurd later List.not_mem_nil
  | cons s' ss ih =>
    rcases mem_placePieces_cons.1 h with own | later
    · obtain ⟨front, behind, rfl, start, -⟩ := Piece.exists_of_ofSegment? own
      exact ⟨front, behind ++ (s' :: ss).flatMap (terminator :: ·), List.append_assoc _ _ _, start⟩
    · -- a later piece stands behind the whole first segment and a terminator
      obtain ⟨front, behind, others, start⟩ := ih later
      refine ⟨s ++ terminator :: front, behind, ?_, ?_⟩
      · rw [List.flatMap_cons, List.cons_append, others]
        simp only [List.append_assoc, List.cons_append]
      · rw [← start, Text.width_append, Text.width_cons]
        simp only [Nat.add_assoc]

namespace Splitter

/-- The splitter cuts a text into parts of it. -/
def CutsParts (split : Splitter) : Prop :=
  ∀ text, ∀ p ∈ split text, p.IsPartOf text

theorem cutsParts_terminated (terminator : Char) : (terminated terminator).CutsParts := by
  intro text p hp
  obtain ⟨front, behind, whole, start⟩ := exists_of_mem_placePieces hp
  rw [cut_append] at whole
  rw [Nat.zero_add] at start
  exact ⟨front, behind, whole, start⟩

theorem cutsParts_single : single.CutsParts := by
  intro text p hp
  rw [single] at hp
  split at hp
  · exact absurd hp List.not_mem_nil
  · obtain rfl := List.mem_singleton.1 hp
    exact ⟨[], [], (List.append_nil _).symm, rfl⟩

end Splitter

/-! ## Failures of a batch -/

variable {text : String} {p : Piece}

/-- The failure is one of the piece. Where it has a place in the piece, it has a
    place in the text, which is as far behind as the piece and inside of it, and
    the same stands at both. -/
structure BatchFailure.PointsInto (text : String) (p : Piece) (e : BatchFailure) : Prop where
  offset : e.offset = p.offset
  shifted : ∀ s, e.cause.span? = some s →
    e.span? = some ⟨s.start + p.offset, s.stop + p.offset⟩
  inside : ∀ s, e.cause.span? = some s →
    p.offset ≤ s.start + p.offset ∧ s.start + p.offset ≤ s.stop + p.offset ∧
      s.stop + p.offset ≤ p.offset + Text.width p.text.toList
  same : ∀ s, e.cause.span? = some s → ∃ shown, Text.slice? p.text s = some shown ∧
    Text.slice? text ⟨s.start + p.offset, s.stop + p.offset⟩ = some shown

theorem BatchFailure.pointsInto {e : BatchFailure} (part : p.IsPartOf text)
    (offset : e.offset = p.offset) (placed : ∀ s, e.cause.span? = some s → s.IsPlaced p.text) :
    e.PointsInto text p := by
  refine ⟨offset, fun s hs => ?_, fun s hs => ?_, fun s hs => ?_⟩
  · rw [span?, hs, offset]
    rfl
  · obtain ⟨ordered, -, bounded, -⟩ := placed s hs
    exact ⟨Nat.le_add_left _ _, Nat.add_le_add_right ordered _,
      Nat.add_comm _ _ ▸ Nat.add_le_add_left bounded _⟩
  · obtain ⟨shown, hshown⟩ := Option.isSome_iff_exists.1 (Text.slice?_isSome_iff.2 (placed s hs))
    obtain ⟨front, behind, whole, start⟩ := part
    refine ⟨shown, hshown, ?_⟩
    rw [← hshown, ← start]
    exact Text.slice?_shift whole (placed s hs)

/-- Statements that are read each by itself fail on the first one that cannot be
    read. -/
theorem Query.parsePieces_eq_error {index : Nat} {pieces : List Piece} {e : BatchFailure}
    (h : parsePieces index pieces = .error e) : ∃ i p, pieces[i]? = some p ∧
      e.index = index + i ∧ e.offset = p.offset ∧ parse p.text = .error e.cause := by
  induction pieces generalizing index with
  | nil => cases h
  | cons p ps ih =>
    obtain first | ⟨q, -, later⟩ := except_bind_eq_error.1 h
    · obtain ⟨cause, failed, rfl⟩ := mapError_eq_error.1 first
      exact ⟨0, p, rfl, rfl, rfl, failed⟩
    · obtain later | ⟨_, _, h⟩ := except_bind_eq_error.1 later
      · obtain ⟨i, p', hp', hindex, offset, failed⟩ := ih later
        refine ⟨i + 1, p', hp', ?_, offset, failed⟩
        rw [hindex, Nat.add_assoc, Nat.add_comm 1]
      · cases h

/-- The position in a complaint about the grammar is that of its place. -/
theorem Query.ofBoundary?_of_parse {text : String} {position : Position} {g : GrammarError}
    (h : parse text = .error (.grammar position g)) : Text.IsPlace text g.span.start ∧
      Position.ofBoundary? text g.span.start = some position := by
  obtain ⟨s, hs, placed⟩ := isPlaced_of_parse h
  obtain rfl : g.span = s := Option.some.inj hs
  have own : Position.ofOffset text g.span.start = position := by
    obtain ⟨r, -, parsed⟩ := Statement.exists_ofTokens? text
    obtain herr | ⟨st, -, hrule⟩ := except_bind_eq_error.1 h
    · obtain ⟨g', -, hg⟩ := mapError_eq_error.1 (parsed.symm.trans herr)
      cases hg
      rfl
    · obtain ⟨_, -, rule⟩ := mapError_eq_error.1 hrule
      cases rule
  refine ⟨placed.2.1, ?_⟩
  rw [Position.ofBoundary?, if_pos placed.2.1.2, own]

/-- The position `position` counts from the statement that fails. In the batch, the
    place of the failure has that position, shifted to where the statement begins. -/
def BatchFailure.IsPositioned (text : String) (e : BatchFailure) (position : Position) : Prop :=
  ∃ begins s, Position.ofBoundary? text e.offset = some begins ∧ e.span? = some s ∧
    Position.ofBoundary? text s.start = some (position.shift begins)

/-- A statement that does not follow the grammar is complained about with a position
    in the statement. -/
theorem BatchFailure.isPositioned {e : BatchFailure} {position : Position} {g : GrammarError}
    (part : p.IsPartOf text) (offset : e.offset = p.offset)
    (failed : Query.parse p.text = .error e.cause) (grammar : e.cause = .grammar position g) :
    e.IsPositioned text position := by
  obtain ⟨place, own⟩ := Query.ofBoundary?_of_parse (grammar ▸ failed)
  obtain ⟨front, behind, whole, start⟩ := part
  obtain ⟨q, hq, shifted⟩ := Position.ofBoundary?_shift whole place
  obtain rfl : position = q := Option.some.inj (own.symm.trans hq)
  refine ⟨Position.start.after front, g.span.shift e.offset, ?_, ?_, ?_⟩
  · rw [offset, ← start]
    exact Position.ofBoundary?_of_append (whole.trans (List.append_assoc _ _ _))
  · rw [span?, grammar]
    rfl
  · rw [offset, ← start, Span.shift, Nat.add_comm]
    exact shifted

/-- A grammar error in a batch that is parsed has its position in the piece, and its place in
    the batch. -/
theorem Query.isPositioned_of_parseAll {e : BatchFailure} {position : Position} {g : GrammarError}
    (h : parseAll text = .error e) (grammar : e.cause = .grammar position g) :
    e.IsPositioned text position := by
  obtain ⟨i, p, hp, -, offset, failed⟩ := parsePieces_eq_error h
  have part := Splitter.cutsParts_terminated ';' text p (List.mem_of_getElem? hp)
  exact e.isPositioned part offset failed grammar

/-- A grammar error in a batch that is mapped has its position in the piece, and its place in
    the batch. -/
theorem Mapper.isPositioned_of_map {m : Mapper} {e : BatchFailure} {position : Position}
    {g : GrammarError} (parts : m.split.CutsParts) (h : m.map text = .error e)
    (grammar : e.cause = .grammar position g) : e.IsPositioned text position := by
  obtain ⟨p, hp, offset, fails⟩ := (blames_of_map h).fails
  have part := parts text p (List.mem_of_getElem? hp)
  rw [grammar] at fails
  -- names are looked at only where the grammar is followed
  obtain unread | _ := fails
  exact BatchFailure.isPositioned part offset (grammar ▸ unread) grammar

/-- A conflict between statements has no place, so a failure with a place comes
    from its own text. -/
theorem Mapper.Fails.isPlaced {m : Mapper} {before : List Query} {e : Failure}
    (h : m.Fails before text e) {s : Span} (hs : e.span? = some s) : s.IsPlaced text := by
  cases h with
  | unread unread =>
    obtain ⟨s', hs', placed⟩ := Query.isPlaced_of_parse unread
    rwa [Option.some_inj.1 (hs.symm.trans hs')]
  | sourceRejected _ _ | sourceTaken _ _ _ | targetRejected _ _ _ _ _ | targetTaken _ _ _ _ _ _ =>
    cases hs

/-- Whatever is complained about can be shown in the text. Tokens of the text in
    any order have their places there, and so has what is read of them; the
    position of a grammar error cuts no character, and a broken rule has a place.
    A failure in a batch is placed in the text of the batch where it is placed in
    its piece. -/
theorem places_usable (text : String) :
    (∀ tokens, (∀ t ∈ tokens, t ∈ Token.tokenize text) →
      (∀ e, Statement.ofTokens? (Text.width text.toList) tokens = some (.error e) →
        e.span.IsPlaced text) ∧
      ∀ st, Statement.ofTokens? (Text.width text.toList) tokens = some (.ok st) →
        ∀ s ∈ Spanned.spans st, s.IsPlaced text) ∧
    (∀ t ∈ Token.tokenize text, Text.slice? text t.span = some t.text) ∧
    (∃ r, Statement.ofTokens? (Text.width text.toList) (Token.tokenize text) = some r ∧
      Statement.parse text = r.mapError (Failure.ofGrammar text)) ∧
    (∀ position e, Statement.parse text = .error (.grammar position e) →
      Position.ofBoundary? text e.span.start = some position) ∧
    (∀ e, Query.parse text = .error (.rule e) → ∃ s, e.span? = some s ∧ s.IsPlaced text) ∧
    (∀ e, Query.parseAll text = .error e →
      ∃ p, (Splitter.standard text)[e.index]? = some p ∧ e.PointsInto text p) ∧
    ∀ m : Mapper, (m.split = Splitter.single ∨ ∃ c, m.split = Splitter.terminated c) →
      ∀ e, m.map text = .error e → ∃ p, (m.split text)[e.index]? = some p ∧ e.PointsInto text p := by
  have ofText {tokens : List Token} (h : ∀ t ∈ tokens, t ∈ Token.tokenize text) :
      ∀ t ∈ tokens, t.span.IsPlaced text := fun t ht => Token.isPlaced_of_mem_tokenize (h t ht)
  refine ⟨fun tokens h => ⟨fun e => Statement.isPlaced_of_ofTokens?_error (ofText h),
    fun st => Statement.placed_of_ofTokens? (ofText h)⟩,
    fun t => Token.slice?_of_mem_tokenize, Statement.exists_ofTokens? text, ?_, ?_, ?_, ?_⟩
  · intro position e h
    obtain ⟨r, read, parsed⟩ := Statement.exists_ofTokens? text
    obtain ⟨g, rfl, hg⟩ := mapError_eq_error.1 (parsed.symm.trans h)
    cases hg
    have placed := Statement.isPlaced_of_ofTokens?_error (ofText fun _ => id) read
    rw [Position.ofBoundary?, if_pos placed.2.1.2]
  · intro e h
    exact Query.isPlaced_of_parse h
  · intro e h
    obtain ⟨i, p, hp, hindex, offset, failed⟩ := Query.parsePieces_eq_error h
    rw [Nat.zero_add] at hindex
    subst hindex
    refine ⟨p, hp, BatchFailure.pointsInto ?_ offset fun s hs => ?_⟩
    · exact Splitter.cutsParts_terminated ';' text p (List.mem_of_getElem? hp)
    · obtain ⟨s', hs', placed⟩ := Query.isPlaced_of_parse failed
      rwa [Option.some_inj.1 (hs.symm.trans hs')]
  · intro m split e h
    obtain ⟨p, hp, offset, fails⟩ := (Mapper.blames_of_map h).fails
    -- only here it matters how the batch is split
    have parts : m.split.CutsParts := by
      rcases split with single | ⟨c, terminated⟩
      · exact single ▸ Splitter.cutsParts_single
      · exact terminated ▸ Splitter.cutsParts_terminated c
    exact ⟨p, hp, BatchFailure.pointsInto (parts text p (List.mem_of_getElem? hp)) offset
      fun s => fails.isPlaced⟩

example :
    let text := "SELECT é FROM s;\n SELECT é. FROM s"
    let place := match Query.parseAll text with
      | .error e => e.span?
      | .ok _ => none
    place.bind (Text.slice? text) = some "é." := by decide +kernel

end ConnectorQuery
