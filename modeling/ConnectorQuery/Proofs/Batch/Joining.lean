import ConnectorQuery.Mapping
import ConnectorQuery.Proofs.Outcome

/-!
# Joining batches

Two batches may be written one behind the other, with a semicolon between them, if
no quote is open at the end of the first one. The segments of the whole are those
of the two (`cut_append_terminator`), so are its pieces, and those of the second
batch begin as far behind as the first one is wide (`placePieces_append`,
`placePieces_shift`).

Statements that are read each by themselves come to the same then, and of a failure
in the second batch only the place is another: it counts the statements and the
bytes of the first batch too (`Query.parseAll_append`).
-/

namespace ConnectorQuery

/-! ## Segments and pieces -/

/-- Behind a terminator outside of quotes a text is cut as if it stood alone. -/
theorem cut_append_terminator {terminator : Char} (plain : Text.isQuote terminator = false)
    {quote : Option Char} {xs : List Char} (closed : xs.foldl nextQuote quote = none)
    (ys : List Char) :
    cut terminator quote (xs ++ terminator :: ys) =
      ((cut terminator quote xs).1,
        (cut terminator quote xs).2 ++
          (cut terminator none ys).1 :: (cut terminator none ys).2) := by
  induction xs generalizing quote with
  | nil =>
    obtain rfl : quote = none := closed
    have ends : isTerminator terminator none terminator = true := by simp [isTerminator, plain]
    exact if_pos ends
  | cons x xs ih =>
    rw [List.foldl_cons] at closed
    rw [List.cons_append, cut, cut]
    split
    · -- the terminator leaves no quote open, as it is none itself
      rename_i ends
      simp only [isTerminator, Bool.and_eq_true, Option.isNone_iff_eq_none, beq_iff_eq] at ends
      obtain ⟨⟨rfl, rfl⟩, -⟩ := ends
      have stays : nextQuote none x = none := by simp [nextQuote, plain]
      rw [stays] at closed
      rw [ih closed]
      rfl
    · rw [ih closed]

/-- Segments with a terminator behind each. -/
def terminatedText (terminator : Char) (segments : List (List Char)) : List Char :=
  segments.flatMap (· ++ [terminator])

/-- A text that ends with a terminator is made of its segments with a terminator
    behind each. -/
theorem terminatedText_cut (terminator : Char) (quote : Option Char) (cs : List Char) :
    terminatedText terminator ((cut terminator quote cs).1 :: (cut terminator quote cs).2) =
      cs ++ [terminator] := by
  have turn (s : List Char) (ss : List (List Char)) :
      terminatedText terminator (s :: ss) = s ++ ss.flatMap (terminator :: ·) ++ [terminator] := by
    induction ss generalizing s with
    | nil => simp [terminatedText]
    | cons s' ss ih =>
      rw [terminatedText, List.flatMap_cons, ← terminatedText, ih]
      simp
  rw [turn, cut_append]

theorem placePieces_append (terminator : Char) (offset : Nat) (ss ss' : List (List Char)) :
    placePieces terminator offset (ss ++ ss') = placePieces terminator offset ss ++
      placePieces terminator (offset + Text.width (terminatedText terminator ss)) ss' := by
  induction ss generalizing offset with
  | nil => rfl
  | cons s ss ih =>
    have stop : offset + Text.width s + terminator.utf8Size +
        Text.width (terminatedText terminator ss) =
          offset + Text.width (terminatedText terminator (s :: ss)) := by
      simp [terminatedText, Nat.add_assoc]
    rw [List.cons_append, placePieces, placePieces, ih, stop]
    cases Piece.ofSegment? offset s <;> rfl

/-- The piece, `n` bytes further behind. -/
def Piece.shift (p : Piece) (n : Nat) : Piece :=
  ⟨p.offset + n, p.text⟩

theorem Piece.ofSegment?_shift (offset n : Nat) (segment : List Char) :
    ofSegment? (offset + n) segment = (ofSegment? offset segment).map (·.shift n) := by
  rw [ofSegment?, ofSegment?]
  split
  · rfl
  · rw [Nat.add_right_comm]
    rfl

/-- Segments that begin further behind have their pieces further behind. -/
theorem placePieces_shift (terminator : Char) (offset n : Nat) (ss : List (List Char)) :
    placePieces terminator (offset + n) ss =
      (placePieces terminator offset ss).map (·.shift n) := by
  induction ss generalizing offset with
  | nil => rfl
  | cons s ss ih =>
    have behind : offset + n + Text.width s + terminator.utf8Size =
        offset + Text.width s + terminator.utf8Size + n := by omega
    rw [placePieces, placePieces, Piece.ofSegment?_shift, behind, ih]
    cases Piece.ofSegment? offset s <;> rfl

/-- The pieces of two texts with a terminator between them. -/
theorem Splitter.terminated_append {terminator : Char}
    (plain : Text.isQuote terminator = false) {a b : String}
    (closed : a.toList.foldl nextQuote none = none) :
    terminated terminator (a ++ String.singleton terminator ++ b) = terminated terminator a ++
      (terminated terminator b).map (·.shift (Text.width a.toList + terminator.utf8Size)) := by
  have whole : (a ++ String.singleton terminator ++ b).toList =
      a.toList ++ terminator :: b.toList := by simp
  simp only [terminated]
  rw [whole, cut_append_terminator plain closed, ← List.cons_append, placePieces_append,
    terminatedText_cut, placePieces_shift]
  simp

/-! ## Statements one behind the other -/

/-- The failure in a batch that has further statements and bytes in front. -/
def BatchFailure.shift (e : BatchFailure) (statements bytes : Nat) : BatchFailure :=
  ⟨e.index + statements, e.offset + bytes, e.cause⟩

namespace Query

theorem parsePieces_append (index : Nat) (ps ps' : List Piece) :
    parsePieces index (ps ++ ps') = do
      let qs ← parsePieces index ps
      let qs' ← parsePieces (index + ps.length) ps'
      return qs ++ qs' := by
  induction ps generalizing index with
  | nil =>
    rw [List.nil_append, parsePieces, List.length_nil, Nat.add_zero]
    cases parsePieces index ps' <;> rfl
  | cons p ps ih =>
    -- the first pieces end at the same index, whichever of them is read first
    rw [List.cons_append, parsePieces, parsePieces, ih, List.length_cons, Nat.add_right_comm,
      ← Nat.add_assoc]
    cases (parse p.text).mapError fun e => (⟨index, p.offset, e⟩ : BatchFailure) with
    | error e => rfl
    | ok q =>
      cases parsePieces (index + 1) ps with
      | error e => rfl
      | ok qs => cases parsePieces (index + ps.length + 1) ps' <;> rfl

/-- Of pieces further behind only the failures differ, and by their places only. -/
theorem parsePieces_shift (index k n : Nat) (ps : List Piece) :
    parsePieces (index + k) (ps.map (·.shift n)) =
      (parsePieces index ps).mapError (·.shift k n) := by
  induction ps generalizing index with
  | nil => rfl
  | cons p ps ih =>
    rw [List.map_cons, parsePieces, parsePieces, Nat.add_right_comm, ih]
    cases hp : parse p.text with
    | error e => rw [Piece.shift, hp]; rfl
    | ok q =>
      rw [Piece.shift, hp]
      cases parsePieces (index + 1) ps <;> rfl

theorem length_of_parsePieces {index : Nat} {ps : List Piece} {qs : List Query}
    (h : parsePieces index ps = .ok qs) : qs.length = ps.length := by
  induction ps generalizing index qs with
  | nil =>
    cases h
    rfl
  | cons p ps ih =>
    obtain ⟨q, -, h⟩ := except_bind_eq_ok.1 h
    obtain ⟨qs', others, h⟩ := except_bind_eq_ok.1 h
    cases h
    rw [List.length_cons, List.length_cons, ih others]

/-- A text behind a text with a semicolon between them: first all statements of the
    one are read, then those of the other. -/
theorem parseAll_append {a b : String} (closed : a.toList.foldl nextQuote none = none) :
    parseAll (a ++ ";" ++ b) = do
      let qs ← parseAll a
      let qs' ← (parseAll b).mapError (·.shift qs.length (Text.width a.toList + 1))
      return qs ++ qs' := by
  have pieces : Splitter.standard (a ++ ";" ++ b) = Splitter.standard a ++
      (Splitter.standard b).map (·.shift (Text.width a.toList + 1)) :=
    Splitter.terminated_append rfl closed
  simp only [parseAll]
  rw [pieces, parsePieces_append, parsePieces_shift]
  cases h : parsePieces 0 (Splitter.standard a) with
  | error e => rfl
  | ok qs =>
    rw [← length_of_parsePieces h]
    rfl

/-- The statements of two texts with a semicolon between them, where the first text
    leaves no quote open. A failure of the first text is one of the whole. Behind a
    text that can be read, statements are read as if they stood alone, and a failure
    has the statements and the bytes in front of it added to its place. -/
theorem parseAll_joined {a b : String} (closed : a.toList.foldl nextQuote none = none) :
    (∀ e, parseAll a = .error e → parseAll (a ++ ";" ++ b) = .error e) ∧
    (∀ qa qb, parseAll a = .ok qa → parseAll b = .ok qb →
      parseAll (a ++ ";" ++ b) = .ok (qa ++ qb)) ∧
    ∀ qa e, parseAll a = .ok qa → parseAll b = .error e → parseAll (a ++ ";" ++ b) =
      .error ⟨e.index + qa.length, e.offset + (Text.width a.toList + 1), e.cause⟩ := by
  rw [parseAll_append closed]
  refine ⟨fun e ha => ?_, fun qa qb ha hb => ?_, fun qa e ha hb => ?_⟩
  · rw [ha]
    rfl
  · rw [ha, hb]
    rfl
  · rw [ha, hb]
    rfl

/-- A blank statement, an empty one and a wide character in front of one that
    fails. -/
theorem parseAll_joined_blank :
    let a := " ; SELECT é FROM s;"
    let b := " SELECT b FROM 'x;y"
    a.toList.foldl nextQuote none = none ∧ ∃ qa e, Query.parseAll a = .ok qa ∧
      Query.parseAll b = .error e ∧ Query.parseAll (a ++ ";" ++ b) =
        .error ⟨e.index + qa.length, e.offset + (Text.width a.toList + 1), e.cause⟩ := by
  intro a b
  have closed : a.toList.foldl nextQuote none = none := by decide +kernel
  obtain ⟨qa, ha⟩ := exists_of_isOk (x := parseAll a) (by decide +kernel)
  have fails : (parseAll b).isOk = false := by decide +kernel
  cases hb : parseAll b with
  | ok qb => exact nomatch (congrArg Except.isOk hb).symm.trans fails
  | error e => exact ⟨closed, qa, e, ha, rfl, (parseAll_joined closed).2.2 qa e ha hb⟩

end Query

end ConnectorQuery
