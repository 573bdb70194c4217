import ConnectorQuery.Proofs.Batch.Places
import ConnectorQuery.Proofs.Batch.Quoting
import ConnectorQuery.Proofs.Mapping.Trimming

/-!
# The pieces of a text

A text is cut at the terminators outside of quotes, and the segments between them are
left without the blanks around them. Nothing else is lost on the way: the characters that
stand in no piece are blanks and the terminators that the text was cut at.

The segments of a text are *segmented*: scanned by itself, none of them meets a
terminator outside of quotes, and behind each but the last one a terminator is met. That
says all about them (`segmented_cut`, `Segmented.cut_eq`): segments like these are what a
text falls into that is made of them, with terminators between. Blanks are no quotes, so
the pieces of a text are segmented as its segments are (`Segmented.texts`), and they are
found again in a text that is made of them (`Splitter.texts_terminated`).

* `placePieces_ordered`: pieces stand one behind the other;
* `Segmented.covers_or_dropped`: what stands in no piece;
* `Splitter.terminated_of_uncut`: a piece is not split any further;
* `Splitter.terminated_lossless`: nothing of a text is lost when it is split.
-/

namespace ConnectorQuery

/-! ## What meets no terminator -/

/-- Scanned with the quote `quote` open in front of them, the characters meet no
    terminator outside of quotes. -/
def Uncut (terminator : Char) (quote : Option Char) (cs : List Char) : Prop :=
  ∀ front x behind, cs = front ++ x :: behind →
    isTerminator terminator (front.foldl nextQuote quote) x = false

section Uncut

variable {terminator x : Char} {quote : Option Char} {xs ys : List Char}

theorem uncut_nil : Uncut terminator quote [] :=
  fun _ _ _ h => absurd h.symm (List.append_ne_nil_of_right_ne_nil _ (List.cons_ne_nil _ _))

/-- A text meets no terminator if its first character is none, and the rest meets none in
    the state behind it. -/
theorem uncut_cons_iff : Uncut terminator quote (x :: xs) ↔
    isTerminator terminator quote x = false ∧ Uncut terminator (nextQuote quote x) xs := by
  constructor
  · intro h
    exact ⟨h [] x xs rfl, fun front y behind whole => h (x :: front) y behind (whole ▸ rfl)⟩
  · rintro ⟨first, others⟩ front y behind whole
    cases front with
    | nil =>
      cases whole
      exact first
    | cons z front =>
      cases whole
      exact others front y behind rfl

/-- Two texts in a row meet none if the first does not, and the second does not in the
    state behind the first. -/
theorem uncut_append_iff : Uncut terminator quote (xs ++ ys) ↔
    Uncut terminator quote xs ∧ Uncut terminator (xs.foldl nextQuote quote) ys := by
  induction xs generalizing quote with
  | nil => exact ⟨fun h => ⟨uncut_nil, h⟩, And.right⟩
  | cons x xs ih =>
    rw [List.cons_append, uncut_cons_iff, uncut_cons_iff, ih, and_assoc]
    rfl

/-- What meets no terminator is not cut. -/
theorem cut_eq_of_uncut (h : Uncut terminator quote xs) : cut terminator quote xs = (xs, []) := by
  induction xs generalizing quote with
  | nil => rfl
  | cons x xs ih =>
    obtain ⟨passed, others⟩ := uncut_cons_iff.1 h
    rw [cut, passed, ih others]
    rfl

end Uncut

/-! ## Segments -/

/-- A terminator stands outside quotation marks, and leaves it so. -/
theorem nextQuote_of_isTerminator {terminator c : Char} {quote : Option Char}
    (h : isTerminator terminator quote c = true) : nextQuote quote c = none := by
  simp only [isTerminator, Bool.and_eq_true, Option.isNone_iff_eq_none, Bool.not_eq_true'] at h
  obtain ⟨⟨rfl, -⟩, plain⟩ := h
  exact nextQuote_none plain

/-- No segment meets a terminator outside of quotes, if the first one is scanned with the
    quote open and each other one from none, and behind each but the last one a terminator
    is met. -/
inductive Segmented (terminator : Char) : Option Char → List (List Char) → Prop
  | nil {quote : Option Char} : Segmented terminator quote []
  | cons {quote : Option Char} {s : List Char} {ss : List (List Char)} :
    Uncut terminator quote s →
    (ss ≠ [] → isTerminator terminator (s.foldl nextQuote quote) terminator = true) →
    Segmented terminator none ss → Segmented terminator quote (s :: ss)

variable {terminator : Char}

/-- Cutting makes segments. The induction is on the characters, for any state of the
    quotation marks. -/
theorem segmented_cut (quote : Option Char) (cs : List Char) : Segmented terminator quote
    ((cut terminator quote cs).1 :: (cut terminator quote cs).2) := by
  -- for any state of the quotation marks, as a cut may begin within them
  induction cs generalizing quote with
  | nil => exact .cons uncut_nil (absurd rfl) .nil
  | cons c cs ih =>
    rw [cut]
    split
    · -- the segment ends here, with nothing in it
      rename_i ends
      have same : c = terminator := by
        simp only [isTerminator, Bool.and_eq_true, beq_iff_eq] at ends
        exact ends.1.2
      exact .cons uncut_nil (fun _ => same ▸ ends) (ih none)
    · rename_i passed
      cases ih (nextQuote quote c) with
      | cons uncut ends others =>
        exact .cons (uncut_cons_iff.2 ⟨Bool.eq_false_iff.2 passed, uncut⟩) ends others

/-- Segments are found again in the text that they make up. -/
theorem Segmented.cut_eq {quote : Option Char} {s : List Char} {ss : List (List Char)}
    (h : Segmented terminator quote (s :: ss)) :
    cut terminator quote (s ++ ss.flatMap (terminator :: ·)) = (s, ss) := by
  induction ss generalizing s quote with
  | nil =>
    cases h with
    | cons uncut _ _ => rw [List.flatMap_nil, List.append_nil, cut_eq_of_uncut uncut]
  | cons s' ss ih =>
    cases h with
    | cons uncut ends others =>
      have cutBehind := cut_append_of_eq (cut_eq_of_uncut uncut)
        ((s' :: ss).flatMap (terminator :: ·))
      -- the first segment is passed as a whole, and the terminator behind it ends it
      rw [cutBehind, List.flatMap_cons, List.cons_append, cut, if_pos (ends (List.cons_ne_nil _ _)),
        ih others, List.append_nil]

/-- No segment meets a terminator, when the scan begins anew with it. -/
theorem Segmented.uncut_of_mem {ss : List (List Char)} (h : Segmented terminator none ss) :
    ∀ s ∈ ss, Uncut terminator none s := by
  induction ss with
  | nil => exact List.forall_mem_nil _
  | cons s ss ih =>
    rcases h with _ | ⟨uncut, -, others⟩
    exact List.forall_mem_cons.2 ⟨uncut, ih others⟩

/-- A quote cuts nothing off. -/
theorem Segmented.length_le_one {ss : List (List Char)} (h : Segmented terminator none ss)
    (quote : Text.isQuote terminator = true) : ss.length ≤ 1 := by
  cases ss with
  | nil => exact Nat.zero_le 1
  | cons s ss =>
    rcases h with _ | ⟨-, ends, -⟩
    cases ss with
    | nil => exact Nat.le_refl 1
    | cons s' ss =>
      have ends := ends (List.cons_ne_nil _ _)
      simp [isTerminator, quote] at ends

/-! ## Blanks -/

namespace Text

/-- Some characters, with no blank at either end. -/
structure IsStripped (cs : List Char) : Prop where
  ne_nil : cs ≠ []
  head : ∀ c ∈ cs.head?, isBlank c = false
  last : ∀ c ∈ cs.getLast?, isBlank c = false

variable {cs : List Char}

/-- Trimming leaves no blanks at the ends. -/
theorem isStripped_trim (h : trimEnd (trimStart cs) ≠ []) :
    IsStripped (trimEnd (trimStart cs)) where
  ne_nil := h
  head := by
    -- what is cut off at the end leaves the first character
    intro c hc
    obtain ⟨blanks, kept, -⟩ := exists_trimEnd (trimStart cs)
    have front : (trimStart cs).head? = some c := by
      rw [kept, List.head?_append, Option.mem_def.1 hc]
      rfl
    have notBlank := List.head?_dropWhile_not isBlank cs
    rwa [← trimStart, front] at notBlank
  last := by
    intro c hc
    rw [trimEnd, List.getLast?_reverse] at hc
    have notBlank := List.head?_dropWhile_not isBlank (trimStart cs).reverse
    rwa [Option.mem_def.1 hc] at notBlank

theorem dropWhile_isBlank_eq_self (h : ∀ c ∈ cs.head?, isBlank c = false) :
    cs.dropWhile isBlank = cs := by
  cases cs with
  | nil => rfl
  | cons c cs => exact List.dropWhile_cons_of_neg (Bool.eq_false_iff.1 (h c rfl))

/-- What has no blanks at its ends is left as it is. -/
theorem IsStripped.trim_eq (h : IsStripped cs) : trimEnd (trimStart cs) = cs := by
  have last : ∀ c ∈ cs.reverse.head?, isBlank c = false := by
    rw [List.head?_reverse]
    exact h.last
  rw [trimStart, dropWhile_isBlank_eq_self h.head, trimEnd, dropWhile_isBlank_eq_self last,
    List.reverse_reverse]

theorem IsStripped.width_pos (h : IsStripped cs) : 0 < width cs := by
  cases cs with
  | nil => exact absurd rfl h.ne_nil
  | cons c cs => exact Nat.add_pos_left c.utf8Size_pos _

theorem IsStripped.isAllBlank_eq_false {text : String} (h : IsStripped text.toList) :
    isAllBlank text = false := by
  rw [← isEmpty_trimEnd_trimStart, h.trim_eq, List.isEmpty_eq_false_iff]
  exact h.ne_nil

/-- A blank is no quotation mark. -/
theorem isQuote_of_isBlank {c : Char} (h : isBlank c = true) : isQuote c = false := by
  refine Bool.eq_false_iff.2 fun quote => ?_
  rcases eq_of_isQuote quote with rfl | rfl <;> exact absurd h (by decide)

end Text

/-- Only a quote is open. -/
def IsOpenQuote (quote : Option Char) : Prop :=
  ∀ q ∈ quote, Text.isQuote q = true

theorem isOpenQuote_none : IsOpenQuote none :=
  fun _ h => nomatch h

/-- An open quotation mark is always one of the two that there are. -/
theorem IsOpenQuote.foldl_nextQuote {quote : Option Char} (h : IsOpenQuote quote)
    (cs : List Char) : IsOpenQuote (cs.foldl nextQuote quote) := by
  induction cs generalizing quote with
  | nil => exact h
  | cons c cs ih =>
    refine ih fun q hq => ?_
    cases quote with
    | none =>
      rw [nextQuote] at hq
      split at hq
      · rename_i opens
        exact Option.some.inj hq ▸ opens
      · cases hq
    | some q' =>
      rw [nextQuote] at hq
      split at hq
      · cases hq
      · exact h q hq

/-- Blanks neither open nor close a quote. -/
theorem IsOpenQuote.foldl_blanks {quote : Option Char} (h : IsOpenQuote quote)
    {cs : List Char} (blanks : ∀ c ∈ cs, Text.isBlank c = true) :
    cs.foldl nextQuote quote = quote := by
  induction cs with
  | nil => rfl
  | cons c cs ih =>
    obtain ⟨blank, blanks⟩ := List.forall_mem_cons.1 blanks
    have stays : nextQuote quote c = quote := by
      cases quote with
      | none => exact nextQuote_none (Text.isQuote_of_isBlank blank)
      | some q =>
        refine if_neg fun same => ?_
        exact Bool.false_ne_true
          ((Text.isQuote_of_isBlank blank).symm.trans (same ▸ h q rfl))
    rw [List.foldl_cons, stays, ih blanks]

/-! ## The pieces of segments -/

namespace Piece

variable {offset : Nat} {s : List Char} {p : Piece}

/-- A piece has no blanks at its ends. -/
theorem isStripped_of_ofSegment? (h : ofSegment? offset s = some p) :
    Text.IsStripped p.text.toList := by
  rw [ofSegment?] at h
  split at h
  · cases h
  · rename_i kept
    cases h
    rw [String.toList_ofList]
    exact Text.isStripped_trim (mt List.isEmpty_iff.2 kept)

/-- A segment without a piece is blank. -/
theorem isBlank_of_ofSegment?_eq_none (h : ofSegment? offset s = none) :
    ∀ c ∈ s, Text.isBlank c = true := by
  rw [ofSegment?] at h
  split at h
  · rename_i nothing
    rw [← @String.toList_ofList s, Text.isEmpty_trimEnd_trimStart] at nothing
    rw [← @String.toList_ofList s]
    exact List.all_eq_true.1 nothing
  · cases h

/-- A segment without blanks at its ends is a piece as it is. -/
theorem ofSegment?_of_isStripped (offset : Nat) (h : Text.IsStripped s) :
    ofSegment? offset s = some ⟨offset, String.ofList s⟩ := by
  have front : s.takeWhile Text.isBlank = [] := by
    rw [List.takeWhile_eq_nil_iff]
    intro nonempty
    rw [Bool.not_eq_true]
    exact h.head _ (List.head?_eq_getElem? ▸ List.getElem?_eq_getElem nonempty)
  rw [ofSegment?, h.trim_eq, front, if_neg (mt List.isEmpty_iff.1 h.ne_nil)]
  rfl

/-- A piece leaves the quote open that its segment leaves open. -/
theorem foldl_nextQuote_of_ofSegment? (h : ofSegment? offset s = some p) :
    p.text.toList.foldl nextQuote none = s.foldl nextQuote none := by
  obtain ⟨front, behind, rfl, -, front_blank, behind_blank⟩ := exists_of_ofSegment? h
  rw [List.foldl_append, List.foldl_append, isOpenQuote_none.foldl_blanks front_blank,
    (isOpenQuote_none.foldl_nextQuote _).foldl_blanks behind_blank]

/-- If a segment meets no terminator then its piece meets none: the blanks do not touch
    the quotation marks. -/
theorem uncut_of_ofSegment? (h : ofSegment? offset s = some p) (uncut : Uncut terminator none s) :
    Uncut terminator none p.text.toList := by
  obtain ⟨front, behind, rfl, -, blanks, -⟩ := exists_of_ofSegment? h
  have kept := (uncut_append_iff.1 (uncut_append_iff.1 uncut).1).2
  rwa [isOpenQuote_none.foldl_blanks blanks] at kept

/-- What begins at the byte `n` stands in the piece. -/
def Covers (p : Piece) (n : Nat) : Prop :=
  p.offset ≤ n ∧ n < p.offset + Text.width p.text.toList

/-- The piece ends before the other one begins. -/
def IsBefore (p q : Piece) : Prop :=
  p.offset < q.offset ∧ p.offset + Text.width p.text.toList ≤ q.offset

end Piece

/-- A character of two texts in a row stands in the first one or in the second one. -/
theorem stands_of_append_eq {front behind ys zs : List Char} {x : Char}
    (h : ys ++ zs = front ++ x :: behind) :
    (∃ rest, ys = front ++ x :: rest) ∨ ∃ rest, front = ys ++ rest ∧ zs = rest ++ x :: behind := by
  rcases List.append_eq_append_iff.1 h with ⟨rest, whole, later⟩ | ⟨rest, whole, own⟩
  · exact .inr ⟨rest, whole, later⟩
  · cases rest with
    | nil => exact .inr ⟨[], by rw [whole, List.append_nil, List.append_nil], own.symm⟩
    | cons y rest =>
      cases own
      exact .inl ⟨rest, whole⟩

/-- A character of a segment stands in its piece, or is one of the blanks around. -/
theorem Piece.covers_or_isBlank {front behind s : List Char} {x : Char} (offset : Nat)
    (h : s = front ++ x :: behind) :
    (∃ p, ofSegment? offset s = some p ∧ p.Covers (offset + Text.width front)) ∨
      Text.isBlank x = true := by
  cases hp : ofSegment? offset s with
  | none =>
    have mem : x ∈ s := h ▸ List.mem_append_right _ List.mem_cons_self
    exact .inr (isBlank_of_ofSegment?_eq_none hp x mem)
  | some p =>
    obtain ⟨before, after, whole, start, before_blank, after_blank⟩ := exists_of_ofSegment? hp
    rw [whole, List.append_assoc] at h
    -- it stands in front of the piece, in it, or behind it
    rcases stands_of_append_eq h with ⟨rest, rfl⟩ | ⟨inner, rfl, h'⟩
    · exact .inr (before_blank x (List.mem_append_right _ List.mem_cons_self))
    rcases stands_of_append_eq h' with ⟨rest, own⟩ | ⟨rest, -, rfl⟩
    · refine .inl ⟨p, rfl, ?_⟩
      have wide := x.utf8Size_pos
      rw [Covers, own, ← start]
      simp only [Text.width_append, Text.width_cons]
      omega
    · exact .inr (after_blank x (List.mem_append_right _ List.mem_cons_self))

/-- Pieces stand in the order of their segments, each behind the one in front of it. -/
theorem placePieces_ordered (offset : Nat) (ss : List (List Char)) :
    (∀ p ∈ placePieces terminator offset ss, offset ≤ p.offset) ∧
      (placePieces terminator offset ss).Pairwise Piece.IsBefore := by
  induction ss generalizing offset with
  | nil => exact ⟨List.forall_mem_nil _, .nil⟩
  | cons s ss ih =>
    obtain ⟨later, ordered⟩ := ih (offset + Text.width s + terminator.utf8Size)
    rw [placePieces]
    cases hp : Piece.ofSegment? offset s with
    | none => exact ⟨fun p hp => by have := later p hp; omega, ordered⟩
    | some p =>
      have wide := (Piece.isStripped_of_ofSegment? hp).width_pos
      obtain ⟨before, after, rfl, start, -, -⟩ := Piece.exists_of_ofSegment? hp
      -- the piece ends within its segment, and the next segment begins behind the terminator
      have whole : Text.width (before ++ p.text.toList ++ after) =
          Text.width before + Text.width p.text.toList + Text.width after := by
        rw [Text.width_append, Text.width_append]
      refine ⟨List.forall_mem_cons.2 ⟨by omega, fun q hq => ?_⟩,
        List.pairwise_cons.2 ⟨fun q hq => ?_, ordered⟩⟩
      · have := later q hq
        omega
      · have := later q hq
        exact ⟨by omega, by omega⟩

namespace Segmented

variable {s : List Char} {ss : List (List Char)}

/-- A character of a text that is cut stands in a piece, or it is a blank or a terminator
    outside of quotes. -/
theorem covers_or_dropped (h : Segmented terminator none (s :: ss)) (offset : Nat)
    {front behind : List Char} {x : Char}
    (whole : s ++ ss.flatMap (terminator :: ·) = front ++ x :: behind) :
    (∃ p ∈ placePieces terminator offset (s :: ss), p.Covers (offset + Text.width front)) ∨
      Text.isBlank x = true ∨ isTerminator terminator (front.foldl nextQuote none) x = true := by
  induction ss generalizing s offset front with
  | nil =>
    rw [List.flatMap_nil, List.append_nil] at whole
    rcases Piece.covers_or_isBlank offset whole with ⟨p, hp, covers⟩ | blank
    · exact .inl ⟨p, mem_placePieces_cons.2 (.inl hp), covers⟩
    · exact .inr (.inl blank)
  | cons s' ss ih =>
    rcases h with _ | ⟨-, ends, others⟩
    rcases stands_of_append_eq whole with ⟨rest, own⟩ | ⟨rest, rfl, later⟩
    · -- the character stands in the first segment
      rcases Piece.covers_or_isBlank offset own with ⟨p, hp, covers⟩ | blank
      · exact .inl ⟨p, mem_placePieces_cons.2 (.inl hp), covers⟩
      · exact .inr (.inl blank)
    · cases rest with
      | nil =>
        -- it is the terminator behind this segment
        cases later
        rw [List.append_nil]
        exact .inr (.inr (ends (List.cons_ne_nil _ _)))
      | cons y rest =>
        -- behind the terminator the text is scanned as if it stood alone
        rw [List.flatMap_cons, List.cons_append] at later
        obtain ⟨rfl, alone⟩ := List.cons.inj later
        have closed : (s ++ terminator :: rest).foldl nextQuote none =
            rest.foldl nextQuote none := by
          rw [List.foldl_append, List.foldl_cons, nextQuote_of_isTerminator (ends nofun)]
        have place : offset + Text.width (s ++ terminator :: rest) =
            offset + Text.width s + terminator.utf8Size + Text.width rest := by
          simp only [Text.width_append, Text.width_cons]
          omega
        rw [closed, place]
        rcases ih others (offset + Text.width s + terminator.utf8Size) alone with
          ⟨p, hp, covers⟩ | dropped
        · exact .inl ⟨p, mem_placePieces_cons.2 (.inr hp), covers⟩
        · exact .inr dropped

/-- The pieces of segments are segmented as these are. -/
theorem texts (h : Segmented terminator none ss) (offset : Nat) :
    Segmented terminator none ((placePieces terminator offset ss).map (·.text.toList)) := by
  induction ss generalizing offset with
  | nil => exact .nil
  | cons s ss ih =>
    rcases h with _ | ⟨uncut, ends, others⟩
    have later := ih others (offset + Text.width s + terminator.utf8Size)
    rw [placePieces]
    cases hp : Piece.ofSegment? offset s with
    | none => exact later
    | some p =>
      refine .cons (Piece.uncut_of_ofSegment? hp uncut) (fun others => ?_) later
      rw [Piece.foldl_nextQuote_of_ofSegment? hp]
      -- a further piece comes from a further segment
      refine ends fun none => others ?_
      rw [none]
      rfl

end Segmented

/-- Wherever segments begin, their pieces have no blanks at the ends. -/
theorem isStripped_of_mem_placePieces {offset : Nat} {ss : List (List Char)} :
    ∀ p ∈ placePieces terminator offset ss, Text.IsStripped p.text.toList := by
  induction ss generalizing offset with
  | nil => exact List.forall_mem_nil _
  | cons s ss ih =>
    intro p hp
    rcases mem_placePieces_cons.1 hp with own | later
    · exact Piece.isStripped_of_ofSegment? own
    · exact ih p later

/-- Segments without blanks at their ends are pieces as they are. -/
theorem texts_placePieces {ss : List (List Char)} (h : ∀ s ∈ ss, Text.IsStripped s)
    (offset : Nat) : (placePieces terminator offset ss).map (·.text.toList) = ss := by
  induction ss generalizing offset with
  | nil => rfl
  | cons s ss ih =>
    obtain ⟨stripped, others⟩ := List.forall_mem_cons.1 h
    rw [placePieces, Piece.ofSegment?_of_isStripped offset stripped]
    exact congrArg₂ List.cons String.toList_ofList (ih others _)

theorem intercalate_cons_eq (x : Char) (s : List Char) (ss : List (List Char)) :
    [x].intercalate (s :: ss) = s ++ ss.flatMap (x :: ·) := by
  induction ss generalizing s with
  | nil => rw [List.intercalate_singleton, List.flatMap_nil, List.append_nil]
  | cons s' ss ih =>
    rw [List.intercalate_cons_cons, ih, List.flatMap_cons, List.append_assoc, List.cons_append]
    rfl

namespace Splitter

/-- The texts of the pieces that segments are found in, one after the other. -/
theorem texts_terminated {text : String} {ss : List (List Char)}
    (h : Segmented terminator none ss) (stripped : ∀ s ∈ ss, Text.IsStripped s)
    (whole : text.toList = [terminator].intercalate ss) :
    (terminated terminator text).map (·.text.toList) = ss := by
  cases ss with
  | nil =>
    rw [terminated, whole]
    rfl
  | cons s ss =>
    rw [intercalate_cons_eq] at whole
    simp only [terminated]
    rw [whole, h.cut_eq, texts_placePieces stripped]

/-- A text without blanks at its ends, and without a terminator, is its own piece. -/
theorem terminated_of_uncut {text : String} (uncut : Uncut terminator none text.toList)
    (stripped : Text.IsStripped text.toList) : terminated terminator text = [⟨0, text⟩] := by
  simp only [terminated]
  rw [cut_eq_of_uncut uncut, placePieces, Piece.ofSegment?_of_isStripped 0 stripped,
    String.ofList_toList]
  rfl

/-- Nothing of a text is lost when it is split, whatever the terminator. The pieces stand
    one behind the other, each where its offset says; none of them is blank, has a blank at
    an end or meets a terminator outside of quotes. Whatever stands in no piece is a blank
    or a terminator outside of quotes. So a piece is not split any further, and the pieces
    with terminators between them are split into the same pieces again. A quote splits
    nothing. -/
theorem terminated_lossless (terminator : Char) (text : String) :
    let pieces := terminated terminator text
    pieces.Pairwise Piece.IsBefore ∧
    (∀ p ∈ pieces,
      Text.slice? text ⟨p.offset, p.offset + Text.width p.text.toList⟩ = some p.text ∧
      Text.isAllBlank p.text = false ∧ Text.IsStripped p.text.toList ∧
      Uncut terminator none p.text.toList) ∧
    (∀ front x behind, text.toList = front ++ x :: behind →
      (∃ p ∈ pieces, p.Covers (Text.width front)) ∨ Text.isBlank x = true ∨
        isTerminator terminator (front.foldl nextQuote none) x = true) ∧
    (∀ p ∈ pieces, terminated terminator p.text = [⟨0, p.text⟩]) ∧
    (terminated terminator ((String.singleton terminator).intercalate
      (pieces.map (·.text)))).map (·.text) = pieces.map (·.text) ∧
    (Text.isQuote terminator = true → pieces.length ≤ 1) := by
  intro pieces
  -- everything is read off the segments, which are those of the pieces once trimmed
  have segmented := @segmented_cut terminator none text.toList
  have texts : Segmented terminator none (pieces.map (·.text.toList)) := segmented.texts 0
  have stripped : ∀ p ∈ pieces, Text.IsStripped p.text.toList := isStripped_of_mem_placePieces
  have uncut : ∀ p ∈ pieces, Uncut terminator none p.text.toList :=
    fun p hp => texts.uncut_of_mem _ (List.mem_map_of_mem hp)
  refine ⟨(placePieces_ordered 0 _).2, fun p hp => ⟨?_, (stripped p hp).isAllBlank_eq_false,
    stripped p hp, uncut p hp⟩, fun front x behind whole => ?_,
    fun p hp => terminated_of_uncut (uncut p hp) (stripped p hp), ?_, fun quote => ?_⟩
  · obtain ⟨front, behind, whole, start⟩ := cutsParts_terminated terminator text p hp
    refine Text.slice?_eq_some_iff.2 ⟨front, behind, whole, ?_⟩
    rw [Text.width_append, start]
  · rw [← cut_append terminator none text.toList] at whole
    rw [← Nat.zero_add (Text.width front)]
    exact segmented.covers_or_dropped 0 whole
  · -- the joined text is made of the texts of the pieces, which are segmented
    have joined : ((String.singleton terminator).intercalate (pieces.map (·.text))).toList =
        [terminator].intercalate (pieces.map (·.text.toList)) := by
      rw [String.toList_intercalate, String.toList_singleton, List.map_map]
      rfl
    have again := texts_terminated texts (List.forall_mem_map.2 stripped) joined
    have strings := congrArg (List.map String.ofList) again
    simpa only [List.map_map, Function.comp_def, String.ofList_toList] using strings
  · have short := texts.length_le_one quote
    rwa [List.length_map] at short

/-- A wide terminator, also twice in a row and in quotes, wide blanks, and a quote that is
    open at the end. -/
theorem terminated_lossless_wide :
    let pieces := terminated '；' "\u3000é；；\u00a0'a；b' c；'d； "
    pieces = [⟨3, "é"⟩, ⟨13, "'a；b' c"⟩, ⟨25, "'d；"⟩] ∧
      terminated '；' "'d；" = [⟨0, "'d；"⟩] ∧
      (terminated '；' "é；'a；b' c；'d；").map (·.text) = pieces.map (·.text) := by
  intro pieces
  have split : pieces = [⟨3, "é"⟩, ⟨13, "'a；b' c"⟩, ⟨25, "'d；"⟩] := by decide +kernel
  obtain ⟨-, -, -, alone, again, -⟩ := terminated_lossless '；' "\u3000é；；\u00a0'a；b' c；'d； "
  have mem : ⟨25, "'d；"⟩ ∈ pieces := split ▸ by decide
  have joined : (String.singleton '；').intercalate (pieces.map (·.text)) =
      "é；'a；b' c；'d；" := by
    rw [split]
    decide +kernel
  exact ⟨split, alone _ mem, joined ▸ again⟩

end Splitter

end ConnectorQuery
