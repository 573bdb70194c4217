import ConnectorQuery.Proofs.Text.Slice
import Mathlib.Data.List.DropRight
import Mathlib.Data.Prod.Lex

/-!
# Positions and offsets

The line and the column of an offset are counted from the front of the text, one
character after the other. Each character leads to a later position
(`Position.lex_lt_step`), so the offsets of a text and their positions are in the
same order, and no two offsets share one.

* `Position.after_start`: lines and columns read off the characters in front: the
  line feeds among them, and what stands behind the last one;
* `Position.after_eq_shift`: a text that begins at another position has its own
  positions, *shifted* there: all of its lines are moved, but only the first one
  has its columns moved;
* `Position.ofBoundary?_shift`: so a place in a part of a text is found from the
  position of the part, without another look at what is in front.
-/

namespace ConnectorQuery

/-- Offsets past the end count as the end. -/
theorem Text.within_of_width_le {cs : List Char} {n : Nat} (h : width cs ≤ n) :
    within cs n = cs := by
  induction cs generalizing n with
  | nil => rfl
  | cons c cs ih =>
    rw [width_cons] at h
    rw [within, if_pos (Nat.le_of_add_right_le h), ih (Nat.le_sub_of_add_le' h)]

namespace Position

variable {p q : Position} {text part : String} {front behind : List Char} {n : Nat}

/-! ## The order of positions -/

/-- The line and the column, in the order of the lines and in each line in that of
    the columns. -/
def lex (p : Position) : ℕ ×ₗ ℕ :=
  toLex (p.line, p.column)

theorem lex_lt_iff : p.lex < q.lex ↔ p.line < q.line ∨ p.line = q.line ∧ p.column < q.column :=
  Prod.Lex.toLex_lt_toLex

/-- Behind a character there is a later position, in the same line or in the next. -/
theorem lex_lt_step (p : Position) (c : Char) : p.lex < (p.step c).lex := by
  rw [lex_lt_iff, step]
  split
  · exact .inl (Nat.lt_succ_self _)
  · exact .inr ⟨rfl, Nat.lt_succ_self _⟩

/-- Reading on does not go back. -/
theorem lex_le_after (p : Position) (cs : List Char) : p.lex ≤ (p.after cs).lex := by
  induction cs generalizing p with
  | nil => exact le_rfl
  | cons c cs ih => exact (p.lex_lt_step c).le.trans (ih (p.step c))

/-- Reading on by a character at least goes ahead. -/
theorem lex_lt_after (p : Position) {cs : List Char} (h : cs ≠ []) :
    p.lex < (p.after cs).lex := by
  obtain ⟨c, cs, rfl⟩ := List.exists_cons_of_ne_nil h
  exact (p.lex_lt_step c).trans_le (lex_le_after (p.step c) cs)

/-! ## Lines and columns -/

/-- The characters behind the last line feed. -/
def lastLine (cs : List Char) : List Char :=
  cs.rtakeWhile (· != '\n')

/-- A line feed begins a new line, and any other character is added to the last one. -/
theorem lastLine_concat (cs : List Char) (c : Char) :
    lastLine (cs ++ [c]) = if c = '\n' then [] else lastLine cs ++ [c] := by
  rw [lastLine, List.rtakeWhile_concat]
  by_cases hc : c = '\n'
  · rw [if_pos hc, if_neg (mt bne_iff_ne.1 (not_not_intro hc))]
  · rw [if_neg hc, if_pos (bne_iff_ne.2 hc), lastLine]

/-- There is one line more than line feeds, and one column more than characters
    behind the last one. -/
theorem after_start (cs : List Char) :
    start.after cs = ⟨cs.count '\n' + 1, (lastLine cs).length + 1⟩ := by
  induction cs using List.reverseRecOn with
  | nil => rfl
  | append_singleton cs c ih =>
    rw [after_append, ih, lastLine_concat, List.count_append, List.count_singleton]
    by_cases hc : c = '\n'
    · subst hc
      rfl
    · rw [if_neg hc, if_neg (mt beq_iff_eq.1 hc), List.length_append]
      exact if_neg hc

/-! ## Positions of a part -/

/-- The position `q` of a text, where that text begins at `p`. Its first line goes on
    with the line of `p`. -/
def shift (q p : Position) : Position :=
  ⟨p.line + q.line - 1, if q.line = 1 then p.column + q.column - 1 else q.column⟩

/-- The line and the column are counted from 1. -/
structure IsCounted (p : Position) : Prop where
  line : 1 ≤ p.line
  column : 1 ≤ p.column

theorem IsCounted.step (h : q.IsCounted) (c : Char) : (q.step c).IsCounted := by
  rw [Position.step]
  split
  · exact ⟨Nat.le_succ_of_le h.line, le_rfl⟩
  · exact ⟨h.line, Nat.le_succ_of_le h.column⟩

theorem step_shift (h : q.IsCounted) (p : Position) (c : Char) :
    (q.shift p).step c = (q.step c).shift p := by
  obtain ⟨line, column⟩ := h
  by_cases hc : c = '\n'
  · -- the next line is not the first one any more
    have further : q.line + 1 ≠ 1 := by omega
    simp only [step, shift, if_pos hc, if_neg further, mk.injEq, and_true]
    omega
  · simp only [step, shift, if_neg hc, mk.injEq, true_and]
    split <;> omega

/-- Counting from a shifted position is shifting what is counted. -/
theorem after_shift (h : q.IsCounted) (p : Position) (cs : List Char) :
    (q.shift p).after cs = (q.after cs).shift p := by
  induction cs generalizing q with
  | nil => rfl
  | cons c cs ih =>
    have next := ih (h.step c)
    rwa [← step_shift h] at next

/-- A text that begins at `p` has its own positions, shifted to `p`. -/
theorem after_eq_shift (p : Position) (cs : List Char) :
    p.after cs = (start.after cs).shift p := by
  have counted : start.IsCounted := ⟨le_rfl, le_rfl⟩
  -- the start itself is shifted to `p`
  exact after_shift counted p cs

/-! ## Positions of offsets -/

/-- The position of an offset is counted over the characters in front of it. -/
theorem ofBoundary?_of_append (h : text.toList = front ++ behind) :
    ofBoundary? text (Text.width front) = some (start.after front) := by
  have place : Text.IsPlace text (Text.width front) := Text.isPlace_iff.2 ⟨front, behind, h, rfl⟩
  rw [ofBoundary?, if_pos place.2, ofOffset, h, Text.within_append_width]

/-- Offsets past the end are where the end is. -/
theorem ofBoundary?_of_width_le (h : Text.width text.toList ≤ n) :
    ofBoundary? text n = some (start.after text.toList) := by
  rw [ofBoundary?, if_pos (.inl h), ofOffset, Text.within_of_width_le h]

/-- A place in a part of a text has its position in the part, shifted to where the
    part begins. -/
theorem ofBoundary?_shift (h : text.toList = front ++ part.toList ++ behind)
    (hn : Text.IsPlace part n) : ∃ q, ofBoundary? part n = some q ∧
      ofBoundary? text (Text.width front + n) = some (q.shift (start.after front)) := by
  obtain ⟨first, last, whole, rfl⟩ := Text.isPlace_iff.1 hn
  have inText : text.toList = (front ++ first) ++ (last ++ behind) := by
    rw [h, whole]
    simp only [List.append_assoc]
  refine ⟨start.after first, ofBoundary?_of_append whole, ?_⟩
  rw [← Text.width_append, ofBoundary?_of_append inText, after_append, after_eq_shift]

/-- Line and column identify the offset. Of two places of a text, the later one has
    the later position; lines are counted by the line feeds in front of a place, and
    columns by the characters behind the last of these; an offset past the end has the
    position of the end; and behind another text a text has its own positions, shifted
    to the end of that one. -/
theorem identifies_offset (text : String) :
    (∀ m n, Text.IsPlace text m → Text.IsPlace text n → m < n → ∃ p q,
      ofBoundary? text m = some p ∧ ofBoundary? text n = some q ∧ p.lex < q.lex) ∧
    (∀ m n, Text.IsPlace text m → Text.IsPlace text n →
      ofBoundary? text m = ofBoundary? text n → m = n) ∧
    (∀ n, Text.IsPlace text n → ∃ front behind,
      text.toList = front ++ behind ∧ Text.width front = n ∧
        ofBoundary? text n = some ⟨front.count '\n' + 1, (lastLine front).length + 1⟩) ∧
    (∀ n, Text.width text.toList ≤ n →
      ofBoundary? text n = ofBoundary? text (Text.width text.toList)) ∧
    ∀ part n, Text.IsPlace part n → ∃ p q,
      ofBoundary? text (Text.width text.toList) = some p ∧ ofBoundary? part n = some q ∧
        ofBoundary? (text ++ part) (Text.width text.toList + n) = some (q.shift p) := by
  have ordered : ∀ m n, Text.IsPlace text m → Text.IsPlace text n → m < n → ∃ p q,
      ofBoundary? text m = some p ∧ ofBoundary? text n = some q ∧ p.lex < q.lex := by
    intro m n hm hn less
    obtain ⟨front, behind, whole, rfl⟩ := Text.isPlace_iff.1 hm
    obtain ⟨upTo, behind', whole', rfl⟩ := Text.isPlace_iff.1 hn
    -- the characters between the two places lead from one position to the other
    obtain ⟨between, rfl⟩ : front <+: upTo :=
      Text.prefix_of_width_le ⟨behind, whole.symm⟩ ⟨behind', whole'.symm⟩ less.le
    have apart : between ≠ [] := by
      rintro rfl
      rw [List.append_nil] at less
      exact lt_irrefl _ less
    refine ⟨_, _, ofBoundary?_of_append whole, ofBoundary?_of_append whole', ?_⟩
    rw [after_append]
    exact lex_lt_after _ apart
  have apart : ∀ m n, Text.IsPlace text m → Text.IsPlace text n → m < n →
      ofBoundary? text m ≠ ofBoundary? text n := by
    intro m n hm hn less same
    obtain ⟨p, q, hp, hq, later⟩ := ordered m n hm hn less
    obtain rfl : p = q := Option.some.inj (hp.symm.trans (same.trans hq))
    exact lt_irrefl _ later
  refine ⟨ordered, fun m n hm hn same => ?_, fun n hn => ?_, fun n hn => ?_,
    fun part n hn => ?_⟩
  · rcases Nat.lt_trichotomy m n with less | rfl | less
    · exact absurd same (apart m n hm hn less)
    · rfl
    · exact absurd same.symm (apart n m hn hm less)
  · obtain ⟨front, behind, whole, rfl⟩ := Text.isPlace_iff.1 hn
    exact ⟨front, behind, whole, rfl, (ofBoundary?_of_append whole).trans (by rw [after_start])⟩
  · rw [ofBoundary?_of_width_le hn, ofBoundary?_of_width_le le_rfl]
  · have whole : (text ++ part).toList = text.toList ++ part.toList ++ [] := by
      rw [String.toList_append, List.append_nil]
    obtain ⟨q, hq, shifted⟩ := ofBoundary?_shift whole hn
    exact ⟨_, q, ofBoundary?_of_width_le le_rfl, hq, shifted⟩

/-- On a line feed and just behind it, and in the second line of a part that goes on
    with a line. -/
theorem identifies_offset_lines :
    let text := "é\nb"
    let part := "ü\nx"
    Text.IsPlace text 2 ∧ Text.IsPlace text 3 ∧ Text.IsPlace part 3 ∧
      (∃ p q, ofBoundary? text 2 = some p ∧ ofBoundary? text 3 = some q ∧ p.lex < q.lex) ∧
      ofBoundary? text 2 ≠ ofBoundary? text 3 ∧
      ofBoundary? text 9 = ofBoundary? text 4 ∧
      ofBoundary? (text ++ part) (4 + 3) = some ⟨3, 1⟩ := by
  intro text part
  have onFeed : Text.IsPlace text 2 := by decide
  have behindFeed : Text.IsPlace text 3 := by decide
  have inPart : Text.IsPlace part 3 := by decide
  have width : Text.width text.toList = 4 := by decide
  obtain ⟨ordered, apart, -, beyond, parts⟩ := identifies_offset text
  rw [width] at beyond parts
  obtain ⟨p, q, hp, hq, shifted⟩ := parts part 3 inPart
  have atEnd : ofBoundary? text 4 = some ⟨2, 2⟩ := by decide
  have inSecond : ofBoundary? part 3 = some ⟨2, 1⟩ := by decide
  obtain rfl := Option.some.inj (hp.symm.trans atEnd)
  obtain rfl := Option.some.inj (hq.symm.trans inSecond)
  exact ⟨onFeed, behindFeed, inPart, ordered 2 3 onFeed behindFeed (by decide),
    fun same => absurd (apart 2 3 onFeed behindFeed same) (by decide), beyond 9 (by decide),
    shifted⟩

end Position

end ConnectorQuery
