import ConnectorQuery.Text.Position
import ConnectorQuery.Token.Scan

/-!
# Slices of a text

A span is *placed* in a text when its ends are in order, do not leave the text
and cut no character. These are the spans that a text can be sliced at:

* `isPlaced_iff`: a text falls apart at the ends of a span that is placed;
* `slice?_eq_some_iff`: the slice is what stands between them;
* `slice?_shift`: a slice of a part of a text is one of the text, as far behind as
  the part.
-/

namespace ConnectorQuery

namespace Text

theorem within_append_width (xs ys : List Char) : within (xs ++ ys) (width xs) = xs := by
  induction xs with
  | nil =>
    cases ys with
    | nil => rfl
    | cons c cs => exact if_neg (Nat.not_le.2 c.utf8Size_pos)
  | cons c cs ih =>
    rw [List.cons_append, within, width_cons, if_pos (Nat.le_add_right _ _),
      Nat.add_sub_cancel_left, ih]

/-- Up to its end a text is cut between two characters exactly at the boundaries. -/
theorem isBoundary_iff {cs : List Char} {n : Nat} (h : n ≤ width cs) :
    IsBoundary cs n ↔ ∃ front behind, cs = front ++ behind ∧ width front = n := by
  constructor
  · rintro (beyond | cut)
    · exact ⟨cs, [], (List.append_nil cs).symm, Nat.le_antisymm beyond h⟩
    · obtain ⟨behind, whole⟩ := within_isPrefix cs n
      exact ⟨within cs n, behind, whole.symm, cut⟩
  · rintro ⟨front, behind, rfl, rfl⟩
    exact .inr (congrArg width (within_append_width front behind))

/-- Of two prefixes the narrower is a prefix of the other. -/
theorem prefix_of_width_le {xs ys cs : List Char} (hx : xs <+: cs) (hy : ys <+: cs)
    (h : width xs ≤ width ys) : xs <+: ys := by
  rcases List.prefix_or_prefix_of_prefix hx hy with shorter | ⟨zs, rfl⟩
  · exact shorter
  · cases zs with
    | nil => exact ⟨[], by simp⟩
    | cons z zs =>
      have := z.utf8Size_pos
      rw [width_append, width_cons] at h
      omega

/-- The place `n` does not leave the text and cuts no character. -/
def IsPlace (text : String) (n : Nat) : Prop :=
  n ≤ width text.toList ∧ IsBoundary text.toList n

instance (text : String) (n : Nat) : Decidable (IsPlace text n) :=
  inferInstanceAs (Decidable (_ ∧ _))

/-- A place in a text is the width of a prefix. -/
theorem isPlace_iff {text : String} {n : Nat} :
    IsPlace text n ↔ ∃ front behind, text.toList = front ++ behind ∧ width front = n := by
  constructor
  · rintro ⟨bounded, boundary⟩
    exact (isBoundary_iff bounded).1 boundary
  · rintro ⟨front, behind, whole, rfl⟩
    have bounded : width front ≤ width text.toList := by
      rw [whole, width_append]
      exact Nat.le_add_right _ _
    exact ⟨bounded, (isBoundary_iff bounded).2 ⟨front, behind, whole, rfl⟩⟩

theorem isPlace_zero (text : String) : IsPlace text 0 :=
  isPlace_iff.2 ⟨[], text.toList, rfl, rfl⟩

theorem isPlace_width (text : String) : IsPlace text (width text.toList) :=
  isPlace_iff.2 ⟨text.toList, [], (List.append_nil _).symm, rfl⟩

end Text

/-- The ends of the span are in order, and both are places of the text. -/
def Span.IsPlaced (text : String) (s : Span) : Prop :=
  s.start ≤ s.stop ∧ Text.IsPlace text s.start ∧ Text.IsPlace text s.stop

instance (text : String) (s : Span) : Decidable (s.IsPlaced text) :=
  inferInstanceAs (Decidable (_ ∧ _))

namespace Text

variable {text part : String} {s : Span}

/-- A text falls apart at the ends of a span that is placed in it. -/
theorem isPlaced_iff : s.IsPlaced text ↔ ∃ front part behind,
    text.toList = front ++ part ++ behind ∧ s = ⟨width front, width (front ++ part)⟩ := by
  constructor
  · rintro ⟨ordered, start, stop⟩
    obtain ⟨front, behind, whole, start⟩ := isPlace_iff.1 start
    obtain ⟨upTo, behind', whole', stop⟩ := isPlace_iff.1 stop
    obtain ⟨part, rfl⟩ : front <+: upTo := by
      refine prefix_of_width_le ⟨behind, whole.symm⟩ ⟨behind', whole'.symm⟩ ?_
      rwa [start, stop]
    refine ⟨front, part, behind', whole', ?_⟩
    rw [start, stop]
  · rintro ⟨front, part, behind, whole, rfl⟩
    refine ⟨?_, isPlace_iff.2 ⟨front, part ++ behind, ?_, rfl⟩,
      isPlace_iff.2 ⟨front ++ part, behind, whole, rfl⟩⟩
    · rw [width_append]
      exact Nat.le_add_right _ _
    · rw [whole, List.append_assoc]

/-- The part of a text at a span, or nothing where the span leaves the text or
    cuts a character. -/
def slice? (text : String) (s : Span) : Option String :=
  if s.IsPlaced text then
    some (.ofList ((within text.toList s.stop).drop (within text.toList s.start).length))
  else none

/-- The part in the middle is found between the widths in front of it and behind it. -/
theorem slice?_of_append {front middle behind : List Char}
    (h : text.toList = front ++ middle ++ behind) :
    slice? text ⟨width front, width (front ++ middle)⟩ = some (.ofList middle) := by
  have upTo : within text.toList (width (front ++ middle)) = front ++ middle :=
    h ▸ within_append_width _ behind
  have start : within text.toList (width front) = front := by
    rw [h, List.append_assoc, within_append_width]
  rw [slice?, if_pos (isPlaced_iff.2 ⟨front, middle, behind, h, rfl⟩), upTo, start,
    List.drop_left]

/-- What is found at a span is the part that starts and stops there. -/
theorem slice?_eq_some_iff : slice? text s = some part ↔ ∃ front behind,
    text.toList = front ++ part.toList ++ behind ∧
      s = ⟨width front, width (front ++ part.toList)⟩ := by
  constructor
  · intro h
    have placed : s.IsPlaced text := by
      rw [slice?] at h
      split at h
      · assumption
      · cases h
    obtain ⟨front, middle, behind, whole, rfl⟩ := isPlaced_iff.1 placed
    rw [slice?_of_append whole] at h
    cases h
    rw [String.toList_ofList]
    exact ⟨front, behind, whole, rfl⟩
  · rintro ⟨front, behind, whole, rfl⟩
    rw [slice?_of_append whole, String.ofList_toList]

/-- Something is found at the spans that are placed in the text. -/
theorem slice?_isSome_iff : (slice? text s).isSome ↔ s.IsPlaced text := by
  rw [slice?]
  split
  · exact iff_of_true rfl ‹_›
  · exact iff_of_false nofun ‹_›

/-- A slice of a part of a text is one of the text, as far behind as the part. -/
theorem slice?_shift {front behind : List Char} (h : text.toList = front ++ part.toList ++ behind)
    (hs : s.IsPlaced part) : slice? text (s.shift (width front)) = slice? part s := by
  obtain ⟨first, middle, last, whole, rfl⟩ := isPlaced_iff.1 hs
  rw [slice?_of_append whole]
  have whole' : text.toList = (front ++ first) ++ middle ++ (last ++ behind) := by
    simp [h, whole]
  rw [← slice?_of_append whole']
  simp only [Span.shift, width_append, Nat.add_comm _ (width front), Nat.add_assoc]

end Text

namespace Token

/-- A token of a text stands at its span. -/
theorem exists_of_mem_scan {n : Nat} {cs : List Char} : ∀ t ∈ scan n cs, ∃ front behind,
    cs = front ++ t.text.toList ++ behind ∧
      t.span = ⟨n + Text.width front, n + Text.width (front ++ t.text.toList)⟩ := by
  fun_induction scan n cs with
  | case1 n => exact fun t ht => absurd ht List.not_mem_nil
  | case2 n c cs gap ih =>
    intro t ht
    obtain ⟨front, behind, rfl, span⟩ := ih t ht
    refine ⟨c :: front, behind, rfl, ?_⟩
    rw [span, List.cons_append, Text.width_cons, Text.width_cons, Nat.add_assoc, Nat.add_assoc]
  | case3 n c cs notGap lexeme stop ih =>
    have whole : c :: cs = lexeme.text ++ lexeme.rest := (Lexeme.text_append_rest c cs).symm
    intro t ht
    rcases List.mem_cons.1 ht with rfl | ht
    · refine ⟨[], lexeme.rest, ?_, ?_⟩
      · rw [String.toList_ofList, whole, List.nil_append]
      · rw [String.toList_ofList]
        rfl
    · -- a later token is found in the rest, and moves on by the text of this one
      obtain ⟨front, behind, rest, span⟩ := ih t ht
      refine ⟨lexeme.text ++ front, behind, ?_, ?_⟩
      · rw [whole, rest]
        simp only [List.append_assoc]
      · rw [span, List.append_assoc, Text.width_append lexeme.text,
          Text.width_append lexeme.text, ← Nat.add_assoc, ← Nat.add_assoc]

/-- The slice at the span of a token is its text. -/
theorem slice?_of_mem_tokenize {text : String} {t : Token} (h : t ∈ tokenize text) :
    Text.slice? text t.span = some t.text := by
  rw [Text.slice?_eq_some_iff]
  rcases List.mem_append.1 h with h | h
  · obtain ⟨front, behind, whole, span⟩ := exists_of_mem_scan t h
    rw [Nat.zero_add, Nat.zero_add] at span
    exact ⟨front, behind, whole, span⟩
  · obtain rfl := List.mem_singleton.1 h
    refine ⟨text.toList, [], ?_, ?_⟩ <;> simp [endAt]

/-- Tokens are placed in their text. -/
theorem isPlaced_of_mem_tokenize {text : String} {t : Token} (h : t ∈ tokenize text) :
    t.span.IsPlaced text := by
  rw [← Text.slice?_isSome_iff, slice?_of_mem_tokenize h]
  rfl

end Token

end ConnectorQuery
