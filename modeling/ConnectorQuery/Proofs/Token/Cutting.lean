import ConnectorQuery.Proofs.Token.Writing
import Mathlib.Data.List.TakeWhile

/-!
# Cutting between tokens

A text may be cut behind any of its tokens, and another text put there, without
a change to the tokens in front: which lexeme a text opens with is settled by
the lexeme itself, unless it is a word and another character of a word follows,
or a literal that is still open (`Lexeme.Opening.first_append`).

* `Token.scan_append`: the tokens of two texts, one behind the other;
* `Token.exists_cut`: the text in front of a cut between two tokens has just the
  tokens in front of it;
* `Token.scan_shift`: a text has the same tokens wherever it begins.
-/

namespace ConnectorQuery

theorem EndsWord.of_isPrefix {xs ys : List Char} (h : EndsWord ys) (hp : xs <+: ys) :
    EndsWord xs := by
  obtain ⟨zs, rfl⟩ := hp
  cases xs with
  | nil => exact nofun
  | cons x xs => exact h

/-- What ends a word does so with more behind it. -/
theorem EndsWord.append {xs ys : List Char} (hx : EndsWord xs) (hy : EndsWord ys) :
    EndsWord (xs ++ ys) := by
  cases xs with
  | nil => exact hy
  | cons x xs => exact hx

namespace Lexeme

variable {c : Char} {cs ys : List Char}

/-- A literal goes up to the next mark of its kind. -/
theorem literal_append {q : Char} (h : q ∉ cs) :
    literal q (cs ++ q :: ys) = ⟨.ofQuote q, q :: (cs ++ [q]), ys⟩ := by
  have inside : ∀ x ∈ cs, (x != q) = true := fun x hx => bne_iff_ne.2 fun hq => h (hq ▸ hx)
  simp [literal, List.takeWhile_append_of_pos inside, List.dropWhile_append_of_pos inside]

/-- A word goes up to what ends it. -/
theorem bare_append (h : ∀ x ∈ cs, Token.isWordChar x = true) (hys : EndsWord ys) :
    bare c (cs ++ ys) = ⟨.ofWord (String.ofList (c :: cs)), c :: cs, ys⟩ := by
  simp [bare, List.takeWhile_append_of_pos h, List.dropWhile_append_of_pos h, hys.takeWhile]

/-- A literal that is not closed by its quote takes everything. -/
theorem literal_eq (q : Char) (cs : List Char) :
    (q ∉ cs ∧ literal q cs = ⟨.unrecognised, q :: cs, []⟩) ∨
      ∃ content rest, q ∉ content ∧ cs = content ++ q :: rest := by
  by_cases mem : q ∈ cs
  · obtain ⟨content, rest, whole, notIn⟩ := List.eq_append_cons_of_mem mem
    exact .inr ⟨content, rest, notIn, whole⟩
  · refine .inl ⟨mem, ?_⟩
    have inside : ∀ x ∈ cs, (x != q) = true := fun x hx => bne_iff_ne.2 fun hq => mem (hq ▸ hx)
    rw [literal, List.dropWhile_eq_nil_iff.2 inside]

/-- What a text opens with, by its first character. -/
inductive Opening (c : Char) (cs : List Char) : Lexeme → Prop
  | mark {m : Mark} : Mark.ofChar? c = some m → Opening c cs ⟨.mark m, [c], cs⟩
  | word {run rest : List Char} : Token.isWordChar c = true → cs = run ++ rest →
      (∀ x ∈ run, Token.isWordChar x = true) → EndsWord rest →
      Opening c cs ⟨.ofWord (String.ofList (c :: run)), c :: run, rest⟩
  | closed {content rest : List Char} : Text.isQuote c = true → c ∉ content →
      cs = content ++ c :: rest → Opening c cs ⟨.ofQuote c, c :: (content ++ [c]), rest⟩
  | «open» : Text.isQuote c = true → c ∉ cs → Opening c cs ⟨.unrecognised, c :: cs, []⟩

/-- A character that is no gap opens the lexeme that is scanned there. -/
theorem opening_first (hgap : Token.isGap c = false) : Opening c cs (first c cs) := by
  rw [first]
  cases hm : Mark.ofChar? c with
  | some m => exact .mark hm
  | none =>
    -- no mark and no gap: the character opens a literal or a word
    by_cases hq : Text.isQuote c = true
    · simp only [hq, if_true]
      rcases literal_eq c cs with ⟨notIn, whole⟩ | ⟨content, rest, notIn, rfl⟩
      · rw [whole]
        exact .open hq notIn
      · rw [literal_append notIn]
        exact .closed hq notIn rfl
    · simp only [hq, Bool.false_eq_true, if_false]
      refine .word (Token.isWordChar_iff.2 ⟨hgap, Bool.eq_false_iff.2 hq, hm⟩)
        List.takeWhile_append_dropWhile.symm (fun x hx => List.mem_takeWhile_imp hx) fun d hd => ?_
      have stops := List.head?_dropWhile_not Token.isWordChar cs
      rw [Option.mem_def.1 hd] at stops
      simpa using stops

/-- A word is read to its end. -/
theorem Opening.endsWord_rest {l : Lexeme} (h : Opening c cs l)
    (hc : Token.isWordChar c = true) : EndsWord l.rest := by
  obtain ⟨-, notQuote, notMark⟩ := Token.isWordChar_iff.1 hc
  cases h with
  | mark hm => exact nomatch notMark.symm.trans hm
  | word _ _ _ ends => exact ends
  | closed hq _ _ | «open» hq _ => exact nomatch notQuote.symm.trans hq

/-- Only a literal that is open is no token. -/
theorem Opening.eq_of_unrecognised {l : Lexeme} (h : Opening c cs l) (hk : l.kind = .unrecognised) :
    Text.isQuote c = true ∧ c ∉ cs ∧ l = ⟨.unrecognised, c :: cs, []⟩ := by
  cases h with
  | mark _ => exact nomatch hk
  | word _ _ _ _ =>
    rw [TokenKind.ofWord] at hk
    split at hk <;> cases hk
  | closed _ _ _ =>
    rw [TokenKind.ofQuote] at hk
    split at hk <;> cases hk
  | «open» quote notIn => exact ⟨quote, notIn, rfl⟩

/-- Behind a literal that is open there is nothing. -/
theorem Opening.rest_eq_nil {l : Lexeme} (h : Opening c cs l) (hk : l.kind = .unrecognised) :
    l.rest = [] := by
  obtain ⟨-, -, rfl⟩ := h.eq_of_unrecognised hk
  rfl

/-- What is behind a lexeme does not matter for it. -/
theorem Opening.first_append {l : Lexeme} (h : Opening c cs l) (closed : l.kind ≠ .unrecognised)
    (hys : Token.isWordChar c = true → EndsWord ys) :
    ∃ tail, l.text = c :: tail ∧ first c (tail ++ ys) = ⟨l.kind, l.text, ys⟩ := by
  cases h with
  | mark hm => exact ⟨[], rfl, by simp [first, hm]⟩
  | @word run rest hc _ inside _ =>
    obtain ⟨-, notQuote, notMark⟩ := Token.isWordChar_iff.1 hc
    refine ⟨run, rfl, ?_⟩
    rw [first, notMark]
    simp only [notQuote, Bool.false_eq_true, if_false]
    exact bare_append inside (hys hc)
  | @closed content rest hq notIn _ =>
    have notMark : Mark.ofChar? c = none := by
      rcases Text.eq_of_isQuote hq with rfl | rfl <;> rfl
    refine ⟨content ++ [c], rfl, ?_⟩
    rw [first, notMark, List.append_assoc]
    simp only [hq, if_true]
    exact literal_append notIn
  -- an open literal would go on with what is put behind it
  | «open» _ _ => exact absurd rfl closed

end Lexeme

namespace Token

open Lexeme

theorem scan_cons_of_gap {c : Char} (h : isGap c = true) (n : Nat) (cs : List Char) :
    scan n (c :: cs) = scan (n + c.utf8Size) cs := by
  rw [scan, if_pos h]

/-- The token of a lexeme that begins at `n`. -/
def ofLexeme (n : Nat) (l : Lexeme) : Token :=
  ⟨l.kind, String.ofList l.text, ⟨n, n + Text.width l.text⟩⟩

/-- A scan takes the lexeme at hand and goes on behind it. -/
theorem scan_cons {c : Char} (h : isGap c = false) (n : Nat) (cs : List Char) :
    scan n (c :: cs) =
      ofLexeme n (first c cs) :: scan (n + Text.width (first c cs).text) (first c cs).rest := by
  rw [scan, h, if_neg Bool.false_ne_true]
  rfl

/-- A lexeme is scanned as its token, and then what is put behind it. -/
theorem scan_lexeme {c : Char} {cs ys : List Char} {l : Lexeme} (hgap : isGap c = false)
    (h : Opening c cs l) (closed : l.kind ≠ .unrecognised)
    (hys : isWordChar c = true → EndsWord ys) (n : Nat) :
    scan n (l.text ++ ys) = ofLexeme n l :: scan (n + Text.width l.text) ys := by
  obtain ⟨tail, htext, hfirst⟩ := h.first_append closed hys
  rw [htext, List.cons_append, scan_cons hgap, hfirst, htext]
  rw [ofLexeme, ofLexeme, htext]

/-- The first lexeme of a text is scanned in front of any part of what is behind
    it. -/
theorem scan_text_append {c : Char} {cs ys : List Char} (hgap : isGap c = false)
    (hys : ys <+: (first c cs).rest) (n : Nat) :
    scan n ((first c cs).text ++ ys) =
      ofLexeme n (first c cs) :: scan (n + Text.width (first c cs).text) ys := by
  have opening : Opening c cs (first c cs) := opening_first hgap
  by_cases closed : (first c cs).kind = .unrecognised
  · -- an open literal is the whole text
    have nothing := opening.rest_eq_nil closed
    have whole := text_append_rest c cs
    rw [nothing, List.append_nil] at whole
    rw [nothing, List.prefix_nil] at hys
    rw [hys, List.append_nil, whole, scan_cons hgap, nothing, whole]
  · exact scan_lexeme hgap opening closed (fun hc => (opening.endsWord_rest hc).of_isPrefix hys) n

/-- The token, `m` bytes further on. -/
def shift (t : Token) (m : Nat) : Token :=
  { t with span := t.span.shift m }

theorem ofLexeme_add (n m : Nat) (l : Lexeme) : ofLexeme (n + m) l = (ofLexeme n l).shift m := by
  simp only [ofLexeme, shift, Span.shift, Nat.add_right_comm]

/-- A text has the same tokens wherever it begins. -/
theorem scan_shift (n m : Nat) (cs : List Char) :
    scan (n + m) cs = (scan n cs).map (·.shift m) := by
  fun_induction scan n cs with
  | case1 n => exact scan.eq_1 _
  | case2 n c cs gap ih => rw [scan_cons_of_gap gap, Nat.add_right_comm, ih]
  | case3 n c cs notGap lexeme stop ih =>
    rw [scan_cons (Bool.eq_false_iff.2 notGap), Nat.add_right_comm, ih, ofLexeme_add]
    rfl

/-- The tokens of two texts, one behind the other, are those of both, if no
    literal of the first one is open at its end and no word of it goes on. -/
theorem scan_append (n : Nat) (xs : List Char) {ys : List Char}
    (closed : ∀ t ∈ scan n xs, t.kind ≠ .unrecognised) (hys : EndsWord ys) :
    scan n (xs ++ ys) = scan n xs ++ scan (n + Text.width xs) ys := by
  fun_induction scan n xs with
  | case1 n => rfl
  | case2 n c cs gap ih =>
    rw [List.cons_append, scan_cons_of_gap gap, ih closed, Text.width_cons, Nat.add_assoc]
  | case3 n c cs notGap lexeme stop ih =>
    have opening : Opening c cs lexeme := opening_first (Bool.eq_false_iff.2 notGap)
    obtain ⟨first, others⟩ := List.forall_mem_cons.1 closed
    have ends : isWordChar c = true → EndsWord (lexeme.rest ++ ys) :=
      fun hc => (opening.endsWord_rest hc).append hys
    have whole : c :: cs = lexeme.text ++ lexeme.rest := (text_append_rest c cs).symm
    rw [whole, List.append_assoc,
      scan_lexeme (Bool.eq_false_iff.2 notGap) opening first ends, ih others, Text.width_append,
      ← Nat.add_assoc]
    rfl

/-- Where the last token ends, or `n` where there is none. -/
def stopOf (n : Nat) (ts : List Token) : Nat :=
  (ts.getLast?.map (·.span.stop)).getD n

@[simp] theorem stopOf_cons (n : Nat) (t : Token) (ts : List Token) :
    stopOf n (t :: ts) = stopOf t.span.stop ts := by
  cases ts with
  | nil => rfl
  | cons u us => rw [stopOf, stopOf, List.getLast?_cons_cons, List.getLast?_cons]; rfl

theorem stopOf_append (n : Nat) (ts us : List Token) :
    stopOf n (ts ++ us) = stopOf (stopOf n ts) us := by
  induction ts generalizing n with
  | nil => rfl
  | cons t ts ih => rw [List.cons_append, stopOf_cons, stopOf_cons, ih]

/-- A text can be cut between two of its tokens: the text in front of the cut has
    just the tokens in front of it. -/
theorem exists_cut (n : Nat) (cs : List Char) {others : List Token} :
    ∀ read, scan n cs = read ++ others → ∃ front behind, cs = front ++ behind ∧
      scan n front = read ∧ n + Text.width front = stopOf n read := by
  -- in front of the first token nothing is kept, not even a gap
  have empty {n : Nat} {cs : List Char} : ∃ front behind, cs = front ++ behind ∧
      scan n front = [] ∧ n + Text.width front = stopOf n [] := ⟨[], cs, rfl, scan.eq_1 n, rfl⟩
  fun_induction scan n cs with
  | case1 n =>
    intro read h
    obtain ⟨rfl, -⟩ := List.append_eq_nil_iff.1 h.symm
    exact empty
  | case2 n c cs gap ih =>
    intro read h
    cases read with
    | nil => exact empty
    | cons t read =>
      obtain ⟨front, behind, rfl, hread, stop⟩ := ih _ h
      refine ⟨c :: front, behind, rfl, ?_, ?_⟩
      · rw [scan_cons_of_gap gap, hread]
      · rw [Text.width_cons, ← Nat.add_assoc, stop, stopOf_cons, stopOf_cons]
  | case3 n c cs notGap lexeme stop ih =>
    intro read h
    cases read with
    | nil => exact empty
    | cons t read =>
      obtain ⟨rfl, others⟩ := List.cons.inj h
      obtain ⟨front, behind, hrest, rfl, ends⟩ := ih _ others
      refine ⟨lexeme.text ++ front, behind, ?_, ?_, ?_⟩
      · rw [List.append_assoc, ← hrest, text_append_rest]
      · exact scan_text_append (Bool.eq_false_iff.2 notGap) (hrest ▸ List.prefix_append _ _) n
      · rw [Text.width_append, ← Nat.add_assoc, stopOf_cons]
        exact ends

end Token

end ConnectorQuery
