import ConnectorQuery.Proofs.Grammar
import ConnectorQuery.Statement.Cursor
import ConnectorQuery.Token.Scan

/-!
# Orderly tokens

The tokens of a text are *orderly*: each one begins where the one before it ends
or later, and the end of the text stands behind all others and nowhere else. A
reader relies on both. It joins spans to find out whether a token sticks to the
ones before, which needs the spans in order, and it can pass every token but the
end of the text, so it never meets the same token twice.

* `orderly_tokenize`: the tokens of a text are orderly;
* `Orderly.of_opens`: so are those behind any token but the end;
* `Orderly.pairwise`: tokens in order do not overlap.
-/

namespace ConnectorQuery

/-- The tokens stand in order, up to the end of the text. -/
inductive Orderly : List Token → Prop
  | last {t : Token} : t.kind = .endOfText → Orderly [t]
  | cons {t : Token} {ts : List Token} :
      t.kind ≠ .endOfText → t.span.start ≤ t.span.stop →
      (∀ u ∈ ts.head?, t.span.stop ≤ u.span.start) → Orderly ts → Orderly (t :: ts)

namespace Orderly

theorem ne_nil {ts : List Token} (h : Orderly ts) : ts ≠ [] := by
  cases h <;> exact List.cons_ne_nil _ _

theorem tail {t : Token} {ts : List Token} (h : Orderly (t :: ts)) (hk : t.kind ≠ .endOfText) :
    Orderly ts := by
  cases h with
  | last he => exact absurd he hk
  | cons _ _ _ hts => exact hts

/-- Behind the end of the text comes nothing. -/
theorem eq_nil {t : Token} {ts : List Token} (h : Orderly (t :: ts)) (hk : t.kind = .endOfText) :
    ts = [] := by
  cases h with
  | last _ => rfl
  | cons hne _ _ _ => exact absurd hk hne

/-- Behind a token that is not the end the others are in order. -/
theorem of_opens {k : TokenKind} {ts rest : List Token} (h : Orderly ts)
    (ho : Grammar.Opens k ts rest) (hk : k ≠ .endOfText) : Orderly rest := by
  obtain ⟨t, rfl, rfl⟩ := ho
  exact h.tail hk

/-- The last ones of the tokens in order are in order. -/
theorem of_suffix {ts us : List Token} (h : Orderly ts) (hs : us <:+ ts) (hne : us ≠ []) :
    Orderly us := by
  induction h with
  | last hk =>
    rcases List.suffix_cons_iff.1 hs with rfl | hs
    · exact .last hk
    · exact absurd (List.suffix_nil.1 hs) hne
  | cons hk ordered behind hts ih =>
    rcases List.suffix_cons_iff.1 hs with rfl | hs
    · exact .cons hk ordered behind hts
    · exact ih hs

/-- No token begins before an earlier one has ended. -/
theorem pairwise {ts : List Token} (h : Orderly ts) : ts.Pairwise fun t u =>
    t.kind ≠ .endOfText ∧ t.span.start ≤ t.span.stop ∧ t.span.stop ≤ u.span.start := by
  induction h with
  | last _ => exact List.pairwise_singleton _ _
  | @cons t ts hk ordered behind hts ih =>
    refine List.pairwise_cons.2 ⟨?_, ih⟩
    obtain ⟨u, us, rfl⟩ := List.exists_cons_of_ne_nil hts.ne_nil
    have next : t.span.stop ≤ u.span.start := behind u rfl
    refine List.forall_mem_cons.2 ⟨⟨hk, ordered, next⟩, fun v hv => ⟨hk, ordered, ?_⟩⟩
    -- the token behind `t` ends before all others begin
    obtain ⟨-, wide, later⟩ := (List.pairwise_cons.1 ih).1 v hv
    exact Nat.le_trans next (Nat.le_trans wide later)

end Orderly

theorem TokenKind.ne_endOfText_of_isValue {k : TokenKind} (h : k.isValue = true) :
    k ≠ .endOfText := by
  rintro rfl
  exact nomatch h

/-- The end of the text sticks to nothing. -/
theorem Grammar.Sticks.ne_endOfText {t u : Token} (h : Sticks t u) : u.kind ≠ .endOfText := by
  intro hu
  rcases h with ⟨-, h | ⟨-, h | h⟩⟩ <;> rw [hu] at h <;> exact nomatch h

/-- The end of the text is no segment of a column. -/
theorem Grammar.Continues.ne_endOfText {dot t : Token} (h : Continues dot t) :
    t.kind ≠ .endOfText := by
  intro ht
  rcases h with h | ⟨h, -⟩ <;> rw [ht] at h <;> exact nomatch h

theorem Grammar.Continues.ne_mark {dot t : Token} {m : Mark} (h : Continues dot t) :
    t.kind ≠ .mark m := by
  intro ht
  rcases h with h | ⟨h, -⟩ <;> rw [ht] at h <;> exact nomatch h

/-- Passing a token that is not the end of the text gets ahead. -/
theorem Cursor.tokens_advance {c : Cursor} (h : Orderly c.tokens)
    (hk : c.here.kind ≠ .endOfText) : c.tokens = c.here :: c.advance.tokens := by
  obtain ⟨here, ahead, passed⟩ := c
  cases ahead with
  | nil => exact absurd rfl (h.tail hk).ne_nil
  | cons t ts => rfl

/-- A cursor that moves on stays before tokens in order. -/
theorem Cursor.orderly_advance {c : Cursor} (h : Orderly c.tokens)
    (hk : c.here.kind ≠ .endOfText) : Orderly c.advance.tokens := by
  rw [tokens_advance h hk] at h
  exact h.tail hk

/-- What comes behind a token that was passed is fewer tokens ahead. -/
theorem Cursor.ahead_length_lt {c c' : Cursor} (h : Orderly c.tokens)
    (hk : c.here.kind ≠ .endOfText) (behind : c'.tokens <:+ c.advance.tokens) :
    c'.ahead.length < c.ahead.length := by
  have moved := congrArg List.length (tokens_advance h hk)
  have le := behind.length_le
  simp only [tokens, List.length_cons] at moved le
  omega

/-- A cursor at the start of a text has all of its tokens before it. -/
theorem Cursor.tokens_ofTokens {ts : List Token} (h : Orderly ts) (width : Nat) :
    (ofTokens width ts).tokens = ts := by
  cases ts with
  | nil => exact absurd rfl h.ne_nil
  | cons t ts => rfl

/-! ## The tokens of a text -/

namespace Token

theorem ofWord_ne_endOfText (word : String) : TokenKind.ofWord word ≠ .endOfText := by
  rw [TokenKind.ofWord]
  cases Keyword.ofText? word <;> exact fun h => nomatch h

theorem ofQuote_ne_endOfText (q : Char) : TokenKind.ofQuote q ≠ .endOfText := by
  rw [TokenKind.ofQuote]
  split <;> exact fun h => nomatch h

theorem kind_literal_ne_endOfText (q : Char) (cs : List Char) :
    (Lexeme.literal q cs).kind ≠ .endOfText := by
  rw [Lexeme.literal]
  cases cs.dropWhile (· != q) with
  | nil => exact fun h => nomatch h
  | cons close rest => exact ofQuote_ne_endOfText q

/-- No lexeme is the end of the text. -/
theorem kind_first_ne_endOfText (c : Char) (cs : List Char) :
    (Lexeme.first c cs).kind ≠ .endOfText := by
  rw [Lexeme.first]
  cases Mark.ofChar? c with
  | some m => exact fun h => nomatch h
  | none =>
    by_cases hq : Text.isQuote c = true
    · rw [if_pos hq]
      exact kind_literal_ne_endOfText c cs
    · rw [if_neg hq]
      exact ofWord_ne_endOfText _

/-- No token begins before the place where scanning began. -/
theorem le_start_of_mem_head?_scan (n : Nat) (cs : List Char) :
    ∀ u ∈ (scan n cs ++ [endAt (n + Text.width cs)]).head?, n ≤ u.span.start := by
  fun_induction scan n cs with
  | case1 n => simp [endAt]
  | case2 n c cs gap ih =>
    intro u hu
    rw [Text.width_cons, ← Nat.add_assoc] at hu
    exact Nat.le_trans (Nat.le_add_right n _) (ih u hu)
  | case3 n c cs _ lexeme stop ih =>
    intro u hu
    obtain rfl := Option.some.inj hu
    exact Nat.le_refl n

/-- No token is empty. -/
theorem start_lt_stop_of_mem_scan {n : Nat} {cs : List Char} :
    ∀ t ∈ scan n cs, t.span.start < t.span.stop := by
  fun_induction scan n cs with
  | case1 n => exact fun t ht => absurd ht List.not_mem_nil
  | case2 n c cs gap ih => exact ih
  | case3 n c cs notGap lexeme stop ih =>
    refine List.forall_mem_cons.2 ⟨?_, ih⟩
    obtain ⟨x, xs, hx⟩ := List.exists_cons_of_ne_nil (Lexeme.text_ne_nil c cs)
    have wide : 0 < Text.width lexeme.text := by
      rw [hx, Text.width_cons]
      exact Nat.add_pos_left x.utf8Size_pos _
    exact Nat.lt_add_of_pos_right wide

theorem start_lt_stop_of_mem_tokenize {text : String} {t : Token} (h : t ∈ tokenize text)
    (hk : t.kind ≠ .endOfText) : t.span.start < t.span.stop := by
  rcases List.mem_append.1 h with scanned | isEnd
  · exact start_lt_stop_of_mem_scan t scanned
  · obtain rfl := List.mem_singleton.1 isEnd
    exact absurd rfl hk

/-- The tokens of characters are in order, and the end of the text closes them. The
    induction is that of the scan. -/
theorem orderly_scan (n : Nat) (cs : List Char) :
    Orderly (scan n cs ++ [endAt (n + Text.width cs)]) := by
  fun_induction scan n cs with
  | case1 n => exact .last rfl
  | case2 n c cs gap ih =>
    rw [Text.width_cons, ← Nat.add_assoc]
    exact ih
  | case3 n c cs _ lexeme stop ih =>
    -- the lexeme and what is behind it make up the text, so both ends agree
    have total : n + Text.width (c :: cs) = stop + Text.width lexeme.rest := by
      rw [← Lexeme.text_append_rest c cs, Text.width_append, ← Nat.add_assoc]
    have behind := le_start_of_mem_head?_scan stop lexeme.rest
    rw [total]
    exact .cons (kind_first_ne_endOfText c cs) (Nat.le_add_right n _) behind ih

theorem orderly_tokenize (text : String) : Orderly (tokenize text) := by
  have h := orderly_scan 0 text.toList
  rwa [Nat.zero_add] at h

end Token

end ConnectorQuery
