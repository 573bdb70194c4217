import ConnectorQuery.Statement.Parser
import ConnectorQuery.Token.Scan

/-!
# Progress

No parser goes back: what is ahead of it afterwards is a tail of what was ahead
before (`Forward`). The property is closed under sequencing, so it holds of
every phrase of the grammar.

A clause begins by passing its keyword. Where the tokens close with the end of
the text, the keyword is never the last token, so every clause gets ahead and
the clauses of a statement come to an end (`clauses_isSome`). In particular
reading a text always has an answer (`ofTokens?_tokenize_isSome`).
-/

namespace ConnectorQuery.Parser

variable {α β : Type}

/-- The parser `p` never goes back. -/
def Forward (p : Parser α) : Prop :=
  ∀ c a c', p c = .ok (a, c') → c'.tokens <:+ c.tokens

/-- An answer without reading takes nothing. -/
theorem forward_pure (a : α) : Forward (pure a) := by
  intro c b c' h
  cases h
  exact List.suffix_refl _

/-- Parsers in a row leave what the second one leaves. -/
theorem Forward.bind {p : Parser α} {f : α → Parser β} (hp : Forward p)
    (hf : ∀ a, Forward (f a)) : Forward (p >>= f) := by
  intro c b c' h
  change Except.bind (p c) (fun r => f r.1 r.2) = .ok (b, c') at h
  cases e : p c with
  | error x => rw [e] at h; cases h
  | ok r =>
    rw [e] at h
    exact (hf r.1 r.2 b c' h).trans (hp c r.1 r.2 e)

theorem Forward.map {p : Parser α} (hp : Forward p) (f : α → β) : Forward (f <$> p) :=
  hp.bind fun a => forward_pure (f a)

/-- A look at the cursor does not move it. -/
theorem forward_look (f : Cursor → α) : Forward (fun c => .ok (f c, c) : Parser α) := by
  intro c a c' h
  cases h
  exact List.suffix_refl _

theorem forward_peek : Forward peek :=
  forward_look Cursor.here

/-- To take a token leaves those behind it. -/
theorem forward_next : Forward next := by
  intro c t c' h
  cases h
  exact c.advance_tokens_suffix

theorem forward_discard_next : Forward (discard next) :=
  forward_next.map _

theorem forward_refuse (expected : String) (found : Token) :
    Forward (refuse expected found : Parser α) := by
  intro c a c' h
  cases h

theorem forward_ite {b : Bool} {p q : Parser α} (hp : Forward p) (hq : Forward q) :
    Forward (if b then p else q) := by
  cases b <;> assumption

/-- A phrase that may be missing goes forward if it does where it stands. -/
theorem forward_whenAt {wanted : Token → Bool} {p : Parser α} (hp : Forward p) (otherwise : α) :
    Forward (whenAt wanted p otherwise) := by
  intro c a c' h
  unfold whenAt at h
  split at h
  · exact hp c a c' h
  · cases h
    exact List.suffix_refl _

theorem forward_expect (k : TokenKind) : Forward (expect k) :=
  forward_peek.bind fun _ => forward_ite forward_discard_next (forward_refuse _ _)

theorem forward_skip (k : TokenKind) : Forward (skip k) :=
  forward_whenAt forward_discard_next _

theorem forward_spanFrom (start : Span) : Forward (spanFrom start) :=
  forward_look _

/-- The items of a list go forward, by induction on the tokens ahead. -/
theorem forward_moreItems {item : Parser α} (hitem : Forward item) :
    Forward (moreItems item) := by
  intro c
  fun_induction moreItems item c with
  | case1 c atComma e he => intro as c' h; cases h
  | case2 c atComma a c₁ h₁ shorter e he ih => intro as c' h; cases h
  | case3 c atComma a c₁ h₁ shorter as c₂ h₂ ih =>
    intro _ c' h
    cases h
    exact (ih as c₂ h₂).trans ((hitem _ _ _ h₁).trans c.advance_tokens_suffix)
  | case4 c atComma a c₁ h₁ =>
    intro _ c' h
    cases h
    exact (hitem _ _ _ h₁).trans c.advance_tokens_suffix
  | case5 c =>
    intro _ c' h
    cases h
    exact List.suffix_refl _

theorem forward_commaList {item : Parser α} (hitem : Forward item) :
    Forward (commaList item) :=
  hitem.bind fun _ => (forward_moreItems hitem).bind fun _ => forward_pure _

/-- The tokens joined to a name are the first ones ahead. -/
theorem joinAll_tokens_suffix (p : FieldPath) (here : Token) (passed : Nat)
    (ahead : List Token) : (joinAll p here passed ahead).2.tokens <:+ here :: ahead := by
  induction ahead generalizing p here passed with
  | nil => exact List.suffix_refl _
  | cons t ts ih =>
    unfold joinAll
    split
    · exact (ih _ _ _).trans (List.suffix_cons _ _)
    · exact List.suffix_refl _

theorem forward_joinRest (p : FieldPath) : Forward (joinRest p) := by
  intro c q c' h
  have ends := joinAll_tokens_suffix p c.here c.passed c.ahead
  rwa [Except.ok.inj h] at ends

theorem forward_path (expected : String) : Forward (path expected) :=
  forward_peek.bind fun _ => forward_ite
    (forward_discard_next.bind fun _ => forward_joinRest _) (forward_refuse _ _)

theorem forward_text (expected : String) : Forward (text expected) :=
  (forward_path expected).bind fun _ => forward_pure _

theorem forward_value (expected : String) : Forward (value expected) :=
  (forward_skip _).bind fun _ => forward_text expected

theorem forward_assignment : Forward assignment :=
  (forward_text _).bind fun _ => (forward_expect _).bind fun _ =>
    (forward_text _).bind fun _ => forward_pure _

theorem forward_assignments : Forward assignments :=
  (forward_expect _).bind fun _ => (forward_commaList forward_assignment).bind fun _ =>
    (forward_expect _).bind fun _ => forward_pure _

/-- The segments of a column are the first tokens ahead. -/
theorem moreSegments_tokens_suffix (c : Cursor) :
    (moreSegments c).2.tokens <:+ c.tokens := by
  fun_induction moreSegments c with
  | case1 c atDot behind atStar =>
    exact behind.advance_tokens_suffix.trans c.advance_tokens_suffix
  | case2 c atDot behind _ continues segments dangling c' h ih =>
    rw [h] at ih
    exact ih.trans (behind.advance_tokens_suffix.trans c.advance_tokens_suffix)
  | case3 c atDot behind => exact c.advance_tokens_suffix
  | case4 c => exact List.suffix_refl _

theorem forward_segments : Forward segments := by
  intro c r c' h
  have ends := moreSegments_tokens_suffix c
  rwa [Except.ok.inj h] at ends

theorem forward_rename : Forward rename :=
  forward_discard_next.bind fun _ => (forward_text _).bind fun _ => forward_pure _

theorem forward_column (mayRename : Bool) : Forward (column mayRename) := by
  refine forward_peek.bind fun first => forward_ite ?_ (forward_ite ?_ (forward_refuse _ _))
  · exact forward_discard_next.bind fun _ => forward_pure _
  · exact forward_discard_next.bind fun _ => forward_segments.bind fun _ =>
      (forward_whenAt forward_rename _).bind fun _ => (forward_spanFrom _).bind fun _ =>
        forward_pure _

theorem forward_bucketCount : Forward bucketCount :=
  forward_discard_next.bind fun _ => (forward_text _).bind fun _ => (forward_expect _).bind fun _ =>
    forward_pure _

theorem forward_bucketing : Forward bucketing :=
  (forward_whenAt (forward_commaList (forward_path _)) _).bind fun _ =>
    (forward_whenAt forward_bucketCount _).bind fun _ => forward_pure _

theorem forward_emptyCall : Forward emptyCall := by
  intro c a c' h
  unfold emptyCall at h
  split at h
  · cases h
    exact c.advance.advance_tokens_suffix.trans c.advance_tokens_suffix
  · cases h
    exact List.suffix_refl _

theorem forward_marker : Forward marker :=
  forward_next.bind fun _ => forward_pure _

theorem forward_tagValue : Forward tagValue := by
  refine forward_peek.bind fun t => forward_ite (forward_pure _)
    (forward_ite ?_ (forward_ite ?_ (forward_refuse _ _)))
  · exact forward_marker.bind fun _ => (forward_text _).bind fun _ => forward_pure _
  · exact forward_marker.bind fun _ => (forward_whenAt ((forward_text _).map _) _).bind fun _ =>
      forward_pure _

theorem forward_tagEntry : Forward tagEntry :=
  forward_peek.bind fun _ => (forward_text _).bind fun _ => forward_tagValue.bind fun _ =>
    (forward_spanFrom _).bind fun _ => forward_pure _

theorem forward_tagEntries : Forward tagEntries :=
  (forward_expect _).bind fun _ => (forward_whenAt (forward_commaList forward_tagEntry) _).bind
    fun _ => (forward_expect _).bind fun _ => forward_pure _

/-- Every clause goes forward behind its keyword. -/
theorem forward_ofKeyword (first : Token) (k : Keyword) :
    Forward (clauseBody.ofKeyword first k) := by
  unfold clauseBody.ofKeyword
  split
  · exact forward_pure _
  · exact (forward_value _).bind fun _ => forward_pure _
  · exact (forward_commaList (forward_column _)).bind fun _ => forward_pure _
  · exact (forward_commaList (forward_column _)).bind fun _ => forward_pure _
  · exact (forward_commaList (forward_path _)).bind fun _ => forward_pure _
  · exact forward_bucketing
  · exact forward_bucketing
  · exact (forward_value _).bind fun _ => (forward_whenAt forward_assignments _).bind fun _ =>
      forward_pure _
  · exact (forward_skip _).bind fun _ => (forward_path _).bind fun _ =>
      forward_emptyCall.bind fun _ => forward_pure _
  · exact forward_tagEntries.bind fun _ => forward_pure _
  · exact forward_tagEntries.bind fun _ => forward_pure _
  · exact (forward_skip _).bind fun _ => (forward_expect _).bind fun _ =>
      (forward_commaList (forward_text _)).bind fun _ => (forward_expect _).bind fun _ =>
        forward_pure _
  · exact (forward_skip _).bind fun _ => forward_assignments.bind fun _ => forward_pure _
  · exact forward_refuse _ _

theorem forward_clauseBody (first : Token) : Forward (clauseBody first) := by
  unfold clauseBody
  split
  · exact forward_ofKeyword _ _
  · exact forward_refuse _ _

/-- A clause begins by passing the token at hand. -/
theorem clause_tokens_suffix {c c' : Cursor} {a : Located Clause}
    (h : clause c = .ok (a, c')) : c'.tokens <:+ c.advance.tokens := by
  have forward : Forward (do
      let body ← clauseBody c.here
      let span ← spanFrom c.here.span
      return ⟨body, span⟩ : Parser (Located Clause)) :=
    (forward_clauseBody _).bind fun _ => (forward_spanFrom _).bind fun _ => forward_pure _
  exact forward c.advance a c' h

theorem forward_clause : Forward clause :=
  fun c _ _ h => (clause_tokens_suffix h).trans c.advance_tokens_suffix

theorem forward_name (expected : String) : Forward (name expected) :=
  (forward_path expected).bind fun _ => forward_peek.bind fun _ =>
    forward_ite (forward_refuse _ _) (forward_pure _)

theorem forward_verbAndTarget : Forward verbAndTarget := by
  have into (mode : WriteMode) : Forward (verbAndTarget.intoTarget mode) :=
    forward_next.bind fun _ => (forward_expect _).bind fun _ => (forward_name _).bind fun _ =>
      forward_pure _
  refine forward_peek.bind fun first => ?_
  split
  · exact into _
  · exact into _
  · exact into _
  · exact forward_pure _
  · exact forward_refuse _ _

theorem forward_opening : Forward opening :=
  forward_peek.bind fun _ => forward_verbAndTarget.bind fun _ => (forward_expect _).bind fun _ =>
    (forward_commaList (forward_column _)).bind fun _ => (forward_expect _).bind fun _ =>
      (forward_name _).bind fun _ => forward_pure _

/-! ## The clauses come to an end -/

/-- The tokens from a cursor on close with the end of the text. -/
def ClosedByEnd (c : Cursor) : Prop :=
  ∃ t, c.tokens.getLast? = some t ∧ t.kind = .endOfText

/-- The end of the text still closes what is left of the tokens. -/
theorem ClosedByEnd.of_suffix {c c' : Cursor} (h : ClosedByEnd c) (hs : c'.tokens <:+ c.tokens) :
    ClosedByEnd c' := by
  obtain ⟨t, ht, hk⟩ := h
  obtain ⟨before, hb⟩ := hs
  refine ⟨t, ?_, hk⟩
  rw [← hb] at ht
  simpa [Cursor.tokens, List.getLast?_append] using ht

/-- On tokens that the end of the text closes, the clauses are read within their fuel:
    each takes its keyword at least. -/
theorem clauses_isSome {c : Cursor} (h : ClosedByEnd c) : (clauses c).isSome := by
  fun_induction clauses c with
  | case1 c stop => rfl
  | case2 c stop e he => rfl
  | case3 c stop a c' hc shorter ih =>
    rw [Option.isSome_map]
    exact ih (h.of_suffix (forward_clause _ _ _ hc))
  | case4 c stop a c' hc stuck =>
    -- the last token is the end of the text, so the keyword is not the last one
    exfalso
    have ahead : c.ahead ≠ [] := by
      intro nil
      obtain ⟨t, ht, hk⟩ := h
      simp only [Cursor.tokens, nil, List.getLast?_singleton, Option.some.injEq] at ht
      exact stop (.inr (ht ▸ hk))
    have pos := List.length_pos_iff.2 ahead
    have le := (clause_tokens_suffix hc).length_le
    simp only [Cursor.tokens, List.length_cons, Cursor.advance_ahead_length] at le
    omega

end Parser

namespace Statement

/-- On tokens that the end of the text closes, a statement is read to an end. -/
theorem ofTokens?_isSome {width : Nat} {tokens : List Token}
    (h : Parser.ClosedByEnd (Cursor.ofTokens width tokens)) :
    (ofTokens? width tokens).isSome := by
  unfold ofTokens?
  split
  · rfl
  · rename_i opened c hc
    rw [Option.isSome_map]
    exact Parser.clauses_isSome (h.of_suffix (Parser.forward_opening _ _ _ hc))

/-- The tokens of a text are closed by its end. -/
theorem closedByEnd_tokenize (text : String) (width : Nat) :
    Parser.ClosedByEnd (Cursor.ofTokens width (Token.tokenize text)) := by
  have tokens : (Cursor.ofTokens width (Token.tokenize text)).tokens = Token.tokenize text := by
    unfold Token.tokenize
    cases Token.scan 0 text.toList <;> rfl
  refine ⟨.endAt (Text.width text.toList), ?_, rfl⟩
  rw [tokens, Token.tokenize, List.getLast?_concat]

/-- Reading the tokens of a text has an answer. -/
theorem ofTokens?_tokenize_isSome (text : String) :
    (ofTokens? (Text.width text.toList) (Token.tokenize text)).isSome :=
  ofTokens?_isSome (closedByEnd_tokenize text _)

end Statement

end ConnectorQuery
