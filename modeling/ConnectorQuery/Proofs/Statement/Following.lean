import ConnectorQuery.Proofs.Grammar.Soundness
import ConnectorQuery.Proofs.Statement.Unguarded

/-!
# Reading without guards follows reading with guards

A parser without guards *follows* one with guards where it has an outcome, the same one,
and has consumed no end of the text on the way (`FollowsFrom`). The property is closed under
sequencing, so it holds of every phrase whose loops end. What ends a loop at the last token,
which stays at hand when it is consumed, is another fact each time:

* `follows_commaList`: the items of a list refuse a comma;
* `follows_joinNext`: no token is empty, so none sticks to itself;
* `follows_nextSegment`: a dot does not continue a column.

The loop over the clauses is left out here: it need not end.
-/

namespace ConnectorQuery

variable {α β : Type}

/-! ## Phrases that some token cannot open -/

namespace Parser

variable {p q : Parser α} {f : α → Parser β} {k : TokenKind}

/-- The parser `p` refuses every token of the kind `k`. -/
def Refuses (k : TokenKind) (p : Parser α) : Prop :=
  ∀ ⦃c : Cursor⦄ ⦃r : α × Cursor⦄, c.here.kind = k → p c ≠ .ok r

theorem refuses_refuse (expected : String) (found : Token) :
    Refuses k (refuse expected found : Parser α) :=
  fun _ _ _ => refuse_ne_ok

/-- What refuses a token refuses it whatever comes behind. -/
theorem Refuses.bind (h : Refuses k p) : Refuses k (p >>= f) := by
  intro c r hc hr
  obtain ⟨a, c₁, hp, -⟩ := bind_eq_ok.1 hr
  exact h hc hp

/-- A parser that looks first refuses a token if it does so for the look that it gets. -/
theorem refuses_peek {f : Token → Parser α} (h : ∀ t, t.kind = k → Refuses k (f t)) :
    Refuses k (peek >>= f) :=
  fun c _ hc => h c.here hc hc

theorem Refuses.ite {b : Bool} (h : Refuses k p) (hb : b = false) :
    Refuses k (if b then q else p) := by
  rwa [hb, if_neg Bool.false_ne_true]

/-- A parser for one kind of token refuses all other kinds. -/
theorem refuses_expect {k' : TokenKind} (h : k ≠ k') : Refuses k (expect k') :=
  refuses_peek fun _ ht => (refuses_refuse _ _).ite (beq_false_of_ne (ht ▸ h))

/-- What may be skipped does not matter where it is not at hand. -/
theorem Refuses.skip_bind {k' : TokenKind} {f : Unit → Parser β} (h : Refuses k (f ()))
    (hk : k ≠ k') : Refuses k (skip k' >>= f) := by
  intro c r hc hr
  obtain ⟨_, c₁, hp, hr⟩ := bind_eq_ok.1 hr
  rw [skip, whenAt, hc, beq_false_of_ne hk, if_neg Bool.false_ne_true] at hp
  cases hp
  exact h hc hr

/-- A name opens with a token that is a value. -/
theorem refuses_path (expected : String) (hk : k.isValue = false) :
    Refuses k (path expected) :=
  refuses_peek fun _ ht => (refuses_refuse _ _).ite (ht ▸ hk)

theorem refuses_text (expected : String) (hk : k.isValue = false) :
    Refuses k (text expected) :=
  (refuses_path expected hk).bind

/-- A column opens with a value or a star. -/
theorem refuses_column (mayRename : Bool) (hk : k.isValue = false) (hstar : k ≠ .mark .star) :
    Refuses k (column mayRename) :=
  refuses_peek fun _ ht => ((refuses_refuse _ _).ite (ht ▸ hk)).ite
    (beq_false_of_ne (ht ▸ hstar))

/-- A tag opens with a value. -/
theorem refuses_tagEntry (hk : k.isValue = false) : Refuses k tagEntry :=
  refuses_peek fun _ _ => (refuses_text _ hk).bind

end Parser

namespace Unguarded

/-! ## One step at a time -/

section

variable {p : Run α} {f : α → Run β} {s s' : State}

/-- Behind an answer a run goes on from it. -/
theorem bind_of_ok {a : α} (h : p s = some (.ok a, s')) : (p >>= f) s = f a s' := by
  change (p s >>= fun r => _) = _
  rw [h]
  rfl

/-- Behind a refusal a run ends. -/
theorem bind_of_error {e : GrammarError} (h : p s = some (.error e, s')) :
    (p >>= f) s = some (.error e, s') := by
  change (p s >>= fun r => _) = _
  rw [h]
  rfl

/-- Behind a step without end there is none either. -/
theorem bind_of_none (h : p s = none) : (p >>= f) s = none := by
  change (p s >>= fun r => _) = _
  rw [h]
  rfl

end

/-- All tokens from the place on take up some text, but the end of the text, which was not
    consumed since the record was `record`. -/
structure State.Sound (record : List Token) (s : State) : Prop where
  wide : ∀ t ∈ s.place.tokens, t.kind ≠ .endOfText → t.span.start < t.span.stop
  consumed : ∃ passed, s.consumed = passed ++ record ∧ ∀ t ∈ passed, t.kind ≠ .endOfText

/-- The state stays sound behind a token that is not the last one. -/
theorem State.Sound.pass {record : List Token} {s : State} (sound : s.Sound record)
    (notEnd : s.place.here.kind ≠ .endOfText) : s.pass.Sound record where
  wide t ht := sound.wide t (s.place.advance_tokens_suffix.mem ht)
  consumed := by
    obtain ⟨passed, consumed, noEnd⟩ := sound.consumed
    exact ⟨s.place.here :: passed, congrArg (s.place.here :: ·) consumed,
      List.forall_mem_cons.2 ⟨notEnd, noEnd⟩⟩

/-- From `s` on, `p` has the outcome of `q`, and consumes no end of the text. -/
def FollowsFrom (record : List Token) (s : State) (p : Run α) (q : Parser α) : Prop :=
  ∃ r s', p s = some (r, s') ∧ s'.Sound record ∧ q s.place = r.map fun a => (a, s'.place)

/-- Wherever the token at hand is as `C` says, `p` follows `q`. -/
def FollowsAt (C : Token → Prop) (p : Run α) (q : Parser α) : Prop :=
  ∀ record s, s.Sound record → C s.place.here → FollowsFrom record s p q

/-- Everywhere `p` follows `q`. -/
abbrev Follows (p : Run α) (q : Parser α) : Prop :=
  FollowsAt (fun _ => True) p q

section

variable {C D : Token → Prop} {p p' : Run α} {q q' : Parser α} {f : α → Run β}
  {g : α → Parser β} {record : List Token} {s : State}

/-- Where the parser answers, so does the run, at the same place. -/
theorem FollowsFrom.exists_ok (h : FollowsFrom record s p q) {a : α} {c : Cursor}
    (hq : q s.place = .ok (a, c)) :
    ∃ s', p s = some (.ok a, s') ∧ s'.Sound record ∧ s'.place = c := by
  obtain ⟨r, s', run, sound', same⟩ := h
  rw [hq] at same
  cases r with
  | error e => cases same
  | ok b =>
    cases same
    exact ⟨s', run, sound', rfl⟩

/-- Where the parser refuses, so does the run. -/
theorem FollowsFrom.exists_error (h : FollowsFrom record s p q) {e : GrammarError}
    (hq : q s.place = .error e) : ∃ s', p s = some (.error e, s') ∧ s'.Sound record := by
  obtain ⟨r, s', run, sound', same⟩ := h
  rw [hq] at same
  cases r with
  | error e' =>
    cases same
    exact ⟨s', run, sound'⟩
  | ok b => cases same

/-- A run that follows a parser ends, and with the outcome of the parser. -/
theorem FollowsFrom.exists_run (h : FollowsFrom record s p q) :
    ∃ s', p s = some ((q s.place).map (·.1), s') ∧ s'.Sound record := by
  obtain ⟨r, s', run, sound', same⟩ := h
  rw [same]
  cases r <;> exact ⟨s', run, sound'⟩

/-- A run follows a parser at fewer places as well. -/
theorem FollowsAt.mono (h : FollowsAt C p q) (hD : ∀ t, D t → C t) : FollowsAt D p q :=
  fun record s sound hs => h record s sound (hD _ hs)

/-- At a token `t` that is as `C` says. -/
theorem FollowsAt.at (h : FollowsAt C p q) {t : Token} (ht : C t) : FollowsAt (· = t) p q :=
  h.mono fun _ eq => eq ▸ ht

/-- Runs in a row follow parsers in a row, if each follows its own wherever it begins. -/
theorem FollowsAt.bind (h : FollowsAt C p q) (hf : ∀ a, Follows (f a) (g a)) :
    FollowsAt C (p >>= f) (q >>= g) := by
  intro record s sound hs
  have follows := h record s sound hs
  have step : (q >>= g) s.place = q s.place >>= fun r => g r.1 r.2 := rfl
  rw [FollowsFrom, step]
  cases hq : q s.place with
  | error e =>
    obtain ⟨s', run, sound'⟩ := follows.exists_error hq
    exact ⟨.error e, s', bind_of_error run, sound', rfl⟩
  | ok r =>
    obtain ⟨a, c⟩ := r
    obtain ⟨s', run, sound', rfl⟩ := follows.exists_ok hq
    rw [bind_of_ok run]
    exact hf a record s' sound' trivial

theorem followsAt_pure (a : α) : FollowsAt C (pure a) (pure a) :=
  fun _ s sound _ => ⟨.ok a, s, rfl, sound, rfl⟩

theorem followsAt_refuse (expected : String) (found : Token) :
    FollowsAt C (refuse expected found : Run α) (Parser.refuse expected found) :=
  fun _ s sound _ => ⟨_, s, rfl, sound, rfl⟩

theorem FollowsAt.map (h : FollowsAt C p q) (f : α → β) : FollowsAt C (f <$> p) (f <$> q) := by
  rw [map_eq_pure_bind, map_eq_pure_bind]
  exact h.bind fun _ => followsAt_pure _

/-- What is done next may depend on the token at hand. -/
theorem followsAt_peek {f : Token → Run β} {g : Token → Parser β}
    (h : ∀ t, C t → FollowsAt (· = t) (f t) (g t)) :
    FollowsAt C (peek >>= f) (Parser.peek >>= g) :=
  fun record s sound hs => h s.place.here hs record s sound rfl

/-- A choice is followed if each branch is where it is taken. -/
theorem followsAt_ite {b : Bool} (h : b = true → FollowsAt C p q)
    (h' : b = false → FollowsAt C p' q') :
    FollowsAt C (if b then p else p') (if b then q else q') := by
  cases b with
  | false => exact h' rfl
  | true => exact h rfl

/-- A phrase that may be missing is followed if it is where it stands. -/
theorem follows_whenAt {wanted : Token → Bool} (h : FollowsAt (wanted · = true) p q)
    (otherwise : α) : Follows (whenAt wanted p otherwise) (Parser.whenAt wanted q otherwise) := by
  have looks : Follows (whenAt wanted p otherwise)
      (Parser.peek >>= fun t => if wanted t then q else pure otherwise) :=
    followsAt_peek fun t _ => followsAt_ite (fun at_t => h.mono fun _ ht => ht ▸ at_t)
      fun _ => followsAt_pure otherwise
  intro record s sound _
  have same : Parser.whenAt wanted q otherwise s.place =
      (Parser.peek >>= fun t => if wanted t then q else pure otherwise) s.place := by
    rw [Parser.whenAt, Parser.peek_bind, Parser.ite_apply]
    rfl
  rw [FollowsFrom, same]
  exact looks record s sound trivial

/-- In front of the end, to take a token is to move to the next one. At the end it is not:
    there the run stays, and so the end is left out here and below. -/
theorem followsAt_next : FollowsAt (·.kind ≠ .endOfText) next Parser.next :=
  fun _ s sound notEnd => ⟨_, s.pass, rfl, sound.pass notEnd, rfl⟩

theorem followsAt_discard_next :
    FollowsAt (·.kind ≠ .endOfText) (discard next) (discard Parser.next) :=
  followsAt_next.map _

/-- To take a token of one kind is followed for all kinds but the end. -/
theorem follows_expect {k : TokenKind} (hk : k ≠ .endOfText) :
    Follows (expect k) (Parser.expect k) :=
  followsAt_peek fun _ _ => followsAt_ite
    (fun at_k => followsAt_discard_next.at (beq_iff_eq.1 at_k ▸ hk)) fun _ => followsAt_refuse _ _

theorem follows_mark (m : Mark) : Follows (expect (.mark m)) (Parser.expect (.mark m)) :=
  follows_expect nofun

theorem follows_keyword (k : Keyword) :
    Follows (expect (.keyword k)) (Parser.expect (.keyword k)) :=
  follows_expect nofun

theorem follows_skip (m : Mark) : Follows (skip (.mark m)) (Parser.skip (.mark m)) := by
  refine follows_whenAt (followsAt_discard_next.mono fun t at_m => ?_) _
  rw [beq_iff_eq.1 at_m]
  exact nofun

theorem follows_spanFrom (start : Span) : Follows (spanFrom start) (Parser.spanFrom start) :=
  fun _ s sound _ => ⟨_, s, rfl, sound, rfl⟩

end

/-! ## Loops -/

section

variable {β γ : Type} {step : Step β γ} {b b' : β} {s s' : State}

/-- A round that asks for more is the first one of the loop. -/
theorem loop_of_more (h : step b s = some (.ok (.inl b'), s')) :
    step.loop b s = step.loop b' s' := by
  rw [Step.loop, h]

/-- A round that is done ends the loop. -/
theorem loop_of_done {c : γ} (h : step b s = some (.ok (.inr c), s')) :
    step.loop b s = some (.ok c, s') := by
  rw [Step.loop, h]

/-- A round that refuses ends the loop. -/
theorem loop_of_error {e : GrammarError} (h : step b s = some (.error e, s')) :
    step.loop b s = some (.error e, s') := by
  rw [Step.loop, h]

/-- A loop that is always taken round once more does not end. -/
theorem loop_eq_none {P : β → State → Prop}
    (again : ∀ b s, P b s → ∃ b' s', step b s = some (.ok (.inl b'), s') ∧ P b' s') (h : P b s) :
    step.loop b s = none := by
  -- whatever outcome there was, there was the same one the next time round
  have never : ∀ b s r, step.loop b s = some r → ¬ P b s := by
    apply Step.loop.partial_correctness
    intro loop ih b s r hr hP
    obtain ⟨b', s', hstep, hP'⟩ := again b s hP
    rw [hstep] at hr
    exact ih b' s' r hr hP'
  cases hr : step.loop b s with
  | none => rfl
  | some r => exact absurd h (never b s r hr)

end

/-! ## Lists -/

section

variable {item : Run α} {item' : Parser α} {as : List α}

/-- Behind a comma there is one more item. -/
theorem nextItem_of_comma {s : State} (atComma : s.place.here.kind = .mark .comma) :
    nextItem item as s = (item >>= fun a => pure (.inl (as ++ [a]))) s.pass := by
  change (if s.place.here.kind == .mark .comma then _ else _ : Run _) s = _
  rw [atComma]
  rfl

/-- Without a comma the list is done. -/
theorem nextItem_of_ne {s : State} (notComma : s.place.here.kind ≠ .mark .comma) :
    nextItem item as s = some (.ok (.inr as), s) := by
  change (if s.place.here.kind == .mark .comma then _ else _ : Run _) s = _
  rw [beq_false_of_ne notComma]
  rfl

/-- An item behind a comma takes the run to where it takes the parser. -/
theorem exists_nextItem (h : Follows item item') {record : List Token} {s : State}
    (sound : s.Sound record) (atComma : s.place.here.kind = .mark .comma) {a : α} {c : Cursor}
    (ha : item' s.place.advance = .ok (a, c)) (as : List α) :
    ∃ s', nextItem item as s = some (.ok (.inl (as ++ [a])), s') ∧ s'.Sound record ∧
      s'.place = c := by
  have follows := h record s.pass (sound.pass (by simp [atComma])) trivial
  obtain ⟨s', run, sound', place⟩ := follows.exists_ok ha
  exact ⟨s', (nextItem_of_comma atComma).trans (bind_of_ok run), sound', place⟩

/-- An item that refuses a comma gets past the one in front of it. -/
theorem ahead_length_lt_of_refuses (forward : Parser.Forward item')
    (refuses : Parser.Refuses (.mark .comma) item') {c c' : Cursor} {a : α}
    (atComma : c.here.kind = .mark .comma) (h : item' c.advance = .ok (a, c')) :
    c'.ahead.length < c.ahead.length := by
  have moved : c.ahead ≠ [] := by
    intro last
    -- the last token is at hand again
    rw [Cursor.advance_eq_self last] at h
    exact refuses atComma h
  have le := (forward _ _ _ h).length_le
  have pos := List.length_pos_iff.2 moved
  simp only [Cursor.tokens, List.length_cons, Cursor.advance_ahead_length] at le
  omega

/-- The rounds of a list follow the items of the parser behind a comma. The items left
    ahead become fewer with each round, which is why every item has to move on and may not
    begin with a comma. -/
theorem follows_nextItem (h : Follows item item') (forward : Parser.Forward item')
    (refuses : Parser.Refuses (.mark .comma) item') (as : List α) :
    Follows ((nextItem item).loop as)
      (Parser.moreItems item' >>= fun more => pure (as ++ more)) := by
  intro record s sound _
  change ∃ r s', (nextItem item).loop as s = some (r, s') ∧ s'.Sound record ∧
    Except.bind (Parser.moreItems item' s.place) (fun r => .ok (as ++ r.1, r.2)) =
      r.map fun a => (a, s'.place)
  generalize hc : s.place = c
  fun_induction Parser.moreItems item' c generalizing s as with
  | case1 c atComma e he =>
    subst hc
    have follows := h record s.pass (sound.pass (by simp [atComma])) trivial
    obtain ⟨s₁, run, sound₁⟩ := follows.exists_error he
    have round : nextItem item as s = some (.error e, s₁) :=
      (nextItem_of_comma atComma).trans (bind_of_error run)
    exact ⟨.error e, s₁, loop_of_error round, sound₁, rfl⟩
  | case2 c atComma a c₁ h₁ shorter e he ih =>
    subst hc
    obtain ⟨s₁, round, sound₁, rfl⟩ := exists_nextItem h sound atComma h₁ as
    obtain ⟨r, s₂, run, sound₂, same⟩ := ih (as ++ [a]) s₁ sound₁ rfl
    rw [he] at same
    exact ⟨r, s₂, (loop_of_more round).trans run, sound₂, same⟩
  | case3 c atComma a c₁ h₁ shorter more c₂ h₂ ih =>
    subst hc
    obtain ⟨s₁, round, sound₁, rfl⟩ := exists_nextItem h sound atComma h₁ as
    obtain ⟨r, s₂, run, sound₂, same⟩ := ih (as ++ [a]) s₁ sound₁ rfl
    rw [h₂, Except.bind, List.append_assoc] at same
    exact ⟨r, s₂, (loop_of_more round).trans run, sound₂, same⟩
  -- an item behind a comma takes a token, so the guard never stops the list
  | case4 c atComma a c₁ h₁ stays =>
    exact absurd (ahead_length_lt_of_refuses forward refuses atComma h₁) stays
  | case5 c notComma =>
    subst hc
    exact ⟨_, s, loop_of_done (nextItem_of_ne notComma), sound, by simp [Except.bind, Except.map]⟩

/-- Lists follow lists, if their items do. -/
theorem follows_commaList (h : Follows item item') (forward : Parser.Forward item')
    (refuses : Parser.Refuses (.mark .comma) item') :
    Follows (commaList item) (Parser.commaList item') :=
  h.bind fun a => follows_nextItem h forward refuses [a]

end

/-! ## Names and values -/

/-- A token that sticks to the name before it is joined to it. -/
theorem joinNext_of_sticks {p : FieldPath} {s : State}
    (sticks : Parser.sticksTo s.place.here p = true) :
    joinNext p s = some (.ok (.inl (Parser.join p s.place.here)), s.pass) := by
  change (if Parser.sticksTo s.place.here p then _ else _ : Run _) s = _
  rw [sticks]
  rfl

/-- A token that stands apart ends the name. -/
theorem joinNext_of_apart {p : FieldPath} {s : State}
    (apart : Parser.sticksTo s.place.here p = false) : joinNext p s = some (.ok (.inr p), s) := by
  change (if Parser.sticksTo s.place.here p then _ else _ : Run _) s = _
  rw [apart]
  rfl

/-- What sticks to a name is no end of the text. -/
theorem ne_endOfText_of_sticksTo {t : Token} {p : FieldPath} (h : Parser.sticksTo t p = true) :
    t.kind ≠ .endOfText := by
  intro atEnd
  simp [Parser.sticksTo, atEnd, TokenKind.isValue, TokenKind.isKeyword] at h

/-- A token that takes up some text does not stick to itself. -/
theorem sticksTo_join_self {t : Token} (wide : t.span.start < t.span.stop) (p : FieldPath) :
    Parser.sticksTo t (Parser.join p t) = false := by
  have before : t.span.start ≠ max p.name.span.stop t.span.stop := by omega
  have gap : t.startsAt (Parser.join p t).name.span.stop = false := beq_false_of_ne before
  rw [Parser.sticksTo, gap, Bool.false_and]

/-- Names are joined until a token stands apart; the tokens ahead become fewer with each round. -/
theorem follows_joinNext (p : FieldPath) : Follows (joinNext.loop p) (Parser.joinRest p) := by
  rintro record ⟨⟨here, ahead, passed⟩, consumed⟩ sound -
  change ∃ r s', joinNext.loop p ⟨⟨here, ahead, passed⟩, consumed⟩ = some (r, s') ∧
    s'.Sound record ∧ .ok (Parser.joinAll p here passed ahead) = r.map fun a => (a, s'.place)
  induction ahead generalizing p here passed consumed with
  | nil =>
    unfold Parser.joinAll
    cases sticks : Parser.sticksTo here p with
    | false => exact ⟨_, _, loop_of_done (joinNext_of_apart sticks), sound, rfl⟩
    | true =>
      -- the last token is at hand again, and does not begin where the longer name ends
      have notEnd := ne_endOfText_of_sticksTo sticks
      have wide := sound.wide here List.mem_cons_self notEnd
      refine ⟨.ok (Parser.join p here), _, ?_, sound.pass notEnd, rfl⟩
      rw [loop_of_more (joinNext_of_sticks sticks)]
      exact loop_of_done (joinNext_of_apart (sticksTo_join_self wide p))
  | cons t ts ih =>
    unfold Parser.joinAll
    cases sticks : Parser.sticksTo here p with
    | false => exact ⟨_, _, loop_of_done (joinNext_of_apart sticks), sound, rfl⟩
    | true =>
      rw [loop_of_more (joinNext_of_sticks sticks)]
      exact ih _ _ _ _ (sound.pass (ne_endOfText_of_sticksTo sticks))

theorem follows_path (expected : String) : Follows (path expected) (Parser.path expected) :=
  followsAt_peek fun _ _ => followsAt_ite
    (fun isValue => (followsAt_discard_next.at (TokenKind.ne_endOfText_of_isValue isValue)).bind
      fun _ => follows_joinNext _)
    fun _ => followsAt_refuse _ _

theorem follows_text (expected : String) : Follows (text expected) (Parser.text expected) :=
  (follows_path _).bind fun _ => followsAt_pure _

theorem follows_name (expected : String) : Follows (name expected) (Parser.name expected) :=
  (follows_path _).bind fun _ => followsAt_peek fun _ _ =>
    followsAt_ite (fun _ => followsAt_refuse _ _) fun _ => followsAt_pure _

theorem follows_value (expected : String) : Follows (value expected) (Parser.value expected) :=
  (follows_skip _).bind fun _ => follows_text _

theorem follows_assignment : Follows assignment Parser.assignment :=
  (follows_text _).bind fun _ => (follows_mark _).bind fun _ =>
    (follows_text _).bind fun _ => followsAt_pure _

theorem follows_assignments : Follows assignments Parser.assignments :=
  (follows_mark _).bind fun _ =>
    (follows_commaList follows_assignment Parser.forward_assignment
      (Parser.refuses_text _ rfl).bind).bind fun _ =>
      (follows_mark _).bind fun _ => followsAt_pure _

/-! ## Columns -/

/-- One round over the segments of a column, written out: there is a dot or not, and
    behind it a star, a segment that sticks to it, or neither. -/
theorem nextSegment_run (front : List String) (s : State) : nextSegment front s =
    if s.place.here.kind = .mark .dot then
      if s.pass.place.here.kind = .mark .star then
        some (.ok (.inr (front ++ ["*"], false)), s.pass.pass)
      else if Parser.continuesBehind s.pass.place.here s.place.here then
        some (.ok (.inl (front ++ [s.pass.place.here.value])), s.pass.pass)
      else some (.ok (.inr (front, true)), s.pass)
    else some (.ok (.inr (front, false)), s) := by
  -- each look is at the token at hand, and each step passes it
  change (if s.place.here.kind == .mark .dot then _ else _ : Run _) s = _
  by_cases atDot : s.place.here.kind = .mark .dot
  · rw [if_pos atDot, beq_iff_eq.2 atDot]
    change (if s.pass.place.here.kind == .mark .star then _ else _ : Run _) s.pass = _
    by_cases atStar : s.pass.place.here.kind = .mark .star
    · rw [if_pos atStar, beq_iff_eq.2 atStar]
      rfl
    · rw [if_neg atStar, beq_false_of_ne atStar]
      change (if Parser.continuesBehind s.pass.place.here s.place.here then _ else _ : Run _) _ = _
      split <;> rfl
  · rw [if_neg atDot, beq_false_of_ne atDot]
    rfl

/-- A dot does not continue a column, so the dots end with the tokens. -/
theorem follows_nextSegment (front : List String) : Follows (nextSegment.loop front)
    (Parser.segments >>= fun r => pure (front ++ r.1, r.2)) := by
  intro record s sound _
  change ∃ r s', nextSegment.loop front s = some (r, s') ∧ s'.Sound record ∧
    .ok ((front ++ (Parser.moreSegments s.place).1.1, (Parser.moreSegments s.place).1.2),
      (Parser.moreSegments s.place).2) = r.map fun a => (a, s'.place)
  generalize hc : s.place = c
  -- the loop has put `front` aside, the recursion has not: it is generalized in the induction
  fun_induction Parser.moreSegments c generalizing s front with
  | case1 c atDot behind atStar =>
    subst hc
    have notEnd : s.pass.place.here.kind ≠ .endOfText := by
      intro atEnd
      cases atStar.symm.trans atEnd
    have round := (nextSegment_run front s).trans ((if_pos atDot).trans (if_pos atStar))
    exact ⟨_, _, loop_of_done round, (sound.pass (by simp [atDot])).pass notEnd, rfl⟩
  | case2 c atDot behind notStar continues more dangling c' h ih =>
    subst hc
    -- a token that continues a column is not the end, so the loop gets past it
    have notEnd : s.pass.place.here.kind ≠ .endOfText := by
      intro atEnd
      have stops : Parser.continuesBehind s.pass.place.here s.place.here = false := by
        simp [Parser.continuesBehind, atEnd, TokenKind.isValue, TokenKind.isKeyword]
      exact absurd continues (Bool.eq_false_iff.1 stops)
    have round := (nextSegment_run front s).trans
      ((if_pos atDot).trans ((if_neg notStar).trans (if_pos continues)))
    obtain ⟨r, s', run, sound', same⟩ := ih (front ++ [behind.here.value]) s.pass.pass
      ((sound.pass (by simp [atDot])).pass notEnd) rfl
    rw [h, List.append_assoc] at same
    exact ⟨r, s', (loop_of_more round).trans run, sound', same⟩
  | case3 c atDot behind notStar apart =>
    subst hc
    have round := (nextSegment_run front s).trans
      ((if_pos atDot).trans ((if_neg notStar).trans (if_neg apart)))
    refine ⟨_, _, loop_of_done round, sound.pass (by simp [atDot]), ?_⟩
    rw [List.append_nil]
    rfl
  | case4 c notDot =>
    subst hc
    have round := (nextSegment_run front s).trans (if_neg notDot)
    refine ⟨_, s, loop_of_done round, sound, ?_⟩
    rw [List.append_nil]
    rfl

/-- A column is renamed in the same way. -/
theorem follows_rename : FollowsAt (·.kind ≠ .endOfText) rename Parser.rename :=
  followsAt_discard_next.bind fun _ => (follows_text _).bind fun _ => followsAt_pure _

/-- Columns follow columns, with a star or with segments. -/
theorem follows_column (mayRename : Bool) :
    Follows (column mayRename) (Parser.column mayRename) := by
  refine followsAt_peek fun first _ => followsAt_ite (fun atStar => ?_) fun _ =>
    followsAt_ite (fun isValue => ?_) fun _ => followsAt_refuse _ _
  · exact (followsAt_discard_next.at (by simp [beq_iff_eq.1 atStar])).bind fun _ => followsAt_pure _
  · have mayFollow : Follows (whenAt (fun t => mayRename && t.kind == .keyword .as) rename none)
        (Parser.whenAt (fun t => mayRename && t.kind == .keyword .as) Parser.rename none) :=
      follows_whenAt (follows_rename.mono fun t ht => by simp_all) _
    exact (followsAt_discard_next.at (TokenKind.ne_endOfText_of_isValue isValue)).bind fun _ =>
      (follows_nextSegment _).bind fun _ => mayFollow.bind fun _ => (follows_spanFrom _).bind
        fun _ => followsAt_pure _

theorem follows_columns (mayRename : Bool) :
    Follows (commaList (column mayRename)) (Parser.commaList (Parser.column mayRename)) :=
  follows_commaList (follows_column _) (Parser.forward_column _)
    (Parser.refuses_column _ rfl nofun)

theorem follows_paths (expected : String) :
    Follows (commaList (path expected)) (Parser.commaList (Parser.path expected)) :=
  follows_commaList (follows_path _) (Parser.forward_path _) (Parser.refuses_path _ rfl)

/-! ## Clauses -/

/-- The number of buckets, behind its keyword. -/
theorem follows_bucketCount : FollowsAt (·.kind ≠ .endOfText) bucketCount Parser.bucketCount :=
  followsAt_discard_next.bind fun _ => (follows_text _).bind fun _ =>
    (follows_keyword _).bind fun _ => followsAt_pure _

theorem follows_bucketing : Follows bucketing Parser.bucketing :=
  (follows_whenAt ((follows_paths _).mono fun _ _ => trivial) _).bind fun _ =>
    (follows_whenAt (follows_bucketCount.mono fun t at_into => by simp_all) _).bind fun _ =>
      followsAt_pure _

/-- The parentheses of a call hold nothing. -/
theorem follows_emptyCall : Follows emptyCall Parser.emptyCall := by
  intro record s sound _
  rw [FollowsFrom, emptyCall, Parser.emptyCall]
  split
  · rename_i call
    rw [Bool.and_eq_true, beq_iff_eq, beq_iff_eq] at call
    obtain ⟨opens, closes⟩ := call
    -- behind the last token stands the end of the text, so there is a token to pass
    have closes' : s.pass.place.here.kind = .mark .closeParen := by
      obtain ⟨⟨here, ahead, passed⟩, consumed⟩ := s
      cases ahead with
      | nil => cases closes
      | cons t ts => exact closes
    exact ⟨_, s.pass.pass, rfl, (sound.pass (by simp [opens])).pass (by simp [closes']), rfl⟩
  · exact ⟨_, s, rfl, sound, rfl⟩

/-- A marker of a tag is a token other than the end. -/
theorem follows_marker : FollowsAt (·.kind ≠ .endOfText) marker Parser.marker :=
  followsAt_next.bind fun _ => followsAt_pure _

theorem follows_tagValue : Follows tagValue Parser.tagValue := by
  refine followsAt_peek fun t _ => followsAt_ite (fun _ => followsAt_pure _) fun _ =>
    followsAt_ite (fun at_t => ?_) fun _ =>
      followsAt_ite (fun isValue => ?_) fun _ => followsAt_refuse _ _
  · exact (follows_marker.at (by grind)).bind fun _ => (follows_text _).bind fun _ =>
      followsAt_pure _
  · exact (follows_marker.at (TokenKind.ne_endOfText_of_isValue isValue)).bind fun _ =>
      (follows_whenAt (((follows_text _).map _).mono fun _ _ => trivial) _).bind fun _ =>
        followsAt_pure _

theorem follows_tagEntry : Follows tagEntry Parser.tagEntry :=
  followsAt_peek fun _ _ => ((follows_text _).mono fun _ _ => trivial).bind fun _ =>
    follows_tagValue.bind fun _ => (follows_spanFrom _).bind fun _ => followsAt_pure _

theorem follows_tagEntries : Follows tagEntries Parser.tagEntries :=
  (follows_mark _).bind fun _ =>
    (follows_whenAt ((follows_commaList follows_tagEntry Parser.forward_tagEntry
      (Parser.refuses_tagEntry rfl)).mono fun _ _ => trivial) _).bind fun _ =>
      (follows_mark _).bind fun _ => followsAt_pure _

/-- Clause by clause, what stands behind a keyword is read in the same way. -/
theorem follows_ofKeyword (first : Token) (k : Keyword) :
    Follows (ofKeyword first k) (Parser.clauseBody.ofKeyword first k) := by
  cases k with
  | flag f => exact followsAt_pure _
  | setting s => exact (follows_value _).bind fun _ => followsAt_pure _
  | primaryKey => exact (follows_columns _).bind fun _ => followsAt_pure _
  | ignore => exact (follows_columns _).bind fun _ => followsAt_pure _
  | partitionBy => exact (follows_paths _).bind fun _ => followsAt_pure _
  | distributeBy => exact follows_bucketing
  | clusterBy => exact follows_bucketing
  | storeAs =>
    exact (follows_value _).bind fun _ =>
      (follows_whenAt (follows_assignments.mono fun _ _ => trivial) _).bind fun _ =>
        followsAt_pure _
  | withTimestamp =>
    exact (follows_skip _).bind fun _ => (follows_path _).bind fun _ =>
      follows_emptyCall.bind fun _ => followsAt_pure _
  | withTag => exact follows_tagEntries.bind fun _ => followsAt_pure _
  | withTags => exact follows_tagEntries.bind fun _ => followsAt_pure _
  | withKey =>
    exact (follows_skip _).bind fun _ => (follows_mark _).bind fun _ =>
      (follows_commaList (follows_text _) (Parser.forward_text _)
        (Parser.refuses_text _ rfl)).bind fun _ =>
        (follows_mark _).bind fun _ => followsAt_pure _
  | properties =>
    exact (follows_skip _).bind fun _ => follows_assignments.bind fun _ => followsAt_pure _
  | _ => exact followsAt_refuse _ _

/-- What stands behind the token that opens a clause. -/
theorem follows_clauseBody (first : Token) :
    Follows (clauseBody first) (Parser.clauseBody first) := by
  unfold clauseBody Parser.clauseBody
  cases first.kind with
  | keyword k => exact follows_ofKeyword _ _
  | _ => exact followsAt_refuse _ _

/-- A clause in front of the end. -/
theorem followsAt_clause : FollowsAt (·.kind ≠ .endOfText) clause Parser.clause :=
  followsAt_next.bind fun _ => (follows_clauseBody _).bind fun _ => (follows_spanFrom _).bind
    fun _ => followsAt_pure _

/-! ## Statements -/

theorem follows_verbAndTarget : Follows verbAndTarget Parser.verbAndTarget := by
  have into (mode : WriteMode) : FollowsAt (·.kind ≠ .endOfText)
      (verbAndTarget.intoTarget mode) (Parser.verbAndTarget.intoTarget mode) :=
    followsAt_next.bind fun _ => (follows_keyword _).bind fun _ => (follows_name _).bind fun _ =>
      followsAt_pure _
  refine followsAt_peek fun first _ => ?_
  cases hk : first.kind with
  | keyword k =>
    have notEnd : first.kind ≠ .endOfText := by simp [hk]
    cases k with
    | insert => exact (into _).at notEnd
    | upsert => exact (into _).at notEnd
    | update => exact (into _).at notEnd
    | select => exact followsAt_pure _
    | _ => exact followsAt_refuse _ _
  | _ => exact followsAt_refuse _ _

/-- A statement up to its clauses. -/
theorem follows_opening : Follows opening Parser.opening :=
  followsAt_peek fun _ _ => (follows_verbAndTarget.mono fun _ _ => trivial).bind fun _ =>
    (follows_keyword _).bind fun _ => (follows_columns _).bind fun _ =>
      (follows_keyword _).bind fun _ => (follows_name _).bind fun _ => followsAt_pure _

/-- A statement from the end of its clauses on. -/
theorem follows_ending (start : Span) : Follows (ending start) (Parser.ending start) :=
  (follows_skip _).bind fun _ => followsAt_peek fun _ _ => followsAt_ite
    (fun _ => (follows_spanFrom _).mono fun _ _ => trivial) fun _ => followsAt_refuse _ _

end Unguarded

end ConnectorQuery
