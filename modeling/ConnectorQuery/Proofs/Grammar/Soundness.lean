import ConnectorQuery.Proofs.Grammar.Tokens
import ConnectorQuery.Proofs.Outcome
import ConnectorQuery.Statement.Progress

/-!
# What is read follows the grammar

A parser is *sound* for a phrase when it reads nothing else: where it answers,
the tokens it was given open with the phrase, spelling the answer without
places, and go on with the tokens it left. Each parser of `Statement.Parser` is
sound for the phrase of its name (`Sound`), up to the whole statement
(`isStatement_of_ofTokens?`).

The reader joins the spans of a path to see what sticks to it, while in the
grammar a token sticks to the one before. `IsRun` and `joinAll` meet in
`isRun_joinAll`, whose invariant is that the joined span ends where the last
token joined does.
-/

namespace ConnectorQuery.Parser

open Grammar

variable {α β γ δ : Type}

/-! ## One step at a time -/

/-- Two steps answer if the first does and the second does behind it. -/
theorem bind_eq_ok {p : Parser α} {f : α → Parser β} {c : Cursor} {r : β × Cursor} :
    (p >>= f) c = .ok r ↔ ∃ a c₁, p c = .ok (a, c₁) ∧ f a c₁ = .ok r := by
  change (p c >>= fun s => f s.1 s.2) = .ok r ↔ _
  rw [except_bind_eq_ok]
  exact ⟨fun ⟨s, h, hf⟩ => ⟨s.1, s.2, h, hf⟩, fun ⟨a, c₁, h, hf⟩ => ⟨(a, c₁), h, hf⟩⟩

/-- A mapped parser answers where the parser does. -/
theorem map_eq_ok {p : Parser α} {f : α → β} {b : β} {c c' : Cursor}
    (h : (f <$> p) c = .ok (b, c')) : ∃ a, p c = .ok (a, c') ∧ f a = b := by
  obtain ⟨a, c₁, h₁, h⟩ := bind_eq_ok.1 (show (p >>= fun a => pure (f a)) c = _ from h)
  cases h
  exact ⟨a, h₁, rfl⟩

theorem peek_bind (f : Token → Parser α) (c : Cursor) : (peek >>= f) c = f c.here c := rfl

theorem next_bind (f : Token → Parser α) (c : Cursor) : (next >>= f) c = f c.here c.advance := rfl

theorem discard_next_bind (f : Unit → Parser α) (c : Cursor) :
    (discard next >>= f) c = f () c.advance := rfl

theorem marker_bind (f : Located String → Parser α) (c : Cursor) :
    (marker >>= f) c = f ⟨c.here.text, c.here.span⟩ c.advance := rfl

theorem pure_eq_ok {a b : α} {c c' : Cursor} (h : (pure a : Parser α) c = .ok (b, c')) :
    a = b ∧ c = c' := by
  cases h
  exact ⟨rfl, rfl⟩

theorem refuse_ne_ok {expected : String} {found : Token} {c : Cursor} {r : α × Cursor} :
    (refuse expected found : Parser α) c ≠ .ok r :=
  nofun

theorem ite_apply {b : Prop} [Decidable b] (p q : Parser α) (c : Cursor) :
    (if b then p else q) c = if b then p c else q c := by
  split <;> rfl

/-- Passing a token of the kind `k` that is at hand. -/
theorem opens_advance {c : Cursor} {k : TokenKind} (ho : Orderly c.tokens)
    (h : c.here.kind = k) (hk : k ≠ .endOfText) : Opens k c.tokens c.advance.tokens :=
  ⟨c.here, h, Cursor.tokens_advance ho (h ▸ hk)⟩

/-! ## Sound parsers -/

/-- The parser `p` reads nothing but the phrase; `tree` makes of its answer what
    the phrase spells. -/
def Sound (p : Parser α) (tree : α → β) (phrase : Phrase β) : Prop :=
  ∀ ⦃c : Cursor⦄ ⦃a : α⦄ ⦃c' : Cursor⦄, Orderly c.tokens → p c = .ok (a, c') →
    phrase c.tokens (tree a) c'.tokens ∧ Orderly c'.tokens

theorem expect_sound {k : TokenKind} (hk : k ≠ .endOfText) :
    Sound (expect k) id fun ts _ rest => Opens k ts rest := by
  intro c a c' ho h
  rw [expect, peek_bind, ite_apply] at h
  split at h
  · rename_i at_k
    cases h
    have opens := opens_advance ho (beq_iff_eq.1 at_k) hk
    exact ⟨opens, ho.of_opens opens hk⟩
  · exact absurd h refuse_ne_ok

theorem mark_sound (m : Mark) :
    Sound (expect (.mark m)) id fun ts _ rest => Opens (.mark m) ts rest :=
  expect_sound nofun

theorem keyword_sound (k : Keyword) :
    Sound (expect (.keyword k)) id fun ts _ rest => Opens (.keyword k) ts rest :=
  expect_sound nofun

theorem skip_sound (m : Mark) :
    Sound (skip (.mark m)) id fun ts _ rest => MayOpen (.mark m) ts rest := by
  intro c a c' ho h
  rw [skip, whenAt] at h
  split at h
  · rename_i at_m
    cases h
    have opens := opens_advance ho (beq_iff_eq.1 at_m) (by simp)
    exact ⟨.inr opens, ho.of_opens opens (by simp)⟩
  · cases h
    exact ⟨.inl rfl, ho⟩

/-- A part that may be missing: it is read, or nothing is. -/
theorem whenAt_sound {wanted : Token → Bool} {p : Parser α} {otherwise : α} {tree : α → β}
    {phrase : Phrase β} (hp : Sound p tree phrase) :
    Sound (whenAt wanted p otherwise) tree fun ts a rest =>
      (a = tree otherwise ∧ ts = rest) ∨ phrase ts a rest := by
  intro c a c' ho h
  rw [whenAt] at h
  split at h
  · obtain ⟨read, ho'⟩ := hp ho h
    exact ⟨.inr read, ho'⟩
  · cases h
    exact ⟨.inl ⟨rfl, rfl⟩, ho⟩

theorem moreItems_sound {item : Parser α} {tree : α → β} {phrase : Phrase β}
    (hf : Forward item) (hitem : Sound item tree phrase) (c : Cursor) :
    ∀ as c', Orderly c.tokens → moreItems item c = .ok (as, c') →
      Orderly c'.tokens ∧ ((as = [] ∧ c.tokens = c'.tokens) ∨
        ∃ items, Opens (.mark .comma) c.tokens items ∧
          IsList phrase items (as.map tree) c'.tokens) := by
  fun_induction moreItems item c with
  | case1 c atComma e he => intro as c' _ h; cases h
  | case2 c atComma a c₁ h₁ shorter e he ih => intro as c' _ h; cases h
  | case3 c atComma a c₁ h₁ shorter as c₂ h₂ ih =>
    intro _ c' ho h
    cases h
    have opens := opens_advance ho atComma (by simp)
    obtain ⟨one, ho₁⟩ := hitem (ho.of_opens opens (by simp)) h₁
    obtain ⟨ho₂, ⟨rfl, same⟩ | ⟨items, comma, more⟩⟩ := ih as c₂ ho₁ h₂
    · exact ⟨ho₂, .inr ⟨_, opens, .one (same ▸ one)⟩⟩
    · exact ⟨ho₂, .inr ⟨_, opens, .more one comma more⟩⟩
  | case4 c atComma a c₁ h₁ stuck =>
    -- a comma is not the last token, so the item behind it got past it
    intro _ _ ho _
    exact absurd (Cursor.ahead_length_lt ho (by simp [atComma]) (hf _ _ _ h₁)) stuck
  | case5 c notAtComma =>
    intro _ c' ho h
    cases h
    exact ⟨ho, .inl ⟨rfl, rfl⟩⟩

theorem commaList_sound {item : Parser α} {tree : α → β} {phrase : Phrase β}
    (hf : Forward item) (hitem : Sound item tree phrase) :
    Sound (commaList item) (List.map tree) (IsList phrase) := by
  intro c as c' ho h
  obtain ⟨a, c₁, h₁, h⟩ := bind_eq_ok.1 h
  obtain ⟨as', c₂, h₂, h⟩ := bind_eq_ok.1 h
  obtain ⟨rfl, rfl⟩ := pure_eq_ok h
  obtain ⟨one, ho₁⟩ := hitem ho h₁
  obtain ⟨ho₂, ⟨rfl, same⟩ | ⟨items, comma, more⟩⟩ := moreItems_sound hf hitem c₁ _ _ ho₁ h₂
  · exact ⟨.one (same ▸ one), ho₂⟩
  · exact ⟨.more one comma more, ho₂⟩

/-! ## Names and values -/

/-- The joined name keeps what is needed to tell whether the next token sticks to its last one. -/
theorem sticksTo_iff {t u : Token} {p : FieldPath} (hstop : p.name.span.stop = t.span.stop)
    (hdot : p.dangling = (t.kind == .mark .dot)) : sticksTo u p = true ↔ Sticks t u := by
  simp [sticksTo, Sticks, Token.startsAt, hstop, hdot]

/-- Joining goes on for the whole run behind `t`, the last token that was
    joined, and no further. -/
theorem isRun_joinAll (ahead : List Token) : ∀ (p : FieldPath) (t here : Token) (passed : Nat),
    Orderly (here :: ahead) → p.name.span.stop = t.span.stop →
    p.dangling = (t.kind == .mark .dot) → t.span.stop ≤ here.span.start →
    ∃ run, here :: ahead = run ++ (joinAll p here passed ahead).2.tokens ∧
      IsRun t run (joinAll p here passed ahead).2.tokens ∧
      (joinAll p here passed ahead).1.name.val =
        p.name.val ++ String.join (run.map Token.value) ∧
      (joinAll p here passed ahead).1.dangling = ((run.getLastD t).kind == .mark .dot) ∧
      Orderly (joinAll p here passed ahead).2.tokens := by
  -- the path that is joined so far always stops where `t` stops
  induction ahead with
  | nil =>
    intro p t here passed ho hstop hdot _
    have last : here.kind = .endOfText := by
      cases ho with
      | last h => exact h
      | cons _ _ _ h => exact absurd rfl h.ne_nil
    have apart : ¬sticksTo here p = true :=
      fun h => ((sticksTo_iff hstop hdot).1 h).ne_endOfText last
    rw [joinAll, if_neg apart]
    refine ⟨[], rfl, .stop ?_, by simp, by simpa using hdot, ho⟩
    intro u hu
    obtain rfl := Option.some.inj hu
    exact fun h => h.ne_endOfText last
  | cons u ahead ih =>
    intro p t here passed ho hstop hdot hle
    rw [joinAll]
    split
    · rename_i sticks
      have sticks := (sticksTo_iff hstop hdot).1 sticks
      obtain ⟨-, upright, behind, hts⟩ : _ ∧ here.span.start ≤ here.span.stop ∧
          (∀ v ∈ (u :: ahead).head?, here.span.stop ≤ v.span.start) ∧ Orderly (u :: ahead) := by
        cases ho with
        | cons h₁ h₂ h₃ h₄ => exact ⟨h₁, h₂, h₃, h₄⟩
      have joined : (join p here).name.span.stop = here.span.stop := by
        simp only [join, Span.merge, hstop]
        omega
      obtain ⟨run, tokens, isRun, val, dangling, rest⟩ :=
        ih (join p here) here u here.span.stop hts joined rfl (behind u rfl)
      refine ⟨here :: run, by rw [tokens]; rfl, .more sticks isRun, ?_, ?_, rest⟩
      · rw [val, List.map_cons, String.join_cons, ← String.append_assoc]
        rfl
      · rw [dangling, List.getLastD_cons]
    · rename_i apart
      refine ⟨[], rfl, .stop ?_, by simp, by simpa using hdot, ho⟩
      intro v hv
      obtain rfl := Option.some.inj hv
      exact fun h => apart ((sticksTo_iff hstop hdot).2 h)

/-- A path read off the tokens is one in the grammar. -/
theorem path_sound (expected : String) : Sound (path expected) FieldPath.bare IsPath := by
  intro c p c' ho h
  rw [path, peek_bind, ite_apply] at h
  split at h
  · rename_i value
    rw [discard_next_bind] at h
    have hk := TokenKind.ne_endOfText_of_isValue value
    have tokens := Cursor.tokens_advance ho hk
    have ho₁ := Cursor.orderly_advance ho hk
    -- the first token is joined by those that touch it, so its place counts from here on
    have behind : c.here.span.stop ≤ c.advance.here.span.start := by
      rw [tokens] at ho
      cases ho with
      | cons _ _ h _ => exact h _ rfl
    have dot : (c.here.kind == .mark .dot) = false := by
      refine beq_false_of_ne fun h => ?_
      rw [h] at value
      exact nomatch value
    obtain ⟨run, split, isRun, val, dangling, rest⟩ :=
      isRun_joinAll c.advance.ahead ⟨⟨c.here.value, c.here.span⟩, false⟩ c.here c.advance.here
        c.advance.passed ho₁ rfl dot.symm behind
    obtain ⟨rfl, rfl⟩ := Prod.mk.inj (Except.ok.inj h)
    refine ⟨?_, rest⟩
    rw [tokens]
    have spelled := IsPath.intro value isRun
    rw [← split, ← dangling, List.map_cons, String.join_cons, ← val] at spelled
    exact spelled
  · exact absurd h refuse_ne_ok

theorem text_sound (expected : String) : Sound (text expected) Located.bare IsText := by
  intro c s c' ho h
  obtain ⟨p, c₁, h₁, h⟩ := bind_eq_ok.1 h
  obtain ⟨rfl, rfl⟩ := pure_eq_ok h
  obtain ⟨spelled, ho₁⟩ := path_sound expected ho h₁
  exact ⟨⟨p.dangling, spelled⟩, ho₁⟩

/-- A name that was read does not end in a dot. -/
theorem name_sound (expected : String) : Sound (name expected) Located.bare IsName := by
  intro c s c' ho h
  obtain ⟨p, c₁, h₁, h⟩ := bind_eq_ok.1 h
  rw [peek_bind, ite_apply] at h
  obtain ⟨spelled, ho₁⟩ := path_sound expected ho h₁
  split at h
  · exact absurd h refuse_ne_ok
  · rename_i notDangling
    obtain ⟨rfl, rfl⟩ := pure_eq_ok h
    rw [FieldPath.bare, Bool.eq_false_iff.2 notDangling] at spelled
    exact ⟨spelled, ho₁⟩

theorem value_sound (expected : String) : Sound (value expected) Located.bare IsValue := by
  intro c s c' ho h
  obtain ⟨_, c₁, h₁, h⟩ := bind_eq_ok.1 h
  obtain ⟨equals, ho₁⟩ := skip_sound _ ho h₁
  obtain ⟨spelled, ho₂⟩ := text_sound expected ho₁ h
  exact ⟨⟨_, equals, spelled⟩, ho₂⟩

theorem assignment_sound : Sound assignment Assignment.bare IsAssignment := by
  intro c a c' ho h
  obtain ⟨name, c₁, h₁, h⟩ := bind_eq_ok.1 h
  obtain ⟨_, c₂, h₂, h⟩ := bind_eq_ok.1 h
  obtain ⟨value, c₃, h₃, h⟩ := bind_eq_ok.1 h
  obtain ⟨rfl, rfl⟩ := pure_eq_ok h
  obtain ⟨isName, ho₁⟩ := text_sound _ ho h₁
  obtain ⟨equals, ho₂⟩ := mark_sound _ ho₁ h₂
  obtain ⟨isValue, ho₃⟩ := text_sound _ ho₂ h₃
  exact ⟨.intro isName equals isValue, ho₃⟩

/-- What stands in parentheses. -/
theorem enclosed_sound {p : Parser α} {tree : α → β} {phrase : Phrase β} {f : α → γ} {b : γ}
    {c c' : Cursor} (hp : Sound p tree phrase) (ho : Orderly c.tokens)
    (h : (do expect (.mark .openParen); let a ← p; expect (.mark .closeParen); return f a
      : Parser γ) c = .ok (b, c')) :
    ∃ a, b = f a ∧ IsEnclosed phrase c.tokens (tree a) c'.tokens ∧ Orderly c'.tokens := by
  obtain ⟨_, c₁, h₁, h⟩ := bind_eq_ok.1 h
  obtain ⟨a, c₂, h₂, h⟩ := bind_eq_ok.1 h
  obtain ⟨_, c₃, h₃, h⟩ := bind_eq_ok.1 h
  cases h
  obtain ⟨opening, ho₁⟩ := mark_sound _ ho h₁
  obtain ⟨inside, ho₂⟩ := hp ho₁ h₂
  obtain ⟨closing, ho₃⟩ := mark_sound _ ho₂ h₃
  exact ⟨a, rfl, ⟨_, _, opening, inside, closing⟩, ho₃⟩

theorem assignments_sound :
    Sound assignments (List.map Assignment.bare) (IsEnclosed (IsList IsAssignment)) := by
  intro c as c' ho h
  obtain ⟨as', rfl, enclosed⟩ :=
    enclosed_sound (commaList_sound forward_assignment assignment_sound) (f := id) ho h
  exact enclosed

/-! ## Columns -/

/-- The test for a further segment is that of the grammar. -/
theorem continues_of_continuesBehind {t dot : Token} (h : continuesBehind t dot = true) :
    Continues dot t := by
  simpa [continuesBehind, Continues, Token.startsAt] using h

theorem continuesBehind_of_continues {t dot : Token} (h : Continues dot t) :
    continuesBehind t dot = true := by
  simpa [continuesBehind, Continues, Token.startsAt] using h

/-- The segments read off the tokens are as many as the grammar takes. The induction is on
    the tokens ahead. -/
theorem isSegments_moreSegments (c : Cursor) (ho : Orderly c.tokens) :
    IsSegments c.tokens (moreSegments c).1 (moreSegments c).2.tokens ∧
      Orderly (moreSegments c).2.tokens := by
  fun_induction moreSegments c with
  -- the cases are those of the reader: a wildcard, a segment, a dot that dangles, and no dot
  | case1 c atDot behind atStar =>
    have dot := opens_advance ho atDot (by simp)
    have star := opens_advance (ho.of_opens dot (by simp)) atStar (by simp)
    exact ⟨.wildcard dot star, (ho.of_opens dot (by simp)).of_opens star (by simp)⟩
  | case2 c atDot behind _ continues segments dangling c' h ih =>
    have continues : Continues c.here behind.here := continues_of_continuesBehind continues
    have ho₁ := Cursor.orderly_advance ho (by simp [atDot])
    have ho₂ := Cursor.orderly_advance ho₁ continues.ne_endOfText
    rw [h] at ih
    rw [Cursor.tokens_advance ho (by simp [atDot]),
      Cursor.tokens_advance ho₁ continues.ne_endOfText]
    exact ⟨.segment atDot continues (ih ho₂).1, (ih ho₂).2⟩
  | case3 c atDot behind notStar stops =>
    rw [Cursor.tokens_advance ho (by simp [atDot])]
    refine ⟨.dangling atDot fun t ht => ?_, Cursor.orderly_advance ho (by simp [atDot])⟩
    obtain rfl := Option.some.inj ht
    exact ⟨notStar, fun h => stops (continuesBehind_of_continues h)⟩
  | case4 c notDot => exact ⟨.none, ho⟩

/-- A column read off the tokens is one in the grammar. -/
theorem column_sound (mayRename : Bool) :
    Sound (column mayRename) Column.bare (IsColumn mayRename) := by
  intro c a c' ho h
  rw [column, peek_bind, ite_apply, ite_apply] at h
  split at h
  · -- a star alone
    rename_i star
    cases h
    have opens := opens_advance ho (beq_iff_eq.1 star) (by simp)
    exact ⟨.wildcard opens, ho.of_opens opens (by simp)⟩
  split at h
  · -- a name, the segments behind it, and maybe another name
    rename_i value
    rw [discard_next_bind] at h
    obtain ⟨behind, c₁, h₁, h⟩ := bind_eq_ok.1 h
    obtain ⟨rename, c₂, h₂, h⟩ := bind_eq_ok.1 h
    cases h
    have hk := TokenKind.ne_endOfText_of_isValue value
    have ends := isSegments_moreSegments c.advance (Cursor.orderly_advance ho hk)
    obtain ⟨rfl, rfl⟩ := Prod.mk.inj (Except.ok.inj h₁)
    rw [Cursor.tokens_advance ho hk]
    rw [whenAt] at h₂
    split at h₂
    · rename_i renames
      obtain ⟨mayRename, atAs⟩ := Bool.and_eq_true_iff.1 renames
      rw [Parser.rename, discard_next_bind] at h₂
      obtain ⟨name, c₃, h₃, h₂⟩ := bind_eq_ok.1 h₂
      cases h₂
      have opens := opens_advance ends.2 (beq_iff_eq.1 atAs) (by simp)
      obtain ⟨isName, ho₃⟩ := text_sound _ (ends.2.of_opens opens (by simp)) h₃
      have spelled := IsColumn.renamed mayRename value ends.1 opens isName
      exact ⟨spelled, ho₃⟩
    · cases h₂
      exact ⟨.plain value ends.1, ends.2⟩
  · exact absurd h refuse_ne_ok

/-! ## Clauses -/

/-- What is read behind the key of a tag completes it, one case for each of the three forms. -/
theorem tagValue_sound {c c' : Cursor} {ts : List Token} {key : Located String}
    {behind : Option (Located String) × Option (Located String)} (hkey : IsText ts key c.tokens)
    (ho : Orderly c.tokens) (h : tagValue c = .ok (behind, c')) :
    IsTagEntry ts ⟨key, behind.1.map Located.bare, behind.2.map Located.bare, .nowhere⟩ c'.tokens ∧
      Orderly c'.tokens := by
  rw [tagValue, peek_bind, ite_apply, ite_apply, ite_apply] at h
  split at h
  · -- the list goes on or ends
    cases h
    exact ⟨.key hkey, ho⟩
  split at h
  · -- `=` or `AS`, which must have a value behind it
    rename_i assigns
    have assigns : c.here.kind = .mark .equals ∨ c.here.kind = .keyword .as := by
      simpa using assigns
    have hk : c.here.kind ≠ .endOfText := by
      rcases assigns with h | h <;> rw [h] <;> exact nofun
    rw [Cursor.tokens_advance ho hk] at hkey
    rw [marker_bind] at h
    obtain ⟨value, c₂, h₂, h⟩ := bind_eq_ok.1 h
    cases h
    obtain ⟨isValue, ho₂⟩ := text_sound _ (Cursor.orderly_advance ho hk) h₂
    exact ⟨.assigned hkey (assigns.imp_right .inl) isValue, ho₂⟩
  split at h
  · -- any other text, which may have one
    rename_i value
    have hk := TokenKind.ne_endOfText_of_isValue value
    rw [Cursor.tokens_advance ho hk] at hkey
    have ho₁ := Cursor.orderly_advance ho hk
    rw [marker_bind] at h
    obtain ⟨further, c₂, h₂, h⟩ := bind_eq_ok.1 h
    cases h
    rw [whenAt] at h₂
    split at h₂
    · obtain ⟨val, h₃, rfl⟩ := map_eq_ok h₂
      obtain ⟨isValue, ho₃⟩ := text_sound _ ho₁ h₃
      exact ⟨.assigned hkey (.inr (.inr value)) isValue, ho₃⟩
    · cases h₂
      exact ⟨.marked hkey value, ho₁⟩
  · exact absurd h refuse_ne_ok

theorem tagEntry_sound : Sound tagEntry TagEntry.bare IsTagEntry := by
  intro c a c' ho h
  rw [tagEntry, peek_bind] at h
  obtain ⟨key, c₁, h₁, h⟩ := bind_eq_ok.1 h
  obtain ⟨behind, c₂, h₂, h⟩ := bind_eq_ok.1 h
  cases h
  obtain ⟨isKey, ho₁⟩ := text_sound _ ho h₁
  exact tagValue_sound isKey ho₁ h₂

theorem tagEntries_sound :
    Sound tagEntries (List.map TagEntry.bare) (IsEnclosed (IsOptional (IsList IsTagEntry))) := by
  intro c es c' ho h
  obtain ⟨es', rfl, enclosed⟩ :=
    enclosed_sound (whenAt_sound (commaList_sound forward_tagEntry tagEntry_sound)) (f := id) ho h
  exact enclosed

theorem bucketCount_sound :
    Sound (whenAt (·.kind == .keyword .into) bucketCount none) (Option.map Located.bare)
      IsBucketCount := by
  intro c count c' ho h
  rw [whenAt] at h
  split at h
  · rename_i atInto
    rw [bucketCount, discard_next_bind] at h
    obtain ⟨number, c₁, h₁, h⟩ := bind_eq_ok.1 h
    obtain ⟨_, c₂, h₂, h⟩ := bind_eq_ok.1 h
    cases h
    have into := opens_advance ho (beq_iff_eq.1 atInto) (by simp)
    obtain ⟨isNumber, ho₁⟩ := text_sound _ (ho.of_opens into (by simp)) h₁
    obtain ⟨buckets, ho₂⟩ := keyword_sound _ ho₁ h₂
    exact ⟨.some into isNumber buckets, ho₂⟩
  · cases h
    exact ⟨.none, ho⟩

theorem emptyCall_sound : Sound emptyCall id IsCall := by
  intro c call c' ho h
  rw [emptyCall] at h
  split at h
  · rename_i parens
    obtain ⟨atOpen, closes⟩ := Bool.and_eq_true_iff.1 parens
    cases h
    have opens := opens_advance ho (beq_iff_eq.1 atOpen) (by simp)
    have ho₁ := ho.of_opens opens (by simp)
    have atClose : c.advance.here.kind = .mark .closeParen := by
      obtain ⟨here, ahead, passed⟩ := c
      cases ahead with
      | nil => cases beq_iff_eq.1 closes
      | cons t ts => exact beq_iff_eq.1 closes
    have close := opens_advance ho₁ atClose (by simp)
    exact ⟨.call opens close, ho₁.of_opens close (by simp)⟩
  · cases h
    exact ⟨.none, ho⟩

/-- Both keywords of a bucketing clause lead to the same body. -/
theorem bucketing_sound {c c' : Cursor} {k : Keyword} {a : Clause} {ts : List Token}
    (hk : k = .distributeBy ∨ k = .clusterBy) (opens : Opens (.keyword k) ts c.tokens)
    (ho : Orderly c.tokens) (h : bucketing c = .ok (a, c')) :
    IsClause ts a.bare c'.tokens ∧ Orderly c'.tokens := by
  obtain ⟨names, c₁, h₁, h⟩ := bind_eq_ok.1 h
  obtain ⟨count, c₂, h₂, h⟩ := bind_eq_ok.1 h
  cases h
  obtain ⟨areNames, ho₁⟩ := whenAt_sound (commaList_sound (forward_path _) (path_sound _)) ho h₁
  obtain ⟨isCount, ho₂⟩ := bucketCount_sound ho₁ h₂
  exact ⟨.bucketing hk opens areNames isCount, ho₂⟩

/-- What is read behind a keyword is a clause of this keyword, one case for each. -/
theorem ofKeyword_sound {c c' : Cursor} {k : Keyword} {a : Clause} (ho : Orderly c.tokens)
    (hk : c.here.kind = .keyword k) (h : clauseBody.ofKeyword c.here k c.advance = .ok (a, c')) :
    IsClause c.tokens a.bare c'.tokens ∧ Orderly c'.tokens := by
  have opens := opens_advance ho hk (by simp)
  have ho₁ := ho.of_opens opens (by simp)
  cases k with
  | flag f =>
    cases h
    exact ⟨.flag f opens, ho₁⟩
  | setting s =>
    obtain ⟨val, c₂, h₂, h⟩ := bind_eq_ok.1 h
    cases h
    obtain ⟨isValue, ho₂⟩ := value_sound _ ho₁ h₂
    exact ⟨.setting s opens isValue, ho₂⟩
  | primaryKey =>
    obtain ⟨columns, c₂, h₂, h⟩ := bind_eq_ok.1 h
    cases h
    obtain ⟨areColumns, ho₂⟩ := commaList_sound (forward_column _) (column_sound _) ho₁ h₂
    exact ⟨.primaryKey opens areColumns, ho₂⟩
  | ignore =>
    obtain ⟨columns, c₂, h₂, h⟩ := bind_eq_ok.1 h
    cases h
    obtain ⟨areColumns, ho₂⟩ := commaList_sound (forward_column _) (column_sound _) ho₁ h₂
    exact ⟨.ignore opens areColumns, ho₂⟩
  | partitionBy =>
    obtain ⟨names, c₂, h₂, h⟩ := bind_eq_ok.1 h
    cases h
    obtain ⟨areNames, ho₂⟩ := commaList_sound (forward_path _) (path_sound _) ho₁ h₂
    exact ⟨.partitionBy opens areNames, ho₂⟩
  | distributeBy => exact bucketing_sound (.inl rfl) opens ho₁ h
  | clusterBy => exact bucketing_sound (.inr rfl) opens ho₁ h
  -- the clauses in several parts: each part is spelled up to where the next one begins
  | storeAs =>
    obtain ⟨type, c₂, h₂, h⟩ := bind_eq_ok.1 h
    obtain ⟨parameters, c₃, h₃, h⟩ := bind_eq_ok.1 h
    cases h
    obtain ⟨isType, ho₂⟩ := value_sound _ ho₁ h₂
    obtain ⟨areParameters, ho₃⟩ := whenAt_sound assignments_sound ho₂ h₃
    exact ⟨.storeAs opens isType areParameters, ho₃⟩
  | withTimestamp =>
    obtain ⟨_, c₂, h₂, h⟩ := bind_eq_ok.1 h
    obtain ⟨field, c₃, h₃, h⟩ := bind_eq_ok.1 h
    obtain ⟨call, c₄, h₄, h⟩ := bind_eq_ok.1 h
    cases h
    obtain ⟨equals, ho₂⟩ := skip_sound _ ho₁ h₂
    obtain ⟨isField, ho₃⟩ := path_sound _ ho₂ h₃
    obtain ⟨isCall, ho₄⟩ := emptyCall_sound ho₃ h₄
    exact ⟨.timestamp opens equals isField isCall, ho₄⟩
  | withTag =>
    obtain ⟨entries, c₂, h₂, h⟩ := bind_eq_ok.1 h
    cases h
    obtain ⟨areEntries, ho₂⟩ := tagEntries_sound ho₁ h₂
    exact ⟨.tags (.inl rfl) opens areEntries, ho₂⟩
  | withTags =>
    obtain ⟨entries, c₂, h₂, h⟩ := bind_eq_ok.1 h
    cases h
    obtain ⟨areEntries, ho₂⟩ := tagEntries_sound ho₁ h₂
    exact ⟨.tags (.inr rfl) opens areEntries, ho₂⟩
  | withKey =>
    obtain ⟨_, c₂, h₂, h⟩ := bind_eq_ok.1 h
    obtain ⟨equals, ho₂⟩ := skip_sound _ ho₁ h₂
    obtain ⟨keys, rfl, areKeys, ho₃⟩ :=
      enclosed_sound (commaList_sound (forward_text _) (text_sound _)) ho₂ h
    exact ⟨.withKeys opens equals areKeys, ho₃⟩
  | properties =>
    obtain ⟨_, c₂, h₂, h⟩ := bind_eq_ok.1 h
    obtain ⟨entries, c₃, h₃, h⟩ := bind_eq_ok.1 h
    cases h
    obtain ⟨equals, ho₂⟩ := skip_sound _ ho₁ h₂
    obtain ⟨areEntries, ho₃⟩ := assignments_sound ho₂ h₃
    exact ⟨.properties opens equals areEntries, ho₃⟩
  -- the other keywords begin no clause
  | insert | upsert | update | into | select | «from» | «as» | buckets => cases h

theorem clause_sound : Sound clause (fun a => .nowhere a.val.bare) IsStatementClause := by
  intro c a c' ho h
  rw [clause, next_bind] at h
  obtain ⟨body, c₁, h₁, h⟩ := bind_eq_ok.1 h
  cases h
  cases hk : c.here.kind with
  | keyword k =>
    simp only [clauseBody, hk] at h₁
    obtain ⟨isClause, ho₁⟩ := ofKeyword_sound ho hk h₁
    exact ⟨⟨rfl, isClause⟩, ho₁⟩
  | _ =>
    simp only [clauseBody, hk] at h₁
    exact absurd h₁ refuse_ne_ok

/-- Clauses that were read are clauses in a row. The induction is on the tokens ahead. -/
theorem clauses_sound (c : Cursor) : ∀ as c', Orderly c.tokens → clauses c = some (.ok (as, c')) →
    IsSequence IsStatementClause c.tokens (as.map fun a => .nowhere a.val.bare) c'.tokens ∧
      Orderly c'.tokens := by
  fun_induction clauses c with
  | case1 c stop =>
    intro as c' ho h
    cases h
    exact ⟨.nil, ho⟩
  | case2 c stop e he => intro as c' _ h; cases h
  | case3 c stop a c₁ h₁ shorter ih =>
    intro as c' ho h
    obtain ⟨r, hr, h⟩ := Option.map_eq_some_iff.1 h
    cases r with
    | error e => cases h
    | ok s =>
      cases h
      obtain ⟨first, ho₁⟩ := clause_sound ho h₁
      obtain ⟨others, ho₂⟩ := ih s.1 s.2 ho₁ hr
      exact ⟨.cons first others, ho₂⟩
  -- a clause that stays where it is gives no answer
  | case4 c stop a c₁ h₁ stuck => intro as c' _ h; cases h

/-! ## Statements -/

/-- A verb and a target that were read are as the grammar has them. -/
theorem intoTarget_sound (mode : WriteMode) {c c' : Cursor}
    {into : Option (Located WriteMode) × Option (Located String)} (ho : Orderly c.tokens)
    (hk : c.here.kind = .keyword (verbKeyword mode))
    (h : verbAndTarget.intoTarget mode c = .ok (into, c')) :
    IsInto c.tokens (into.1.map Located.bare, into.2.map Located.bare) c'.tokens ∧
      Orderly c'.tokens := by
  rw [verbAndTarget.intoTarget, next_bind] at h
  obtain ⟨_, c₁, h₁, h⟩ := bind_eq_ok.1 h
  obtain ⟨target, c₂, h₂, h⟩ := bind_eq_ok.1 h
  cases h
  have verb := opens_advance ho hk (by simp)
  obtain ⟨into, ho₁⟩ := keyword_sound _ (ho.of_opens verb (by simp)) h₁
  obtain ⟨isTarget, ho₂⟩ := name_sound _ ho₁ h₂
  exact ⟨.some mode verb into isTarget, ho₂⟩

theorem verbAndTarget_sound :
    Sound verbAndTarget (fun into => (into.1.map Located.bare, into.2.map Located.bare))
      IsInto := by
  intro c into c' ho h
  rw [verbAndTarget, peek_bind] at h
  cases hk : c.here.kind with
  | keyword k =>
    simp only [hk] at h
    cases k with
    | insert => exact intoTarget_sound .insert ho hk h
    | upsert => exact intoTarget_sound .upsert ho hk h
    | update => exact intoTarget_sound .update ho hk h
    -- without a verb nothing is read
    | select =>
      cases h
      exact ⟨.none, ho⟩
    | _ => exact absurd h refuse_ne_ok
  | _ =>
    simp only [hk] at h
    exact absurd h refuse_ne_ok

/-- Up to its clauses, a statement says where its records go to, what is selected
    and where it comes from. -/
theorem opening_sound {c c' : Cursor} {st : Statement} (ho : Orderly c.tokens)
    (h : opening c = .ok (st, c')) :
    ∃ select list origin text,
      IsInto c.tokens (st.verb.map Located.bare, st.target.map Located.bare) select ∧
      Opens (.keyword .select) select list ∧
      IsList (IsColumn true) list (st.columns.map Column.bare) origin ∧
      Opens (.keyword .from) origin text ∧ IsName text st.source.bare c'.tokens ∧
      Orderly c'.tokens := by
  rw [opening, peek_bind] at h
  obtain ⟨into, c₁, h₁, h⟩ := bind_eq_ok.1 h
  obtain ⟨_, c₂, h₂, h⟩ := bind_eq_ok.1 h
  obtain ⟨columns, c₃, h₃, h⟩ := bind_eq_ok.1 h
  obtain ⟨_, c₄, h₄, h⟩ := bind_eq_ok.1 h
  obtain ⟨source, c₅, h₅, h⟩ := bind_eq_ok.1 h
  cases h
  -- each step leaves the tokens in order for the next one
  obtain ⟨isInto, ho₁⟩ := verbAndTarget_sound ho h₁
  obtain ⟨select, ho₂⟩ := keyword_sound _ ho₁ h₂
  obtain ⟨areColumns, ho₃⟩ := commaList_sound (forward_column _) (column_sound _) ho₂ h₃
  obtain ⟨origin, ho₄⟩ := keyword_sound _ ho₃ h₄
  obtain ⟨isSource, ho₅⟩ := name_sound _ ho₄ h₅
  exact ⟨_, _, _, _, isInto, select, areColumns, origin, isSource, ho₅⟩

/-- Behind the clauses come a semicolon, or none, and the end of the text. -/
theorem ending_sound {start span : Span} {c c' : Cursor} (ho : Orderly c.tokens)
    (h : ending start c = .ok (span, c')) :
    ∃ stop, MayOpen (.mark .semicolon) c.tokens stop ∧ Opens .endOfText stop [] := by
  obtain ⟨_, c₁, h₁, h⟩ := bind_eq_ok.1 h
  rw [peek_bind, ite_apply] at h
  split at h
  · rename_i atEnd
    obtain ⟨semicolon, ho₁⟩ := skip_sound _ ho h₁
    have last : c₁.ahead = [] := ho₁.eq_nil (beq_iff_eq.1 atEnd)
    exact ⟨c₁.tokens, semicolon, c₁.here, beq_iff_eq.1 atEnd, by rw [Cursor.tokens, last]⟩
  · exact absurd h refuse_ne_ok

end ConnectorQuery.Parser

namespace ConnectorQuery

open Grammar ConnectorQuery.Parser

/-- What is read as a statement spells it, and its tokens close with the end of
    the text. -/
theorem isStatement_of_ofTokens? {width : Nat} {tokens : List Token} {st : Statement}
    (ho : Orderly tokens) (h : Statement.ofTokens? width tokens = some (.ok st)) :
    IsStatement tokens st.bare := by
  have whole := Cursor.tokens_ofTokens ho width
  rw [Statement.ofTokens?] at h
  split at h
  · cases h
  rename_i opened c hopened
  obtain ⟨r, hr, hrest⟩ := Option.map_eq_some_iff.1 h
  obtain ⟨⟨clauses, c₁⟩, rfl, hend⟩ := except_bind_eq_ok.1 hrest
  obtain ⟨⟨span, c₂⟩, hspan, hst⟩ := except_bind_eq_ok.1 hend
  cases hst
  obtain ⟨_, _, _, _, isInto, select, areColumns, origin, isSource, hoc⟩ :=
    opening_sound (whole.symm ▸ ho) hopened
  obtain ⟨areClauses, ho₁⟩ := clauses_sound c clauses c₁ hoc hr
  obtain ⟨stop, semicolon, isEnd⟩ := ending_sound ho₁ hspan
  rw [whole] at isInto
  exact .intro isInto select areColumns origin isSource areClauses semicolon isEnd rfl

end ConnectorQuery
