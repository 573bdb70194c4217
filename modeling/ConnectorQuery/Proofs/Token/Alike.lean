import ConnectorQuery.Proofs.Grammar.Tokens
import ConnectorQuery.Proofs.Token.Cutting

/-!
# Tokens that read alike

Whoever reads tokens sees the kind and the text of each, and whether there is a
gap between two of them. Not all of it is needed. The letter case of a keyword
means nothing, unless the keyword is part of a name: behind a dot, without a gap.
Nor does the text of a piece that is no token, or a gap in front of the end of
the text. Lists of tokens that have everything else in common *read alike*
(`ReadAlike`).

* `Token.genuine_of_mem_tokenize`: what all tokens of texts have in common;
* `SameButLayout.readAlike`: tokens that differ in layout and in the case of
  keywords read alike.
-/

namespace ConnectorQuery

/-! ## The tokens of a text -/

/-- A token as scanning makes it: its span does not end before it begins, and a
    keyword is spelled, in any letter case. -/
structure Token.Genuine (t : Token) : Prop where
  ordered : t.span.start ≤ t.span.stop
  spelled : ∀ k, t.kind = .keyword k → Text.eqIgnoringCase k.spelling t.text = true

/-- A keyword is written as it is spelled, but for letter case. -/
theorem Lexeme.Opening.spelled {c : Char} {cs : List Char} {l : Lexeme} (h : Opening c cs l)
    {k : Keyword} (hk : l.kind = .keyword k) :
    Text.eqIgnoringCase k.spelling (String.ofList l.text) = true := by
  cases h with
  | mark _ | «open» _ _ => exact nomatch hk
  | closed _ _ _ =>
    rw [TokenKind.ofQuote] at hk
    split at hk <;> cases hk
  | word _ _ _ _ =>
    rw [TokenKind.ofWord] at hk
    split at hk
    · rename_i k' spells
      cases hk
      simpa only [Bool.decide_eq_true] using List.find?_some spells
    · cases hk

namespace Token

theorem genuine_endAt (n : Nat) : (endAt n).Genuine :=
  ⟨Nat.le_refl n, nofun⟩

/-- Every token that is scanned is genuine. -/
theorem genuine_of_mem_scan {n : Nat} {cs : List Char} : ∀ t ∈ scan n cs, t.Genuine := by
  fun_induction scan n cs with
  | case1 n => exact List.forall_mem_nil _
  | case2 n c cs gap ih => exact ih
  | case3 n c cs notGap lexeme stop ih =>
    have opening : Lexeme.Opening c cs lexeme := Lexeme.opening_first (Bool.eq_false_iff.2 notGap)
    exact List.forall_mem_cons.2 ⟨⟨Nat.le_add_right n _, fun _ => opening.spelled⟩, ih⟩

theorem genuine_of_mem_tokenize {text : String} : ∀ t ∈ tokenize text, t.Genuine :=
  List.forall_mem_append.2 ⟨genuine_of_mem_scan, List.forall_mem_singleton.2 (genuine_endAt _)⟩

end Token

/-! ## Lists that read alike -/

/-- The tokens are of one kind, and of one text where the text counts. -/
structure Token.Alike (t u : Token) : Prop where
  genuine : t.Genuine
  genuine' : u.Genuine
  kind : t.kind = u.kind
  text : t.kind.isKeyword = false → t.kind ≠ .unrecognised → t.text = u.text

/-- Values that look alike have the same text. -/
theorem Token.Alike.text_eq_of_isValue {t u : Token} (h : t.Alike u)
    (value : t.kind.isValue = true) : t.text = u.text := by
  apply h.text
  · cases hk : t.kind <;> first | rfl | exact nomatch hk ▸ value
  · exact fun hk => nomatch hk ▸ value

/-- Marks that look alike have the same text. -/
theorem Token.Alike.text_eq_of_mark {t u : Token} {m : Mark} (h : t.Alike u)
    (hk : t.kind = .mark m) : t.text = u.text :=
  h.text (hk ▸ rfl) (hk ▸ nofun)

/-- What is no token is like anything else that is none. -/
theorem Token.alike_of_unrecognised {t u : Token} (ht : t.kind = .unrecognised)
    (hu : u.kind = .unrecognised) (ordered : t.span.start ≤ t.span.stop)
    (ordered' : u.span.start ≤ u.span.stop) : t.Alike u where
  genuine := ⟨ordered, fun _ keyword => nomatch ht.symm.trans keyword⟩
  genuine' := ⟨ordered', fun _ keyword => nomatch hu.symm.trans keyword⟩
  kind := ht.trans hu.symm
  text := fun _ isToken => absurd ht isToken

/-- What a token stands for is a matter of its kind and its text. -/
theorem Token.value_congr {t u : Token} (kind : t.kind = u.kind) (text : t.text = u.text) :
    t.value = u.value := by
  rw [value, value, kind, text]

/-- The tokens of both lists are alike one by one, and so are the gaps between
    them, up to the end of the text. -/
inductive ReadAlike : List Token → List Token → Prop
  | last {t u : Token} : t.Alike u → t.kind = .endOfText → ReadAlike [t] [u]
  | cons {t t' u u' : Token} {ts us : List Token} : t.Alike u →
      (t'.kind ≠ .endOfText → (t'.span.start = t.span.stop ↔ u'.span.start = u.span.stop)) →
      (t.kind = .mark .dot → t'.kind.isKeyword = true → t'.span.start = t.span.stop →
        t'.text = u'.text) →
      ReadAlike (t' :: ts) (u' :: us) → ReadAlike (t :: t' :: ts) (u :: u' :: us)

namespace ReadAlike

open Grammar Token

variable {t u : Token} {ts us : List Token} {c d : Cursor}

/-- Lists that read alike begin alike. -/
theorem head (h : ReadAlike (t :: ts) (u :: us)) : t.Alike u := by
  cases h with
  | last alike _ => exact alike
  | cons alike _ _ _ => exact alike

theorem length_eq (h : ReadAlike ts us) : ts.length = us.length := by
  induction h with
  | last _ _ => rfl
  | cons _ _ _ _ ih => exact congrArg (· + 1) ih

theorem here (h : ReadAlike c.tokens d.tokens) : c.here.Alike d.here :=
  head h

theorem ahead_length (h : ReadAlike c.tokens d.tokens) : c.ahead.length = d.ahead.length :=
  Nat.succ.inj h.length_eq

/-- Cursors that both pass a token read alike further on. -/
theorem advance (h : ReadAlike c.tokens d.tokens) :
    ReadAlike c.advance.tokens d.advance.tokens := by
  obtain ⟨t, ts, passed⟩ := c
  obtain ⟨u, us, passed'⟩ := d
  cases h with
  | last alike isEnd => exact .last alike isEnd
  | cons _ _ _ tail => exact tail

/-- At the start, all tokens are at hand. -/
theorem ofTokens (h : ReadAlike ts us) (width width' : Nat) :
    ReadAlike (Cursor.ofTokens width ts).tokens (Cursor.ofTokens width' us).tokens := by
  cases h with
  | last alike isEnd => exact .last alike isEnd
  | cons alike gap segment tail => exact .cons alike gap segment tail

/-- The token behind the one at hand is of one kind too. -/
theorem nextKind_eq (h : ReadAlike c.tokens d.tokens) : c.nextKind = d.nextKind := by
  obtain ⟨t, ts, passed⟩ := c
  obtain ⟨u, us, passed'⟩ := d
  cases h with
  | last _ _ => rfl
  | cons _ _ _ tail => exact tail.head.kind

section

variable {t' u' : Token}

/-- In lists that read alike the same tokens stick together. -/
theorem sticks_iff (h : ReadAlike (t :: t' :: ts) (u :: u' :: us)) :
    Sticks t t' ↔ Sticks u u' := by
  obtain _ | ⟨alike, gap, -, tail⟩ := h
  by_cases isEnd : t'.kind = .endOfText
  · have isEnd' := tail.head.kind ▸ isEnd
    exact ⟨fun sticks => absurd isEnd sticks.ne_endOfText,
      fun sticks => absurd isEnd' sticks.ne_endOfText⟩
  · rw [Sticks, Sticks, gap isEnd, alike.kind, tail.head.kind]

/-- In lists that read alike the same tokens continue a column. -/
theorem continues_iff (h : ReadAlike (t :: t' :: ts) (u :: u' :: us)) :
    Continues t t' ↔ Continues u u' := by
  obtain _ | ⟨-, gap, -, tail⟩ := h
  by_cases isEnd : t'.kind = .endOfText
  · have isEnd' := tail.head.kind ▸ isEnd
    exact ⟨fun goesOn => absurd isEnd goesOn.ne_endOfText,
      fun goesOn => absurd isEnd' goesOn.ne_endOfText⟩
  · rw [Continues, Continues, gap isEnd, tail.head.kind]

/-- The text of a keyword counts where it is part of a name. -/
theorem value_eq_of_continues (h : ReadAlike (t :: t' :: ts) (u :: u' :: us))
    (isDot : t.kind = .mark .dot) (goesOn : Continues t t') : t'.value = u'.value := by
  obtain _ | ⟨-, -, segment, tail⟩ := h
  refine value_congr tail.head.kind ?_
  rcases goesOn with value | ⟨keyword, adjacent⟩
  · exact tail.head.text_eq_of_isValue value
  · exact segment isDot keyword adjacent

/-- A token that sticks is a value or a dot, so both stand for the same. -/
theorem value_eq_of_sticks (h : ReadAlike (t :: t' :: ts) (u :: u' :: us))
    (sticks : Sticks t t') : t'.value = u'.value := by
  obtain ⟨adjacent, isDot | ⟨isDot, part⟩⟩ := sticks
  · obtain _ | ⟨-, -, -, tail⟩ := h
    exact value_congr tail.head.kind (tail.head.text_eq_of_mark isDot)
  · exact h.value_eq_of_continues isDot (part.imp_right (⟨·, adjacent⟩))

end

end ReadAlike

/-! ## Layout and letter case -/

/-- The token at the index `i` follows a dot without a gap. -/
def BehindDot (ts : List Token) (i : Nat) : Prop :=
  0 < i ∧ ∃ dot ∈ ts[i - 1]?, ∃ t ∈ ts[i]?, dot.kind = .mark .dot ∧ t.span.start = dot.span.stop

instance (ts : List Token) (i : Nat) : Decidable (BehindDot ts i) :=
  inferInstanceAs (Decidable (_ ∧ _))

/-- As many tokens of the same kinds and texts, with gaps at the same places; only
    the letter case of a keyword may differ, unless it follows a dot without a gap.
    It does not matter whether the text ends with a gap. -/
structure SameButLayout (ts us : List Token) : Prop where
  length : ts.length = us.length
  kind : ∀ i < ts.length, ∀ t ∈ ts[i]?, ∀ u ∈ us[i]?, t.kind = u.kind
  adjacent : ∀ i < ts.length, ∀ t ∈ ts[i]?, ∀ t' ∈ ts[i + 1]?, ∀ u ∈ us[i]?, ∀ u' ∈ us[i + 1]?,
    t'.kind ≠ .endOfText → (t'.span.start = t.span.stop ↔ u'.span.start = u.span.stop)
  text : ∀ i < ts.length, ∀ t ∈ ts[i]?, ∀ u ∈ us[i]?, t.text = u.text ∨
    (t.kind.isKeyword = true ∧ Text.eqIgnoringCase t.text u.text = true ∧ ¬BehindDot ts i)

instance (ts us : List Token) : Decidable (SameButLayout ts us) :=
  decidable_of_iff (_ ∧ _ ∧ _ ∧ _)
    ⟨fun ⟨length, kind, adjacent, text⟩ => ⟨length, kind, adjacent, text⟩,
      fun ⟨length, kind, adjacent, text⟩ => ⟨length, kind, adjacent, text⟩⟩

namespace SameButLayout

variable {t u : Token} {ts us : List Token}

theorem tail (h : SameButLayout (t :: ts) (u :: us)) : SameButLayout ts us where
  length := Nat.succ.inj h.length
  kind := fun i hi => h.kind (i + 1) (Nat.succ_lt_succ hi)
  adjacent := fun i hi => h.adjacent (i + 1) (Nat.succ_lt_succ hi)
  text := by
    intro i hi t ht u hu
    refine (h.text (i + 1) (Nat.succ_lt_succ hi) t ht u hu).imp_right fun ⟨keyword, same, apart⟩ =>
      ⟨keyword, same, fun ⟨pos, behind⟩ => apart ⟨Nat.succ_pos i, ?_⟩⟩
    rwa [← Nat.succ_pred_eq_of_pos pos] at behind ⊢

/-- Tokens of two texts that differ in layout and letter case are alike. -/
theorem alike (h : SameButLayout (t :: ts) (u :: us)) (ht : t.Genuine) (hu : u.Genuine) :
    t.Alike u where
  genuine := ht
  genuine' := hu
  kind := h.kind 0 (Nat.succ_pos _) t rfl u rfl
  text := fun noKeyword _ =>
    (h.text 0 (Nat.succ_pos _) t rfl u rfl).resolve_right fun ⟨keyword, _⟩ =>
      Bool.false_ne_true (noKeyword.symm.trans keyword)

/-- Two texts that differ in layout and letter case read alike. -/
theorem readAlike (h : SameButLayout ts us) (ho : Orderly ts) (hts : ∀ t ∈ ts, t.Genuine)
    (hus : ∀ u ∈ us, u.Genuine) : ReadAlike ts us := by
  induction ho generalizing us with
  | @last t isEnd =>
    obtain ⟨u, rfl⟩ := List.length_eq_one_iff.1 h.length.symm
    exact .last (h.alike (hts _ List.mem_cons_self) (hus _ List.mem_cons_self)) isEnd
  | @cons t ts _ _ _ hts' ih =>
    obtain ⟨t', ts, rfl⟩ := List.exists_cons_of_ne_nil hts'.ne_nil
    obtain ⟨u, us, rfl⟩ := List.exists_cons_of_length_eq_add_one h.length.symm
    obtain ⟨u', us, rfl⟩ := List.exists_cons_of_length_eq_add_one h.tail.length.symm
    obtain ⟨ht, hts⟩ := List.forall_mem_cons.1 hts
    obtain ⟨hu, hus⟩ := List.forall_mem_cons.1 hus
    have gap := h.adjacent 0 (Nat.succ_pos _) t rfl t' rfl u rfl u' rfl
    refine .cons (h.alike ht hu) gap (fun isDot _ adjacent => ?_) (ih h.tail hts hus)
    have text := h.text 1 (Nat.succ_lt_succ (Nat.succ_pos _)) t' rfl u' rfl
    exact text.resolve_right fun ⟨_, _, apart⟩ =>
      apart ⟨Nat.one_pos, t, rfl, t', rfl, isDot, adjacent⟩

end SameButLayout

end ConnectorQuery
