import ConnectorQuery.Proofs.Grammar.Recovery

/-!
# Reading without looking ahead

Two lists of tokens *agree* on their first tokens when these look alike: kind,
text, and whether there is a gap in front of each (`Agree`). A reader that has
both before it goes the same way through them, for as long as they agree: it stops
at the same token with the same answer, or gives up at the same token with the
same complaint (`InStep`). For nothing depends on tokens further on, with one
exception. Whether a timestamp is a call shows at the second parenthesis, so a
parenthesis behind the path of a timestamp may be where the ways part.

* `SteadyAt`: a reader that keeps in step, unless it meets such an exception;
* `SteadyAt.bind`: two readers, one behind the other;
* `steadyAt_emptyCall`: the only reader with an exception of its own;
* `steadyAt_statement`, `refuses_of_agree`: the reader of a whole statement.
-/

namespace ConnectorQuery

open Grammar

/-! ## Tokens that look alike -/

/-- The first `n` tokens of both lists are alike, and so are the gaps between
    them. -/
structure Agree (n : Nat) (ts us : List Token) : Prop where
  alike : ∀ i < n, ∃ t u, ts[i]? = some t ∧ us[i]? = some u ∧ t.kind = u.kind ∧ t.text = u.text
  adjacent : ∀ i, i + 1 < n → ∀ t t' u u', ts[i]? = some t → ts[i + 1]? = some t' →
    us[i]? = some u → us[i + 1]? = some u' →
    (t'.span.start = t.span.stop ↔ u'.span.start = u.span.stop)

namespace Agree

variable {n : Nat} {ts us : List Token} {t t' u u' : Token}

/-- Tokens that agree still do so behind the first few. -/
theorem drop (h : Agree n ts us) (j : Nat) : Agree (n - j) (ts.drop j) (us.drop j) := by
  refine ⟨fun i hi => ?_, fun i hi t t' u u' ht ht' hu hu' => ?_⟩
  · obtain ⟨t, u, ht, hu, same⟩ := h.alike (j + i) (by omega)
    exact ⟨t, u, by rwa [List.getElem?_drop], by rwa [List.getElem?_drop], same⟩
  · rw [List.getElem?_drop] at ht ht' hu hu'
    exact h.adjacent (j + i) (by omega) t t' u u' ht ht' hu hu'

/-- A list agrees with itself on its first token. -/
theorem one (t : Token) (ts : List Token) : Agree 1 (t :: ts) (t :: ts) :=
  ⟨fun i hi => ⟨t, t, by simp [Nat.lt_one_iff.1 hi], by simp [Nat.lt_one_iff.1 hi], rfl, rfl⟩,
    fun i hi => absurd hi (by omega)⟩

/-- Tokens that agree begin with the same kind. -/
theorem head (h : Agree n (t :: ts) (u :: us)) (hn : 0 < n) : t.kind = u.kind := by
  obtain ⟨_, _, ht, hu, kind, -⟩ := h.alike 0 hn
  cases ht
  cases hu
  exact kind

/-- Where a second token agrees, there is one on both sides. -/
theorem second (h : Agree n (t :: ts) (u :: us)) (hn : 1 < n) : ∃ t' ts' u' us',
    ts = t' :: ts' ∧ us = u' :: us' ∧ t'.kind = u'.kind ∧
      (t'.span.start = t.span.stop ↔ u'.span.start = u.span.stop) := by
  obtain ⟨t', u', ht, hu, kind, -⟩ := h.alike 1 hn
  rw [List.getElem?_cons_succ, ← List.head?_eq_getElem?] at ht hu
  obtain ⟨ts', rfl⟩ := List.head?_eq_some_iff.1 ht
  obtain ⟨us', rfl⟩ := List.head?_eq_some_iff.1 hu
  exact ⟨t', ts', u', us', rfl, rfl, kind, h.adjacent 0 hn t t' u u' rfl rfl rfl rfl⟩

end Agree

/-- Whether a token sticks to the one in front is a matter of their kinds and of the gap. -/
theorem Grammar.sticks_congr {t t' u u' : Token} (kind : t.kind = u.kind) (kind' : t'.kind = u'.kind)
    (gap : t'.span.start = t.span.stop ↔ u'.span.start = u.span.stop) :
    Sticks t t' ↔ Sticks u u' := by
  rw [Sticks, Sticks, kind, kind', gap]

/-- Whether a segment goes on behind a dot is a matter of its kind and of the gap. -/
theorem Grammar.continues_congr {t t' u u' : Token} (kind : t'.kind = u'.kind)
    (gap : t'.span.start = t.span.stop ↔ u'.span.start = u.span.stop) :
    Continues t t' ↔ Continues u u' := by
  rw [Continues, Continues, kind, gap]

namespace Parser

variable {α β γ δ : Type}

/-! ## Readers in step -/

/-- The outcomes `x` at `c` and `y` at `d` are in step where the first `n` tokens
    agree: if `x` stops at one of these, with an answer or a complaint, then `y` stops
    at the same one and with the same, unless there is an exception. -/
structure InStep (exception : Prop) (tree : α → β) (n : Nat) (c d : Cursor)
    (x y : Except GrammarError (α × Cursor)) : Prop where
  error : ∀ e, x = .error e → ∃ i expected t, c.tokens[i]? = some t ∧ e = .unexpected expected t ∧
    (i < n → exception ∨ ∃ u, d.tokens[i]? = some u ∧ y = .error (.unexpected expected u))
  ok : ∀ a c', x = .ok (a, c') → ∃ i, c'.tokens = c.tokens.drop i ∧
    (i < n → exception ∨ ∃ b d', y = .ok (b, d') ∧ d'.tokens = d.tokens.drop i ∧ tree b = tree a)

/-- The cursors stand before tokens in order, and the first `n` of these agree, the
    ones at hand at least. -/
structure Alongside (n : Nat) (c d : Cursor) : Prop where
  pos : 0 < n
  orderly : Orderly c.tokens
  orderly' : Orderly d.tokens
  agree : Agree n c.tokens d.tokens

/-- The readers `p` and `q` are in step, the one from `c` on and the other from
    wherever the first tokens agree with those at `c`. An exception is a matter of
    the tokens at `c`, and of those from the last one on that agrees. -/
def SteadyAt (exception : List Token → List Token → Prop) (tree : α → β) (p q : Parser α)
    (c : Cursor) : Prop :=
  ∀ n d, Alongside n c d →
    InStep (exception c.tokens (c.tokens.drop (n - 1))) tree n c d (p c) (q d)

/-- There is no exception. -/
def Nowhere (_ _ : List Token) : Prop :=
  False

/-- The readers `p` and `q` are in step wherever they begin. -/
def Steady (tree : α → β) (p q : Parser α) : Prop :=
  ∀ c, SteadyAt Nowhere tree p q c

/-- What the answer is does not matter. -/
def unseen (_ : α) : Unit :=
  ()

section

variable {n i : Nat} {c c' d d' : Cursor}

/-- The tokens at hand are of one kind. -/
theorem Alongside.kind (h : Alongside n c d) : c.here.kind = d.here.kind :=
  h.agree.head h.pos

/-- Further on the cursors are still alongside, before the last token that agrees. -/
theorem Alongside.further (h : Alongside n c d) (hi : i < n) (hc' : c'.tokens = c.tokens.drop i)
    (hd' : d'.tokens = d.tokens.drop i) : Alongside (n - i) c' d' where
  pos := by omega
  orderly := h.orderly.of_suffix (hc' ▸ List.drop_suffix _ _) (List.cons_ne_nil _ _)
  orderly' := h.orderly'.of_suffix (hd' ▸ List.drop_suffix _ _) (List.cons_ne_nil _ _)
  agree := hc' ▸ hd' ▸ h.agree.drop i

/-- A cursor is alongside itself. -/
theorem alongside_self (ho : Orderly c.tokens) : Alongside 1 c c :=
  ⟨Nat.one_pos, ho, ho, .one _ _⟩

/-- Both cursors leave the token at hand, unless it is the end. -/
theorem Alongside.advance (h : Alongside n c d) (hend : c.here.kind ≠ .endOfText) :
    c.advance.tokens = c.tokens.drop 1 ∧ d.advance.tokens = d.tokens.drop 1 := by
  rw [Cursor.tokens_advance h.orderly hend, Cursor.tokens_advance h.orderly' (h.kind ▸ hend)]
  exact ⟨rfl, rfl⟩

end

section

variable {exception exception' : List Token → List Token → Prop} {tree : α → γ} {tree' : β → δ}
  {p q : Parser α} {f g : α → Parser β} {n i : Nat} {c c' d d' : Cursor} {here : Prop}
  {a b : α} {x y : Except GrammarError (α × Cursor)}

/-- An answer on the spot. -/
theorem InStep.answer (h : tree b = tree a) : InStep here tree n c d (.ok (a, c)) (.ok (b, d)) := by
  refine ⟨nofun, ?_⟩
  rintro _ _ ⟨⟩
  exact ⟨0, rfl, fun _ => .inr ⟨b, d, rfl, rfl, h⟩⟩

/-- The tokens at hand are refused. -/
theorem InStep.refuse (expected : String) : InStep here tree n c d
    (.error (.unexpected expected c.here)) (.error (.unexpected expected d.here)) := by
  refine ⟨?_, nofun⟩
  rintro _ ⟨⟩
  exact ⟨0, expected, c.here, rfl, rfl, fun _ => .inr ⟨d.here, rfl, rfl⟩⟩

/-- Whatever happens at the other cursor, a reader from further on points at
    tokens further on. -/
theorem InStep.beyond (h : SteadyAt exception tree p q c') (ho : Orderly c.tokens)
    (hc' : c'.tokens = c.tokens.drop i) (hi : i < n → here) : InStep here tree n c d (p c') y := by
  have ho' : Orderly c'.tokens := ho.of_suffix (hc' ▸ List.drop_suffix _ _) (List.cons_ne_nil _ _)
  obtain ⟨error, ok⟩ := h 1 c' (alongside_self ho')
  constructor
  · intro e he
    obtain ⟨j, expected, t, ht, rfl, -⟩ := error e he
    rw [hc', List.getElem?_drop] at ht
    exact ⟨i + j, expected, t, ht, rfl, fun hj => .inl (hi (by omega))⟩
  · intro a c'' ha
    obtain ⟨j, hc'', -⟩ := ok a c'' ha
    rw [hc', List.drop_drop] at hc''
    exact ⟨i + j, hc'', fun hj => .inl (hi (by omega))⟩

/-- Readers in step further on are in step. -/
theorem SteadyAt.inStep (h : SteadyAt exception tree p q c') (along : Alongside n c d)
    (hc' : c'.tokens = c.tokens.drop i) (hd' : i < n → d'.tokens = d.tokens.drop i)
    (hexc : exception c'.tokens (c.tokens.drop (n - 1)) → here) :
    InStep here tree n c d (p c') (q d') := by
  by_cases hi : i < n
  · have hd' := hd' hi
    -- the last token that agrees is the same one, counted from `c` or from `c'`
    have last : c'.tokens.drop (n - i - 1) = c.tokens.drop (n - 1) := by
      rw [hc', List.drop_drop]
      congr 1
      omega
    obtain ⟨error, ok⟩ := h (n - i) d' (along.further hi hc' hd')
    rw [last] at error ok
    constructor
    · intro e he
      obtain ⟨j, expected, t, ht, rfl, same⟩ := error e he
      rw [hc', List.getElem?_drop] at ht
      refine ⟨i + j, expected, t, ht, rfl, fun hj => (same (by omega)).imp hexc ?_⟩
      rintro ⟨u, hu, hy⟩
      rw [hd', List.getElem?_drop] at hu
      exact ⟨u, hu, hy⟩
    · intro a c'' ha
      obtain ⟨j, hc'', same⟩ := ok a c'' ha
      rw [hc', List.drop_drop] at hc''
      refine ⟨i + j, hc'', fun hj => (same (by omega)).imp hexc ?_⟩
      rintro ⟨b, d'', hy, hd'', htree⟩
      rw [hd', List.drop_drop] at hd''
      exact ⟨b, d'', hy, hd'', htree⟩
  · exact .beyond h along.orderly hc' (absurd · hi)

/-- Two outcomes in step, and readers behind them. The exceptions are those of the
    outcomes, and those that the readers meet further on. -/
theorem InStep.bind (h : InStep here tree n c d x y) (along : Alongside n c d)
    (hf : ∀ a c' b, x = .ok (a, c') → tree b = tree a → SteadyAt exception tree' (f a) (g b) c')
    (hexc : ∀ a c', x = .ok (a, c') → exception c'.tokens (c.tokens.drop (n - 1)) → here) :
    InStep here tree' n c d (x >>= fun r => f r.1 r.2) (y >>= fun r => g r.1 r.2) := by
  obtain ⟨error, ok⟩ := h
  cases x with
  | error e =>
    obtain ⟨i, expected, t, ht, rfl, same⟩ := error e rfl
    refine ⟨?_, nofun⟩
    rintro _ ⟨⟩
    refine ⟨i, expected, t, ht, rfl, fun hi => (same hi).imp_right ?_⟩
    rintro ⟨u, hu, rfl⟩
    exact ⟨u, hu, rfl⟩
  | ok r =>
    obtain ⟨a, c'⟩ := r
    obtain ⟨i, hc', same⟩ := ok a c' rfl
    -- what the second reader does only counts where the first stops before the tokens part
    by_cases hi : i < n
    · rcases same hi with exc | ⟨b, d', rfl, hd', htree⟩
      · exact .beyond (hf a c' a rfl rfl) along.orderly hc' fun _ => exc
      · exact (hf a c' b rfl htree).inStep along hc' (fun _ => hd') (hexc a c' rfl)
    · exact .beyond (hf a c' a rfl rfl) along.orderly hc' (absurd · hi)

/-- Two readers, one behind the other. -/
theorem SteadyAt.bind (hp : SteadyAt exception tree p q c)
    (hf : ∀ a c' b, p c = .ok (a, c') → tree b = tree a →
      SteadyAt exception' tree' (f a) (g b) c')
    (hexc : ∀ a c' last, Orderly c.tokens → p c = .ok (a, c') → exception' c'.tokens last →
      exception c.tokens last) :
    SteadyAt exception tree' (p >>= f) (q >>= g) c :=
  fun n d along => (hp n d along).bind along hf fun a c' ha => hexc a c' _ along.orderly ha

/-- Two readers without exceptions, one behind the other. -/
theorem SteadyAt.followed (hp : SteadyAt Nowhere tree p q c)
    (hf : ∀ a c' b, p c = .ok (a, c') → tree b = tree a →
      SteadyAt Nowhere tree' (f a) (g b) c') : SteadyAt Nowhere tree' (p >>= f) (q >>= g) c :=
  hp.bind hf fun _ _ _ _ _ => False.elim

/-- Readers in a row are in step if each is, and the second only needs what the first tree
    shows. -/
theorem Steady.bind (hp : Steady tree p q)
    (hf : ∀ a b, tree b = tree a → Steady tree' (f a) (g b)) : Steady tree' (p >>= f) (q >>= g) :=
  fun c => (hp c).followed fun a c' b _ h => hf a b h c'

/-- An answer without reading is the same everywhere. -/
theorem steady_pure (h : tree b = tree a) : Steady tree (pure a) (pure b) :=
  fun _ _ _ _ => .answer h

/-- An answer that is made of what was read. -/
theorem SteadyAt.answer {f g : α → β} (hp : SteadyAt exception tree p q c) :
    SteadyAt exception unseen (do let a ← p; return f a : Parser β) (do let a ← q; return g a) c :=
  have answers (a b : α) (c' : Cursor) :
      SteadyAt Nowhere unseen (pure (f a)) (pure (g b)) c' := fun _ _ _ => .answer rfl
  hp.bind (fun a c' b _ _ => answers a b c') fun _ _ _ _ _ => False.elim

/-- What is put together from an answer is in step when nothing of it matters. -/
theorem Steady.answer {f g : α → β} (hp : Steady tree p q) :
    Steady unseen (do let a ← p; return f a : Parser β) (do let a ← q; return g a) :=
  fun c => (hp c).answer

theorem Steady.map (hp : Steady tree p q) (f g : α → β) : Steady unseen (f <$> p) (g <$> q) :=
  hp.answer

/-- More exceptions are made. -/
theorem SteadyAt.imp (h : SteadyAt exception tree p q c)
    (himp : ∀ last, exception c.tokens last → exception' c.tokens last) :
    SteadyAt exception' tree p q c := by
  intro n d along
  obtain ⟨error, ok⟩ := h n d along
  constructor
  · intro e he
    obtain ⟨i, expected, t, ht, rfl, same⟩ := error e he
    exact ⟨i, expected, t, ht, rfl, fun hi => (same hi).imp_left (himp _)⟩
  · intro a c' ha
    obtain ⟨i, hc', same⟩ := ok a c' ha
    exact ⟨i, hc', fun hi => (same hi).imp_left (himp _)⟩

end

/-! ## Tokens -/

section

variable {tree : α → β} {p q : Parser α}

/-- The tokens at hand are passed, unless these are the last ones. -/
theorem steady_next : Steady unseen next next := by
  intro c n d along
  refine ⟨nofun, ?_⟩
  rintro _ _ ⟨⟩
  by_cases hend : c.here.kind = .endOfText
  · rw [Cursor.advance_eq_self (along.orderly.eq_nil hend)]
    refine ⟨0, rfl, fun _ => .inr ⟨d.here, d, ?_, rfl, rfl⟩⟩
    rw [next, Cursor.advance_eq_self (along.orderly'.eq_nil (along.kind ▸ hend))]
  · obtain ⟨hc, hd⟩ := along.advance hend
    exact ⟨1, hc, fun _ => .inr ⟨d.here, d.advance, rfl, hd, rfl⟩⟩

theorem steady_discard_next : Steady unseen (discard next) (discard next) :=
  steady_next.answer

/-- Readers that look at a kind first make the same choice. -/
theorem steady_whenAt {wanted : Token → Bool} {a b : α}
    (hw : ∀ t u : Token, t.kind = u.kind → wanted t = wanted u) (h : Steady tree p q)
    (hab : tree b = tree a) : Steady tree (whenAt wanted p a) (whenAt wanted q b) := by
  intro c n d along
  rw [whenAt, whenAt, ← hw _ _ along.kind]
  split
  · exact h c n d along
  · exact .answer hab

/-- The reader for one kind decides by the kind at hand. -/
theorem steady_expect (k : TokenKind) : Steady unseen (expect k) (expect k) := by
  intro c n d along
  rw [expect, peek_bind, peek_bind, ite_apply, ite_apply, ← along.kind]
  split
  · exact steady_discard_next c n d along
  · exact .refuse _

theorem steady_skip (k : TokenKind) : Steady unseen (skip k) (skip k) :=
  steady_whenAt (fun _ _ h => congrArg (· == k) h) steady_discard_next rfl

/-- The span of a phrase is not seen. -/
theorem steady_spanFrom (start start' : Span) :
    Steady unseen (spanFrom start) (spanFrom start') :=
  fun _ _ _ _ => .answer rfl

end

/-! ## Names and values -/

/-- A run shows at the tokens up to the one behind it. -/
theorem isRun_of_agree {t : Token} {run rest : List Token} (h : IsRun t run rest) :
    ∀ {n : Nat} {u : Token} {us : List Token}, Agree n (t :: (run ++ rest)) (u :: us) →
      run.length + 1 < n →
      IsRun u (us.take run.length) (us.drop run.length) ∧
        ((us.take run.length).getLastD u).kind = (run.getLastD t).kind := by
  induction h with
  -- the run ends in front of a token that does not stick, and both lists show such a token
  | @stop t rest apart =>
    intro n u us agree hn
    have kind := agree.head (Nat.zero_lt_of_lt hn)
    obtain ⟨t', _, u', us', rfl, rfl, kind', gap⟩ := agree.second hn
    refine ⟨.stop fun v hv => ?_, kind.symm⟩
    obtain rfl := Option.some.inj hv
    exact fun h => apart t' rfl ((sticks_congr kind kind' gap).2 h)
  | @more t t' run rest sticks _ ih =>
    intro n u us agree hn
    have kind := agree.head (Nat.zero_lt_of_lt hn)
    rw [List.length_cons] at hn
    obtain ⟨_, _, u', us', ⟨rfl, rfl⟩, rfl, kind', gap⟩ := agree.second (by omega)
    obtain ⟨isRun, last⟩ := ih (agree.drop 1) (by omega)
    rw [List.length_cons, List.take_succ_cons, List.drop_succ_cons, List.getLastD_cons,
      List.getLastD_cons]
    exact ⟨.more ((sticks_congr kind kind' gap).1 sticks) isRun, last⟩

/-- Two paths are read in step, and a dot dangles behind both or behind neither. -/
theorem steady_path (expected : String) :
    Steady FieldPath.dangling (path expected) (path expected) := by
  intro c n d along
  by_cases value : c.here.kind.isValue
  · refine ⟨fun e he => ?_, fun p c' hp => ?_⟩
    · rw [path, peek_bind, ite_apply, if_pos value] at he
      cases he
    obtain ⟨isPath, -⟩ := path_sound expected along.orderly hp
    have agree := along.agree
    generalize c.tokens = ts at isPath agree ⊢
    generalize hbare : p.bare = tree at isPath
    cases isPath with
    | @intro first run _ value isRun =>
      refine ⟨run.length + 1, by simp, fun hi => .inr ?_⟩
      have agree : Agree n (first :: (run ++ c'.tokens)) (d.here :: d.ahead) := agree
      -- the same run is read at `d`, and its last token tells whether a dot dangles
      obtain ⟨isRun, last⟩ := isRun_of_agree isRun agree hi
      have value : d.here.kind.isValue = true := agree.head along.pos ▸ value
      have spelled := IsPath.intro value isRun
      rw [List.take_append_drop] at spelled
      obtain ⟨q, d', hq, hbare', hd', -⟩ :=
        path_complete expected along.orderly' spelled fun _ _ => trivial
      refine ⟨q, d', hq, hd', ?_⟩
      exact (congrArg FieldPath.dangling hbare').trans
        ((congrArg (· == TokenKind.mark .dot) last).trans (congrArg FieldPath.dangling hbare).symm)
  · rw [path, peek_bind, peek_bind, ite_apply, ite_apply, ← along.kind, if_neg value, if_neg value]
    exact .refuse _

theorem steady_text (expected : String) : Steady unseen (text expected) (text expected) :=
  (steady_path expected).answer

/-- A name that ends in a dot is refused, so both are refused or none. -/
theorem steady_name (expected : String) : Steady unseen (name expected) (name expected) := by
  refine (steady_path expected).bind fun p q dangling => ?_
  intro c n d along
  rw [peek_bind, peek_bind, ite_apply, ite_apply, dangling]
  split
  · exact .refuse _
  · exact .answer rfl

theorem steady_value (expected : String) : Steady unseen (value expected) (value expected) :=
  (steady_skip _).bind fun _ _ _ => steady_text _

/-! ## Lists -/

section

variable {tree : α → β} {item : Parser α}

/-- An item behind a comma gets past it, so a list goes on behind each comma. -/
theorem moreItems_eq (hf : Forward item) {c : Cursor} (ho : Orderly c.tokens) :
    moreItems item c =
      if c.here.kind = .mark .comma then
        (do let a ← item; let as ← moreItems item; return a :: as : Parser (List α)) c.advance
      else .ok ([], c) := by
  rw [moreItems]
  split
  · rename_i atComma
    change _ = Except.bind (item c.advance) _
    cases h : item c.advance with
    | error e => rfl
    | ok r =>
      obtain ⟨a, c'⟩ := r
      have shorter := Cursor.ahead_length_lt ho (by simp [atComma]) (hf _ _ _ h)
      change (if _ then _ else _) = Except.bind (moreItems item c') _
      rw [if_pos shorter]
      cases moreItems item c' <;> rfl
  · rfl

/-- The items behind the first one are read in step. The induction is on the tokens ahead,
    and an item takes at least one of them. -/
theorem steadyAt_moreItems (hf : Forward item) (h : Steady tree item item) (c : Cursor) :
    SteadyAt Nowhere unseen (moreItems item) (moreItems item) c := by
  generalize hlength : c.ahead.length = length
  induction length using Nat.strong_induction_on generalizing c with
  | h length ih =>
    subst hlength
    intro n d along
    rw [moreItems_eq hf along.orderly, moreItems_eq hf along.orderly', ← along.kind]
    split
    · rename_i atComma
      have hend : c.here.kind ≠ .endOfText := atComma ▸ nofun
      obtain ⟨hc, hd⟩ := along.advance hend
      -- behind the comma comes an item, and then fewer tokens are ahead
      have items : SteadyAt Nowhere unseen
          (do let a ← item; let as ← moreItems item; return a :: as : Parser (List α))
          (do let a ← item; let as ← moreItems item; return a :: as) c.advance := by
        refine (h c.advance).followed fun a c' b ha _ => ?_
        have shorter := Cursor.ahead_length_lt along.orderly hend (hf _ _ _ ha)
        exact (ih _ shorter c' rfl).answer
      exact items.inStep along hc (fun _ => hd) id
    · exact .answer rfl

/-- Lists are in step if their items are. -/
theorem steady_commaList (hf : Forward item) (h : Steady tree item item) :
    Steady unseen (commaList item) (commaList item) :=
  h.bind fun _ _ _ => Steady.bind (steadyAt_moreItems hf h) fun _ _ _ => steady_pure rfl

end

theorem steady_assignment : Steady unseen assignment assignment :=
  (steady_text _).bind fun _ _ _ => (steady_expect _).bind fun _ _ _ => (steady_text _).answer

theorem steady_assignments : Steady unseen assignments assignments :=
  (steady_expect _).bind fun _ _ _ =>
    (steady_commaList forward_assignment steady_assignment).bind fun _ _ _ =>
      (steady_expect _).answer

/-! ## Columns -/

/-- Behind a dot comes a star, a segment and maybe more of them, or nothing. -/
theorem segments_eq (c : Cursor) : segments c =
    if c.here.kind = .mark .dot then
      if c.advance.here.kind = .mark .star then
        (do discard next; return (["*"], false) : Parser (List String × Bool)) c.advance
      else if continuesBehind c.advance.here c.here then
        (do
          discard next
          let r ← segments
          return (c.advance.here.value :: r.1, r.2) : Parser (List String × Bool)) c.advance
      else (return ([], true) : Parser (List String × Bool)) c.advance
    else .ok (([], false), c) := by
  rw [segments, moreSegments]
  by_cases atDot : c.here.kind = .mark .dot
  · rw [if_pos atDot, if_pos atDot]
    by_cases atStar : c.advance.here.kind = .mark .star
    · rw [if_pos atStar, if_pos atStar]
      rfl
    rw [if_neg atStar, if_neg atStar]
    by_cases continues : continuesBehind c.advance.here c.here
    · rw [if_pos continues, if_pos continues]
      rfl
    · rw [if_neg continues, if_neg continues]
      rfl
  · rw [if_neg atDot, if_neg atDot]

/-- Whether a keyword is a segment shows at the gap in front of it. -/
theorem Alongside.continuesBehind_congr {n : Nat} {c d : Cursor} (h : Alongside n c d)
    (hend : c.here.kind ≠ .endOfText) (hn : 1 < n) :
    continuesBehind c.advance.here c.here = continuesBehind d.advance.here d.here := by
  obtain ⟨hc, hd⟩ := h.advance hend
  have kind := (h.further hn hc hd).kind
  have second {c : Cursor} (hc : c.advance.tokens = c.tokens.drop 1) :
      c.tokens[1]? = some c.advance.here := by
    have first := congrArg (·[0]?) hc
    simp only [List.getElem?_drop] at first
    exact first.symm
  have gap := h.agree.adjacent 0 hn _ _ _ _ rfl (second hc) rfl (second hd)
  have same := continues_congr kind gap
  rw [Bool.eq_iff_iff]
  exact ⟨fun h => continuesBehind_of_continues (same.1 (continues_of_continuesBehind h)),
    fun h => continuesBehind_of_continues (same.2 (continues_of_continuesBehind h))⟩

/-- The segments of a column are read in step, by induction on the tokens ahead. -/
theorem steady_segments : Steady unseen segments segments := by
  intro c
  generalize hlength : c.ahead.length = length
  induction length using Nat.strong_induction_on generalizing c with
  | h length ih =>
    subst hlength
    intro n d along
    rw [segments_eq c, segments_eq d, ← along.kind]
    split
    · rename_i atDot
      have hend : c.here.kind ≠ .endOfText := atDot ▸ nofun
      obtain ⟨hc, hd⟩ := along.advance hend
      -- the three ways to go on behind a dot, each in step by itself
      have star : Steady unseen
          (do discard next; return (["*"], false) : Parser (List String × Bool))
          (do discard next; return (["*"], false)) := steady_discard_next.answer
      have more (v v' : String) : SteadyAt Nowhere unseen
          (do discard next; let r ← segments; return (v :: r.1, r.2) : Parser (List String × Bool))
          (do discard next; let r ← segments; return (v' :: r.1, r.2)) c.advance := by
        refine (steady_discard_next c.advance).followed fun _ c' _ hpass _ => ?_
        have shorter :=
          Cursor.ahead_length_lt along.orderly hend (forward_discard_next _ _ _ hpass)
        exact (ih _ shorter c' rfl).answer
      by_cases hn : 1 < n
      · rw [← (along.further hn hc hd).kind, ← along.continuesBehind_congr hend hn]
        split
        · exact (star c.advance).inStep along hc (fun _ => hd) id
        split
        · exact (more _ _).inStep along hc (fun _ => hd) id
        · exact (steady_pure rfl c.advance).inStep along hc (fun _ => hd) id
      · -- what is behind the dot need not agree
        split
        · exact .beyond (star c.advance) along.orderly hc (absurd · hn)
        split
        · exact .beyond (more _ "") along.orderly hc (absurd · hn)
        · exact .beyond (steady_pure rfl c.advance) along.orderly hc (absurd · hn)
    · exact .answer rfl

theorem steady_rename : Steady unseen rename rename :=
  steady_discard_next.bind fun _ _ _ => (steady_text _).answer

/-- What comes behind the first token of a column is in step. -/
theorem steady_columnBehind (mayRename : Bool) (first first' : Token) :
    Steady unseen (columnBehind mayRename first) (columnBehind mayRename first') :=
  steady_segments.bind fun _ _ _ =>
    (steady_whenAt (fun _ _ h => congrArg (mayRename && · == .keyword .as) h) steady_rename rfl).bind
      fun _ _ _ => (steady_spanFrom _ _).answer

/-- Columns are read in step, whichever way they begin. -/
theorem steady_column (mayRename : Bool) :
    Steady unseen (column mayRename) (column mayRename) := by
  intro c n d along
  rw [column, peek_bind, peek_bind, ite_apply, ite_apply, ite_apply, ite_apply, ← along.kind]
  split
  · exact steady_discard_next.answer c n d along
  split
  · exact (steady_discard_next.bind fun _ _ _ => steady_columnBehind _ _ _) c n d along
  · exact .refuse _

theorem steady_columns (mayRename : Bool) :
    Steady unseen (commaList (column mayRename)) (commaList (column mayRename)) :=
  steady_commaList (forward_column _) (steady_column _)

/-! ## Clauses -/

theorem steady_paths (expected : String) :
    Steady unseen (commaList (path expected)) (commaList (path expected)) :=
  steady_commaList (forward_path _) (steady_path _)

theorem steady_bucketCount : Steady unseen bucketCount bucketCount :=
  steady_discard_next.bind fun _ _ _ => (steady_text _).bind fun _ _ _ => (steady_expect _).answer

theorem steady_bucketing : Steady unseen bucketing bucketing :=
  (steady_whenAt (fun _ _ h => congrArg TokenKind.isValue h) (steady_paths _) rfl).bind
    fun _ _ _ => (steady_whenAt (fun _ _ h => congrArg (· == _) h) steady_bucketCount rfl).answer

theorem steady_marker : Steady unseen marker marker :=
  steady_next.answer

/-- What comes behind the key of a tag is read in step. -/
theorem steady_tagValue : Steady unseen tagValue tagValue := by
  intro c n d along
  rw [tagValue, peek_bind, peek_bind]
  simp only [ite_apply, ← along.kind]
  split
  · exact .answer rfl
  split
  · exact (steady_marker.bind fun _ _ _ => (steady_text _).answer) c n d along
  split
  · have further : Steady unseen (whenAt (·.kind.isValue) (some <$> text "a tag value") none)
        (whenAt (·.kind.isValue) (some <$> text "a tag value") none) :=
      steady_whenAt (fun _ _ h => congrArg TokenKind.isValue h) ((steady_text _).map _ _) rfl
    exact (steady_marker.bind fun _ _ _ => further.answer) c n d along
  · exact .refuse _

theorem steady_tagEntry : Steady unseen tagEntry tagEntry := by
  intro c n d along
  rw [tagEntry, peek_bind, peek_bind]
  exact ((steady_text _).bind fun _ _ _ => steady_tagValue.bind fun _ _ _ =>
    (steady_spanFrom _ _).answer) c n d along

theorem steady_tagEntries : Steady unseen tagEntries tagEntries :=
  (steady_expect _).bind fun _ _ _ =>
    (steady_whenAt (fun _ _ h => congrArg (· != _) h)
      (steady_commaList forward_tagEntry steady_tagEntry) rfl).bind fun _ _ _ =>
      (steady_expect _).answer

/-- The last token that agrees is a parenthesis at hand. -/
def AtParen (ts last : List Token) : Prop :=
  last = ts ∧ ∃ rest, Opens (.mark .openParen) ts rest

/-- Only here the token behind the one at hand counts. -/
theorem steadyAt_emptyCall (c : Cursor) : SteadyAt AtParen unseen emptyCall emptyCall c := by
  have call : Steady unseen (do discard next; discard next; return true : Parser Bool)
      (do discard next; discard next; return true) :=
    steady_discard_next.bind fun _ _ _ => steady_discard_next.answer
  have noCall : Steady unseen (return false : Parser Bool) (return false) := steady_pure rfl
  have reads (c : Cursor) : emptyCall c =
      if c.here.kind == .mark .openParen && c.nextKind == .mark .closeParen then
        (do discard next; discard next; return true : Parser Bool) c
      else (return false : Parser Bool) c := rfl
  intro n d along
  rw [reads c, reads d, ← along.kind]
  -- at any other token neither reader finds a call
  by_cases atParen : c.here.kind = .mark .openParen
  · by_cases hn : 1 < n
    · obtain ⟨t, ts, u, us, hc, hd, kind, -⟩ := along.agree.second hn
      have closes : c.nextKind = d.nextKind := by
        rw [Cursor.nextKind, Cursor.nextKind, hc, hd]
        exact kind
      rw [← closes]
      split
      · exact (call c).imp (fun _ => False.elim) n d along
      · exact (noCall c).imp (fun _ => False.elim) n d along
    · -- the parenthesis is the last token that agrees
      have exc : AtParen c.tokens (c.tokens.drop (n - 1)) := by
        rw [Nat.sub_eq_zero_of_le (Nat.le_of_not_lt hn)]
        exact ⟨rfl, c.ahead, c.here, atParen, rfl⟩
      split
      · exact .beyond (call c) along.orderly (List.drop_zero).symm fun _ => exc
      · exact .beyond (noCall c) along.orderly (List.drop_zero).symm fun _ => exc
  · rw [beq_false_of_ne atParen]
    exact (noCall c).imp (fun _ => False.elim) n d along

/-- The clause of a timestamp up to its path. -/
def IsTimestampField : Phrase FieldPath :=
  fun ts field rest => ∃ behind path, Opens (.keyword .withTimestamp) ts behind ∧
    MayOpen (.mark .equals) behind path ∧ IsPath path field rest

/-- The tokens `ts` open with the clause of a timestamp, up to its path, and go on
    with a parenthesis at `parens`. -/
def TimestampCall (ts parens : List Token) : Prop :=
  ∃ field rest, IsTimestampField ts field parens ∧ Opens (.mark .openParen) parens rest

/-- A timestamp clause is in step but for the empty call, which looks at two tokens. -/
theorem inStep_timestamp {n : Nat} {c d : Cursor} (along : Alongside n c d)
    (hk : c.here.kind = .keyword .withTimestamp) :
    InStep (TimestampCall c.tokens (c.tokens.drop (n - 1))) unseen n c d
      (clauseBody.ofKeyword c.here .withTimestamp c.advance)
      (clauseBody.ofKeyword d.here .withTimestamp d.advance) := by
  -- from the last reader to the first, and the exception is told in terms of the whole clause
  have call (field field' : FieldPath) (c : Cursor) : SteadyAt AtParen unseen
      (do let call ← emptyCall; return .timestamp field call : Parser Clause)
      (do let call ← emptyCall; return .timestamp field' call) c := (steadyAt_emptyCall c).answer
  have field (c : Cursor) : SteadyAt
      (fun ts last => ∃ field rest, IsPath ts field last ∧ Opens (.mark .openParen) last rest) unseen
      (do
        let field ← path "a timestamp field or sys_time()"
        let call ← emptyCall
        return .timestamp field call : Parser Clause)
      (do
        let field ← path "a timestamp field or sys_time()"
        let call ← emptyCall
        return .timestamp field call) c := by
    refine ((steady_path _ c).imp fun _ => False.elim).bind (fun p c' q _ _ => call p q c') ?_
    rintro p c' _ ho hp ⟨rfl, rest, opens⟩
    exact ⟨p.bare, rest, (path_sound _ ho hp).1, opens⟩
  have body : SteadyAt (fun ts last => ∃ path field rest, MayOpen (.mark .equals) ts path ∧
      IsPath path field last ∧ Opens (.mark .openParen) last rest) unseen
      (clauseBody.ofKeyword c.here .withTimestamp) (clauseBody.ofKeyword d.here .withTimestamp)
      c.advance := by
    refine ((steady_skip _ c.advance).imp fun _ => False.elim).bind (fun _ c' _ _ _ => field c') ?_
    rintro _ c' last ho hp ⟨field, rest, isField, opens⟩
    exact ⟨c'.tokens, field, rest, (skip_sound _ ho hp).1, isField, opens⟩
  obtain ⟨hc, hd⟩ := along.advance (hk ▸ nofun)
  refine body.inStep along hc (fun _ => hd) ?_
  rintro ⟨path, field, rest, equals, isField, opens⟩
  exact ⟨field, rest, ⟨_, path, opens_advance along.orderly hk nofun, equals, isField⟩, opens⟩

/-- Behind its keyword every other clause is in step without exception. -/
theorem inStep_ofKeyword {n : Nat} {c d : Cursor} {k : Keyword} (along : Alongside n c d)
    (hk : c.here.kind = .keyword k) :
    InStep (TimestampCall c.tokens (c.tokens.drop (n - 1))) unseen n c d
      (clauseBody.ofKeyword c.here k c.advance) (clauseBody.ofKeyword d.here k d.advance) := by
  obtain ⟨hc, hd⟩ := along.advance (hk ▸ nofun)
  have body {p q : Parser Clause} (h : Steady unseen p q) :
      InStep (TimestampCall c.tokens (c.tokens.drop (n - 1))) unseen n c d
        (p c.advance) (q d.advance) :=
    (h c.advance).inStep along hc (fun _ => hd) False.elim
  cases k with
  | flag f => exact body (steady_pure rfl)
  | setting s => exact body (steady_value _).answer
  | primaryKey => exact body (steady_columns _).answer
  | ignore => exact body (steady_columns _).answer
  | partitionBy => exact body (steady_paths _).answer
  | distributeBy | clusterBy => exact body steady_bucketing
  | storeAs =>
    exact body ((steady_value _).bind fun _ _ _ =>
      (steady_whenAt (fun _ _ h => congrArg (· == _) h) steady_assignments rfl).answer)
  | withTimestamp => exact inStep_timestamp along hk
  | withTag | withTags => exact body steady_tagEntries.answer
  | withKey =>
    exact body ((steady_skip _).bind fun _ _ _ => (steady_expect _).bind fun _ _ _ =>
      (steady_commaList (forward_text _) (steady_text _)).bind fun _ _ _ => (steady_expect _).answer)
  | properties => exact body ((steady_skip _).bind fun _ _ _ => steady_assignments.answer)
  | insert | upsert | update | into | select | «from» | «as» | buckets => exact .refuse _

/-- A clause is in step, but for a timestamp. -/
theorem steadyAt_clause (c : Cursor) : SteadyAt TimestampCall unseen clause clause c := by
  intro n d along
  have body : InStep (TimestampCall c.tokens (c.tokens.drop (n - 1))) unseen n c d
      (clauseBody c.here c.advance) (clauseBody d.here d.advance) := by
    rw [clauseBody, clauseBody, ← along.kind]
    cases hk : c.here.kind with
    | keyword k => exact inStep_ofKeyword along hk
    | _ => exact .refuse _
  have span : Steady unseen (spanFrom c.here.span) (spanFrom d.here.span) := steady_spanFrom _ _
  exact body.bind along (fun _ c' _ _ _ => span.answer c') fun _ _ _ => False.elim

/-- The clauses from a cursor on. On tokens in order they come to an end. -/
def allClauses : Parser (List (Located Clause)) :=
  fun c => (clauses c).getD (.ok ([], c))

/-- Tokens in order close with the end of the text. -/
theorem closedByEnd_of_orderly {ts : List Token} (h : Orderly ts) :
    ∃ t, ts.getLast? = some t ∧ t.kind = .endOfText := by
  induction h with
  | last hk => exact ⟨_, rfl, hk⟩
  | cons _ _ _ hts ih =>
    obtain ⟨t, ht, hk⟩ := ih
    exact ⟨t, by rw [List.getLast?_cons, ht]; rfl, hk⟩

/-- On tokens in order the clauses are read to an end. -/
theorem clauses_eq_some {c : Cursor} (ho : Orderly c.tokens) : clauses c = some (allClauses c) := by
  obtain ⟨r, hr⟩ := Option.isSome_iff_exists.1 (clauses_isSome (closedByEnd_of_orderly ho))
  rw [allClauses, hr]
  rfl

/-- One clause at a time: what a run of clauses does, with no fuel left in it. -/
theorem allClauses_eq {c : Cursor} (ho : Orderly c.tokens) : allClauses c =
    if c.here.kind = .mark .semicolon ∨ c.here.kind = .endOfText then .ok ([], c)
    else (do
      let a ← clause
      let as ← allClauses
      return a :: as : Parser (List (Located Clause))) c := by
  rw [allClauses, clauses]
  split
  · rfl
  · rename_i goesOn
    change _ = Except.bind (clause c) _
    cases h : clause c with
    | error e => rfl
    | ok r =>
      obtain ⟨a, c'⟩ := r
      -- a clause takes its keyword at least, so the guard lets the rest be read
      have shorter :=
        Cursor.ahead_length_lt ho (fun hend => goesOn (.inr hend)) (clause_tokens_suffix h)
      change Option.getD (if _ then _ else _) _ = Except.bind (allClauses c') _
      rw [if_pos shorter, clauses_eq_some (clause_sound ho h).2]
      cases allClauses c' <;> rfl

/-- Behind clauses comes the path of a timestamp, and a parenthesis at `parens`. -/
def ClausesCall (ts parens : List Token) : Prop :=
  ∃ cs clause, IsSequence IsStatementClause ts cs clause ∧ TimestampCall clause parens

/-- Clauses are in step up to the first timestamp that is an exception. The induction is
    on the tokens ahead. -/
theorem steadyAt_allClauses (c : Cursor) :
    SteadyAt ClausesCall unseen allClauses allClauses c := by
  generalize hlength : c.ahead.length = length
  induction length using Nat.strong_induction_on generalizing c with
  | h length ih =>
    subst hlength
    intro n d along
    rw [allClauses_eq along.orderly, allClauses_eq along.orderly', ← along.kind]
    split
    · exact .answer rfl
    · rename_i goesOn
      have first : SteadyAt ClausesCall unseen clause clause c :=
        (steadyAt_clause c).imp fun _ call => ⟨[], c.tokens, .nil, call⟩
      have others (a b : Located Clause) (c' : Cursor) (ha : clause c = .ok (a, c')) :
          SteadyAt ClausesCall unseen
            (do let as ← allClauses; return a :: as : Parser (List (Located Clause)))
            (do let as ← allClauses; return b :: as) c' := by
        have shorter := Cursor.ahead_length_lt along.orderly (fun hend => goesOn (.inr hend))
          (clause_tokens_suffix ha)
        exact (ih _ shorter c' rfl).answer
      -- an exception behind the first clause is one behind all clauses
      refine first.bind (fun a c' b ha _ => others a b c' ha) ?_ n d along
      rintro a c' last ho ha ⟨cs, behind, areClauses, call⟩
      exact ⟨_ :: cs, behind, .cons (clause_sound ho ha).1 areClauses, call⟩

/-! ## Statements -/

/-- What comes in front of the select list is read in step. -/
theorem steady_verbAndTarget : Steady unseen verbAndTarget verbAndTarget := by
  have into (mode : WriteMode) :
      Steady unseen (verbAndTarget.intoTarget mode) (verbAndTarget.intoTarget mode) :=
    steady_next.bind fun _ _ _ => (steady_expect _).bind fun _ _ _ => (steady_name _).answer
  intro c n d along
  rw [verbAndTarget, peek_bind, peek_bind, ← along.kind]
  cases hk : c.here.kind with
  | keyword k =>
    cases k with
    | insert | upsert | update => exact into _ c n d along
    | select => exact .answer rfl
    | _ => exact .refuse _
  | _ => exact .refuse _

/-- A statement without clauses is read in step. -/
theorem steady_opening : Steady unseen opening opening := by
  intro c n d along
  rw [opening, peek_bind, peek_bind]
  exact (steady_verbAndTarget.bind fun _ _ _ => (steady_expect _).bind fun _ _ _ =>
    (steady_columns true).bind fun _ _ _ => (steady_expect _).bind fun _ _ _ =>
      (steady_name _).answer) c n d along

/-- The end of a statement is read in step. -/
theorem steady_ending (start start' : Span) : Steady unseen (ending start) (ending start') := by
  refine (steady_skip _).bind fun _ _ _ c n d along => ?_
  rw [peek_bind, peek_bind, ite_apply, ite_apply, ← along.kind]
  split
  · exact .answer rfl
  · exact .refuse _

/-- A whole statement. -/
def statement : Parser Statement := do
  let opened ← opening
  let clauses ← allClauses
  let span ← ending opened.span
  return { opened with clauses, span }

/-- On tokens in order the parser of statements is the reader of one, from the first token on. -/
theorem ofTokens?_eq {ts : List Token} (ho : Orderly ts) (width : Nat) :
    Statement.ofTokens? width ts = some ((statement (Cursor.ofTokens width ts)).map Prod.fst) := by
  have ho := (Cursor.tokens_ofTokens ho width).symm ▸ ho
  rw [Statement.ofTokens?]
  generalize Cursor.ofTokens width ts = c at ho
  change _ = some (Except.map Prod.fst (Except.bind (opening c) _))
  cases h : opening c with
  | error e => rfl
  | ok r =>
    obtain ⟨opened, c'⟩ := r
    obtain ⟨_, _, _, _, _, _, _, _, _, ho'⟩ := opening_sound ho h
    change Option.map _ (clauses c') = some (Except.map _ (Except.bind (allClauses c') _))
    rw [clauses_eq_some ho']
    cases allClauses c' with
    | error e => rfl
    | ok r =>
      change some (Except.bind (ending opened.span r.2) _) =
        some (Except.map _ (Except.bind (ending opened.span r.2) _))
      cases ending opened.span r.2 <;> rfl

/-- The parser of statements refuses the tokens that the reader of one does, with the same
    complaint. -/
theorem ofTokens?_eq_error_iff {ts : List Token} (ho : Orderly ts) {width : Nat}
    {e : GrammarError} : Statement.ofTokens? width ts = some (.error e) ↔
      statement (Cursor.ofTokens width ts) = .error e := by
  rw [ofTokens?_eq ho, Option.some.injEq]
  cases statement (Cursor.ofTokens width ts) with
  | error e' => exact ⟨fun h => by cases h; rfl, fun h => by cases h; rfl⟩
  | ok r => exact ⟨nofun, nofun⟩

/-- The tokens `ts` open with a statement up to the path of a timestamp, and go on
    with a parenthesis at `parens`. -/
def StatementCall (ts parens : List Token) : Prop :=
  ∃ opened behind, IsOpening ts opened behind ∧ ClausesCall behind parens

/-- A whole statement is in step, but for a timestamp. -/
theorem steadyAt_statement (c : Cursor) : SteadyAt StatementCall unseen statement statement c := by
  have behind (opened opened' : Statement) (c : Cursor) : SteadyAt ClausesCall unseen
      (do
        let clauses ← allClauses
        let span ← ending opened.span
        return { opened with clauses, span } : Parser Statement)
      (do
        let clauses ← allClauses
        let span ← ending opened'.span
        return { opened' with clauses, span }) c := by
    have ends : Steady unseen (ending opened.span) (ending opened'.span) := steady_ending _ _
    exact (steadyAt_allClauses c).bind (fun _ c' _ _ _ => ends.answer c') fun _ _ _ _ _ => False.elim
  refine ((steady_opening c).imp fun _ => False.elim).bind
    (fun opened c' opened' _ _ => behind opened opened' c') ?_
  rintro opened c' last ho h call
  obtain ⟨select, list, origin, text, isInto, hselect, areColumns, hfrom, isSource, -⟩ :=
    opening_sound ho h
  exact ⟨(_, (), _, (), _), c'.tokens,
    ⟨select, isInto, list, hselect, origin, areColumns, text, hfrom, isSource⟩, call⟩

end Parser

/-- Tokens that agree with ones that are refused, up to the one that is, are refused
    there, unless the last one that agrees is a parenthesis behind the path of a
    timestamp. -/
theorem refuses_of_agree {n width width' : Nat} {ts us : List Token} {e : GrammarError}
    (herr : Statement.ofTokens? width ts = some (.error e)) (hn : 0 < n) (ho : Orderly ts)
    (ho' : Orderly us) (agree : Agree n ts us) :
    ∃ i t, ts[i]? = some t ∧ e.span = t.span ∧
      (i < n → Parser.StatementCall ts (ts.drop (n - 1)) ∨
        ∃ u e', us[i]? = some u ∧ e'.span = u.span ∧
          Statement.ofTokens? width' us = some (.error e')) := by
  have whole := Cursor.tokens_ofTokens ho width
  have whole' := Cursor.tokens_ofTokens ho' width'
  have along : Parser.Alongside n (Cursor.ofTokens width ts) (Cursor.ofTokens width' us) :=
    ⟨hn, whole.symm ▸ ho, whole'.symm ▸ ho', whole.symm ▸ whole'.symm ▸ agree⟩
  have inStep := (Parser.steadyAt_statement _ n _ along).error
  rw [whole, whole'] at inStep
  obtain ⟨i, expected, t, ht, rfl, same⟩ :=
    inStep e ((Parser.ofTokens?_eq_error_iff ho).1 herr)
  refine ⟨i, t, ht, GrammarError.span_unexpected _ _, fun hi => (same hi).imp_right ?_⟩
  rintro ⟨u, hu, hy⟩
  exact ⟨u, _, hu, GrammarError.span_unexpected expected u, (Parser.ofTokens?_eq_error_iff ho').2 hy⟩

end ConnectorQuery
