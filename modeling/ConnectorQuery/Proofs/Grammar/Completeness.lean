import ConnectorQuery.Proofs.Grammar.Soundness
import ConnectorQuery.Query.Parse

/-!
# What follows the grammar is read

A parser is *complete* for a phrase when it reads all of it: where the tokens
open with the phrase, it answers what the phrase spells and stops where the
phrase ends (`Complete`). Together with soundness, the statements that are read
are exactly those that the grammar spells (`exists_parse_bare_iff`).

The grammar leaves open how far a phrase goes where an optional part ends it,
while a parser takes such a part whenever it can. So a parser is complete only
for phrases with a token behind them that could not go on with them, which is
what the kinds of `Complete` are for: behind a column neither a dot nor `AS`,
behind a list no comma, and behind a clause nothing that `GoesOn`. In a
statement these are always there, since a clause begins with a keyword of its
own (`follows_clauses`).
-/

namespace ConnectorQuery.Grammar

/-- The token that the list opens with, if any, has such a kind. -/
def Follows (ends : TokenKind → Prop) (rest : List Token) : Prop :=
  ∀ t ∈ rest.head?, ends t.kind

theorem Follows.imp {p q : TokenKind → Prop} {rest : List Token} (h : Follows p rest)
    (hpq : ∀ k, p k → q k) : Follows q rest :=
  fun t ht => hpq _ (h t ht)

/-- What opens with a token of an allowed kind is followed as it should be. -/
theorem Opens.follows {k : TokenKind} {ts rest : List Token} {ends : TokenKind → Prop}
    (h : Opens k ts rest) (hk : ends k) : Follows ends ts := by
  obtain ⟨t, rfl, rfl⟩ := h
  intro u hu
  obtain rfl := Option.some.inj hu
  exact hk

/-! ## Runs end in one place -/

/-- A run of tokens that stick together ends in one place. -/
theorem IsRun.unique {t : Token} {run rest run' rest' : List Token} (h : IsRun t run rest)
    (h' : IsRun t run' rest') (whole : run ++ rest = run' ++ rest') : run = run' := by
  induction h generalizing run' with
  | stop apart =>
    cases h' with
    | stop _ => rfl
    | more sticks _ =>
      rw [List.nil_append, List.cons_append] at whole
      subst whole
      -- one run would stop where the other goes on
      exact absurd sticks (apart _ rfl)
  | more sticks _ ih =>
    cases h' with
    | stop apart =>
      rw [List.nil_append, List.cons_append] at whole
      subst whole
      exact absurd sticks (apart _ rfl)
    | more sticks' h' =>
      obtain ⟨rfl, tails⟩ := List.cons.inj whole
      rw [ih h' tails]

/-- A name is read in one way. -/
theorem IsPath.unique {ts rest rest' : List Token} {p p' : FieldPath} (h : IsPath ts p rest)
    (h' : IsPath ts p' rest') : p = p' ∧ rest = rest' := by
  cases h with
  | @intro first run rest value isRun =>
    generalize whole : first :: (run ++ rest) = ts at h'
    cases h' with
    | intro value' isRun' =>
      obtain ⟨rfl, tails⟩ := List.cons.inj whole
      obtain rfl := isRun.unique isRun' tails
      exact ⟨rfl, List.append_cancel_left tails⟩

/-! ## What phrases begin with -/

/-- A name begins with a value. -/
theorem IsPath.follows {ts rest : List Token} {p : FieldPath} (h : IsPath ts p rest) :
    Follows (fun k => k.isValue) ts := by
  cases h with
  | intro value _ =>
    intro u hu
    obtain rfl := Option.some.inj hu
    exact value

theorem IsText.follows {ts rest : List Token} {s : Located String} (h : IsText ts s rest) :
    Follows (fun k => k.isValue) ts :=
  h.elim fun _ path => path.follows

/-- A tag begins with its key, which is a value. -/
theorem IsTagEntry.follows {ts rest : List Token} {e : TagEntry} (h : IsTagEntry ts e rest) :
    Follows (fun k => k.isValue) ts := by
  cases h with
  | key isKey | assigned isKey _ _ | marked isKey _ => exact isKey.follows

/-- A list begins with what its items begin with. -/
theorem IsList.follows {β : Type} {phrase : Phrase β} {begins : TokenKind → Prop}
    {ts rest : List Token} {bs : List β} (h : IsList phrase ts bs rest)
    (hp : ∀ ts b rest, phrase ts b rest → Follows begins ts) : Follows begins ts := by
  cases h with
  | one hb => exact hp _ _ _ hb
  | more hb _ _ => exact hp _ _ _ hb

theorem IsEnclosed.follows {β : Type} {phrase : Phrase β} {ts rest : List Token} {b : β}
    (h : IsEnclosed phrase ts b rest) : Follows (· = .mark .openParen) ts := by
  obtain ⟨inside, behind, opening, -, -⟩ := h
  exact opening.follows rfl

/-- A token of this kind might go on with the clause in front of it. -/
def GoesOn (k : TokenKind) : Prop :=
  k.isValue ∨ k ∈ [.mark .dot, .mark .comma, .mark .openParen, .keyword .as, .keyword .into]

/-- What ends a clause is no value. -/
theorem not_isValue_of_not_goesOn {k : TokenKind} (h : ¬GoesOn k) : k.isValue = false :=
  Bool.eq_false_iff.2 fun hv => h (.inl hv)

/-- What ends a clause is none of the marks and keywords that go on with one. -/
theorem ne_of_not_goesOn {k k' : TokenKind} (h : ¬GoesOn k)
    (hk : k' ∈ [.mark .dot, .mark .comma, .mark .openParen, .keyword .as, .keyword .into]) :
    k ≠ k' := by
  rintro rfl
  exact h (.inr hk)

/-- A clause begins with a keyword that could not go on with the clause in front
    of it. -/
theorem IsClause.follows {ts rest : List Token} {a : Clause} (h : IsClause ts a rest) :
    Follows (fun k => ¬GoesOn k ∧ k ≠ .mark .semicolon ∧ k ≠ .endOfText) ts := by
  have keyword {k : Keyword} {behind : List Token} (opens : Opens (.keyword k) ts behind)
      (hk : k ≠ .as ∧ k ≠ .into) :
      Follows (fun k => ¬GoesOn k ∧ k ≠ .mark .semicolon ∧ k ≠ .endOfText) ts := by
    refine opens.follows ⟨?_, nofun, nofun⟩
    simp [GoesOn, TokenKind.isValue, hk]
  cases h with
  | flag _ opens | setting _ opens _ | primaryKey opens _ | ignore opens _ | partitionBy opens _
  | storeAs opens _ _ | timestamp opens _ _ _ | withKeys opens _ _ | properties opens _ _ =>
    exact keyword opens ⟨by simp, by simp⟩
  | bucketing hk opens _ _ => rcases hk with rfl | rfl <;> exact keyword opens ⟨by simp, by simp⟩
  | tags hk opens _ => rcases hk with rfl | rfl <;> exact keyword opens ⟨by simp, by simp⟩

/-- Clauses end where a semicolon or the end of the text stands. -/
def EndsClauses (k : TokenKind) : Prop :=
  k = .mark .semicolon ∨ k = .endOfText

/-- Behind the clauses stands a semicolon or the end. -/
theorem MayOpen.follows {ts stop : List Token} (h : MayOpen (.mark .semicolon) ts stop)
    (isEnd : Opens .endOfText stop []) : Follows EndsClauses ts := by
  rcases h with rfl | h
  · exact isEnd.follows (.inr rfl)
  · exact h.follows (.inl rfl)

/-- Behind each clause stands what ends it: another clause, or what ends all of them. -/
theorem follows_clauses {ts rest : List Token} {cs : List (Located Clause)}
    (h : IsSequence IsStatementClause ts cs rest) (hrest : Follows EndsClauses rest) :
    Follows (fun k => ¬GoesOn k) ts := by
  cases h with
  | nil =>
    refine hrest.imp ?_
    rintro _ (rfl | rfl) <;> simp [GoesOn, TokenKind.isValue]
  | cons isClause _ => exact isClause.2.follows.imp fun _ hk => hk.1

end ConnectorQuery.Grammar

namespace ConnectorQuery.Parser

open Grammar

variable {α β γ : Type}

/-! ## Complete parsers -/

/-- From `c` on the parser `p` answers, with what `tree` turns into `b`, and the
    tokens `rest` are left. -/
def Leads (p : Parser α) (tree : α → β) (c : Cursor) (b : β) (rest : List Token) : Prop :=
  ∃ a c', p c = .ok (a, c') ∧ tree a = b ∧ c'.tokens = rest ∧ Orderly rest

/-- The parser `p` reads the whole phrase wherever the kind of the token behind
    it is as `ends` says. -/
def Complete (p : Parser α) (tree : α → β) (phrase : Phrase β) (ends : TokenKind → Prop) : Prop :=
  ∀ ⦃c : Cursor⦄ ⦃b : β⦄ ⦃rest : List Token⦄, Orderly c.tokens → phrase c.tokens b rest →
    Follows ends rest → Leads p tree c b rest

/-- Parsers in a row lead to the trees in a row. The second one has to lead on from any
    answer of the first one with the same tree. -/
theorem Leads.bind {p : Parser α} {f : α → Parser β} {tree : α → γ} {δ : Type} {tree' : β → δ}
    {c : Cursor} {b : γ} {d : δ} {mid rest : List Token} (hp : Leads p tree c b mid)
    (hf : ∀ a c₁, tree a = b → c₁.tokens = mid → Orderly mid → Leads (f a) tree' c₁ d rest) :
    Leads (p >>= f) tree' c d rest := by
  obtain ⟨a, c₁, h₁, ha, hmid, ho⟩ := hp
  obtain ⟨a', c₂, h₂, hread⟩ := hf a c₁ ha hmid ho
  exact ⟨a', c₂, bind_eq_ok.2 ⟨a, c₁, h₁, h₂⟩, hread⟩

theorem Leads.some {p : Parser α} {tree : α → β} {c : Cursor} {b : β} {rest : List Token}
    (h : Leads p tree c b rest) : Leads (some <$> p) (Option.map tree) c (some b) rest := by
  obtain ⟨a, c', hread, rfl, hend⟩ := h
  refine ⟨Option.some a, c', ?_, rfl, hend⟩
  change (p >>= fun a => pure (Option.some a)) c = _
  exact bind_eq_ok.2 ⟨a, c', hread, rfl⟩

/-- An answer without reading stays where it is. -/
theorem leads_pure {a : α} {tree : α → β} {c : Cursor} {b : β} {rest : List Token}
    (ha : tree a = b) (hrest : c.tokens = rest) (ho : Orderly rest) :
    Leads (pure a) tree c b rest :=
  ⟨a, c, rfl, ha, hrest, ho⟩

/-- An answer that is made of what was read. -/
theorem Leads.answer {p : Parser α} {f : α → γ} {δ : Type} {tree : α → β} {tree' : γ → δ}
    {c : Cursor} {b : β} {d : δ} {rest : List Token} (hp : Leads p tree c b rest)
    (hd : ∀ a, tree a = b → tree' (f a) = d) :
    Leads (do let a ← p; return f a : Parser γ) tree' c d rest :=
  hp.bind fun a _ ha ht ho => leads_pure (hd a ha) ht ho

/-- The token at hand, where the tokens go on behind it. -/
theorem here_of_cons {c : Cursor} {t : Token} {ts : List Token} (ho : Orderly c.tokens)
    (h : c.tokens = t :: ts) (hk : t.kind ≠ .endOfText) :
    c.here = t ∧ c.advance.tokens = ts ∧ Orderly ts := by
  obtain ⟨rfl, -⟩ : c.here = t ∧ c.ahead = ts := List.cons.inj h
  have moved := Cursor.tokens_advance ho hk
  exact ⟨rfl, (List.cons.inj (moved.symm.trans h)).2, (h ▸ ho).tail hk⟩

/-- The cursor is at the token that the tokens open with. -/
theorem here_of_opens {c : Cursor} {k : TokenKind} {rest : List Token} (ho : Orderly c.tokens)
    (h : Opens k c.tokens rest) (hk : k ≠ .endOfText) :
    c.here.kind = k ∧ c.advance.tokens = rest ∧ Orderly rest := by
  obtain ⟨t, rfl, htokens⟩ := h
  obtain ⟨rfl, hrest⟩ := here_of_cons ho htokens hk
  exact ⟨rfl, hrest⟩

/-- A token of the kind that is expected is taken. -/
theorem expect_complete {k : TokenKind} {c : Cursor} {rest : List Token} (hk : k ≠ .endOfText)
    (ho : Orderly c.tokens) (h : Opens k c.tokens rest) : Leads (expect k) id c () rest := by
  obtain ⟨hhere, hrest, ho'⟩ := here_of_opens ho h hk
  refine ⟨(), c.advance, ?_, rfl, hrest, ho'⟩
  rw [expect, peek_bind, ite_apply, if_pos (beq_iff_eq.2 hhere)]
  rfl

theorem mark_complete {m : Mark} {c : Cursor} {rest : List Token} (ho : Orderly c.tokens)
    (h : Opens (.mark m) c.tokens rest) : Leads (expect (.mark m)) id c () rest :=
  expect_complete nofun ho h

theorem keyword_complete {k : Keyword} {c : Cursor} {rest : List Token} (ho : Orderly c.tokens)
    (h : Opens (.keyword k) c.tokens rest) : Leads (expect (.keyword k)) id c () rest :=
  expect_complete nofun ho h

/-- What may follow a phrase stands at the cursor behind it. -/
theorem follows_here {ends : TokenKind → Prop} {c : Cursor} (h : Follows ends c.tokens) :
    ends c.here.kind :=
  h c.here rfl

/-- An optional mark is passed where it stands, and nothing is where what is
    behind it does not open with such a mark. -/
theorem skip_complete {m : Mark} {c : Cursor} {rest : List Token} (ho : Orderly c.tokens)
    (h : MayOpen (.mark m) c.tokens rest) (hrest : Follows (· ≠ .mark m) rest) :
    Leads (skip (.mark m)) id c () rest := by
  rw [skip]
  rcases h with rfl | h
  · refine ⟨(), c, ?_, rfl, rfl, ho⟩
    rw [whenAt, if_neg]
    exact fun h => follows_here hrest (beq_iff_eq.1 h)
  · obtain ⟨hhere, hrest, ho'⟩ := here_of_opens ho h (by simp)
    refine ⟨(), c.advance, ?_, rfl, hrest, ho'⟩
    rw [whenAt, if_pos (beq_iff_eq.2 hhere)]
    rfl

/-- An optional part that stands there is read. -/
theorem whenAt_of_wanted {wanted : Token → Bool} {p : Parser α} {otherwise : α} {tree : α → β}
    {c : Cursor} {b : β} {rest : List Token} (h : Leads p tree c b rest)
    (hw : wanted c.here = true) : Leads (whenAt wanted p otherwise) tree c b rest := by
  obtain ⟨a, c', hread, hend⟩ := h
  exact ⟨a, c', by rw [whenAt, if_pos hw, hread], hend⟩

/-- An optional part that is missing is not looked for. -/
theorem whenAt_of_not_wanted {wanted : Token → Bool} {p : Parser α} {otherwise : α}
    {tree : α → β} {c : Cursor} (ho : Orderly c.tokens) (hw : wanted c.here = false) :
    Leads (whenAt wanted p otherwise) tree c (tree otherwise) c.tokens :=
  ⟨otherwise, c, by rw [whenAt, hw]; rfl, rfl, rfl, ho⟩

/-- Further items of a list are read, by induction over the list. -/
theorem moreItems_complete {item : Parser α} {tree : α → β} {phrase : Phrase β}
    {ends : TokenKind → Prop} (hf : Forward item) (hitem : Complete item tree phrase ends)
    (hcomma : ends (.mark .comma)) {items rest : List Token} {bs : List β}
    (h : IsList phrase items bs rest) (hrest : Follows (fun k => ends k ∧ k ≠ .mark .comma) rest) :
    ∀ c : Cursor, Orderly c.tokens → Opens (.mark .comma) c.tokens items →
      Leads (moreItems item) (List.map tree) c bs rest := by
  -- an item behind a comma is read, and gets past the comma
  have step {c : Cursor} {items behind : List Token} {b : β} (ho : Orderly c.tokens)
      (hopens : Opens (.mark .comma) c.tokens items) (hb : phrase items b behind)
      (hbehind : Follows ends behind) : ∃ a c₁,
        (∀ as c₂, moreItems item c₁ = .ok (as, c₂) → moreItems item c = .ok (a :: as, c₂)) ∧
        tree a = b ∧ c₁.tokens = behind ∧ Orderly behind := by
    obtain ⟨hhere, rfl, ho'⟩ := here_of_opens ho hopens (by simp)
    obtain ⟨a, c₁, hread, ha, htokens, hb'⟩ := hitem ho' hb hbehind
    have shorter := Cursor.ahead_length_lt ho (by simp [hhere]) (hf _ _ _ hread)
    refine ⟨a, c₁, fun as c₂ h => ?_, ha, htokens, hb'⟩
    rw [moreItems, if_pos hhere, hread]
    refine (if_pos shorter).trans ?_
    rw [h]
  induction h with
  | one hb =>
    intro c ho hopens
    obtain ⟨a, c₁, hmore, ha, rfl, ho₁⟩ := step ho hopens hb (hrest.imp fun _ h => h.1)
    have last : moreItems item c₁ = .ok ([], c₁) := by
      rw [moreItems, if_neg (follows_here hrest).2]
    exact ⟨[a], c₁, hmore _ _ last, congrArg (fun b => [b]) ha, rfl, ho₁⟩
  | more hb hopens' _ ih =>
    intro c ho hopens
    obtain ⟨a, c₁, hmore, rfl, rfl, ho₁⟩ := step ho hopens hb (hopens'.follows hcomma)
    obtain ⟨as, c₂, hread, rfl, hend⟩ := ih hrest c₁ ho₁ hopens'
    exact ⟨a :: as, c₂, hmore _ _ hread, rfl, hend⟩

/-- A list is read if its items are, up to what is neither an item nor a comma. -/
theorem commaList_complete {item : Parser α} {tree : α → β} {phrase : Phrase β}
    {ends : TokenKind → Prop} (hf : Forward item) (hitem : Complete item tree phrase ends)
    (hcomma : ends (.mark .comma)) :
    Complete (commaList item) (List.map tree) (IsList phrase)
      fun k => ends k ∧ k ≠ .mark .comma := by
  intro c bs rest ho h hrest
  cases h with
  | one hb =>
    refine (hitem ho hb (hrest.imp fun _ h => h.1)).bind fun a c₁ ha ht ho₁ => ?_
    subst ht
    -- no comma follows, so the list ends here
    have last : moreItems item c₁ = .ok ([], c₁) := by
      rw [moreItems, if_neg (follows_here hrest).2]
    exact ⟨[a], c₁, bind_eq_ok.2 ⟨[], c₁, last, rfl⟩, congrArg (fun b => [b]) ha, rfl, ho₁⟩
  | more hb hopens hbs =>
    refine (hitem ho hb (hopens.follows hcomma)).bind fun a c₁ ha ht ho₁ => ?_
    subst ht
    refine (moreItems_complete hf hitem hcomma hbs hrest c₁ ho₁ hopens).bind
      fun as c₂ has ht ho₂ => ?_
    exact leads_pure (by rw [List.map_cons, ha, has]) ht ho₂

/-! ## Names and values -/

/-- A name is read to its end: the run of tokens that stick together is the longest one. -/
theorem path_complete (expected : String) :
    Complete (path expected) FieldPath.bare IsPath fun _ => True := by
  intro c p rest ho h _
  have value : c.here.kind.isValue = true := follows_here h.follows
  obtain ⟨q, c', hread⟩ : ∃ q c', path expected c = .ok (q, c') := by
    rw [path, peek_bind, ite_apply, if_pos value]
    exact ⟨_, _, rfl⟩
  obtain ⟨spelled, ho'⟩ := path_sound expected ho hread
  obtain ⟨hq, hrest⟩ := spelled.unique h
  exact ⟨q, c', hread, hq, hrest, hrest ▸ ho'⟩

/-- The text of one value is read. -/
theorem text_complete (expected : String) :
    Complete (text expected) Located.bare IsText fun _ => True := by
  intro c s rest ho ⟨dangling, h⟩ hrest
  refine (path_complete expected ho h hrest).bind fun p c₁ hp ht ho₁ => ?_
  exact leads_pure (congrArg FieldPath.name hp) ht ho₁

theorem name_complete (expected : String) :
    Complete (name expected) Located.bare IsName fun _ => True := by
  intro c s rest ho h hrest
  refine (path_complete expected ho h hrest).bind fun p c₁ hp ht ho₁ => ?_
  have whole : p.dangling = false := congrArg FieldPath.dangling hp
  refine ⟨p.name, c₁, ?_, congrArg FieldPath.name hp, ht, ho₁⟩
  rw [peek_bind, ite_apply, whole]
  rfl

theorem value_complete (expected : String) :
    Complete (value expected) Located.bare IsValue fun _ => True := by
  intro c s rest ho ⟨behind, equals, h⟩ hrest
  have notEquals : Follows (· ≠ .mark .equals) behind := by
    refine h.follows.imp fun k hk => ?_
    rintro rfl
    exact nomatch hk
  refine (skip_complete ho equals notEquals).bind fun _ c₁ _ ht ho₁ => ?_
  subst ht
  exact text_complete expected ho₁ h hrest

/-- A name with its value is read, with or without the sign between them. -/
theorem assignment_complete :
    Complete assignment Assignment.bare IsAssignment fun _ => True := by
  intro c a rest ho h hrest
  cases h with
  | intro isName equals isValue =>
    refine (text_complete _ ho isName fun _ _ => trivial).bind fun name c₁ hname ht ho₁ => ?_
    subst ht
    refine (mark_complete ho₁ equals).bind fun _ c₂ _ ht ho₂ => ?_
    subst ht
    refine (text_complete _ ho₂ isValue hrest).bind fun value c₃ hvalue ht ho₃ => ?_
    refine leads_pure ?_ ht ho₃
    rw [Assignment.bare, hname, hvalue]

/-- What stands in parentheses. -/
theorem enclosed_complete {p : Parser α} {tree : α → β} {phrase : Phrase β} {f : α → γ} {δ : Type}
    {tree' : γ → δ} {c : Cursor} {b : β} {d : δ} {rest : List Token} {ends : TokenKind → Prop}
    (hp : Complete p tree phrase ends) (hclose : ends (.mark .closeParen)) (ho : Orderly c.tokens)
    (h : IsEnclosed phrase c.tokens b rest) (hd : ∀ a, tree a = b → tree' (f a) = d) :
    Leads (do expect (.mark .openParen); let a ← p; expect (.mark .closeParen); return f a
      : Parser γ) tree' c d rest := by
  obtain ⟨inside, behind, opening, hb, closing⟩ := h
  refine (mark_complete ho opening).bind fun _ c₁ _ ht ho₁ => ?_
  subst ht
  refine (hp ho₁ hb (closing.follows hclose)).bind fun a c₂ ha ht ho₂ => ?_
  subst ht
  refine (mark_complete ho₂ closing).bind fun _ c₃ _ ht ho₃ => ?_
  exact leads_pure (hd a ha) ht ho₃

theorem assignments_complete :
    Complete assignments (List.map Assignment.bare) (IsEnclosed (IsList IsAssignment))
      fun _ => True := by
  intro c as rest ho h _
  exact enclosed_complete (f := id)
    (commaList_complete forward_assignment assignment_complete trivial) ⟨trivial, by simp⟩ ho h
    fun _ => id

/-! ## Columns -/

/-- The segments of a column are read up to a token that is no dot. -/
theorem segments_complete : Complete segments id IsSegments (· ≠ .mark .dot) := by
  intro c b rest ho h hrest
  -- the reader of segments never refuses, so it is enough to follow its recursion
  suffices ∃ c', moreSegments c = (b, c') ∧ c'.tokens = rest ∧ Orderly rest by
    obtain ⟨c', hread, hend⟩ := this
    exact ⟨b, c', congrArg Except.ok hread, rfl, hend⟩
  generalize hts : c.tokens = ts at h
  induction h generalizing c with
  | none =>
    subst hts
    exact ⟨c, by rw [moreSegments, if_neg (follows_here hrest)], rfl, ho⟩
  | wildcard dot star =>
    subst hts
    obtain ⟨atDot, rfl, ho₁⟩ := here_of_opens ho dot (by simp)
    obtain ⟨atStar, rfl, ho₂⟩ := here_of_opens ho₁ star (by simp)
    refine ⟨c.advance.advance, ?_, rfl, ho₂⟩
    rw [moreSegments, if_pos atDot]
    exact if_pos atStar
  | @segment dot t ts rest segments dangling atDot continues _ ih =>
    obtain ⟨rfl, behind, ho₁⟩ := here_of_cons ho hts (by simp [atDot])
    rw [← behind] at ho₁
    obtain ⟨rfl, rfl, ho₂⟩ := here_of_cons ho₁ behind continues.ne_endOfText
    obtain ⟨c', hread, hend⟩ := ih ho₂ hrest rfl
    refine ⟨c', ?_, hend⟩
    rw [moreSegments, if_pos atDot]
    refine (if_neg continues.ne_mark).trans ?_
    rw [if_pos (continuesBehind_of_continues continues), hread]
  | @dangling dot rest atDot stops =>
    obtain ⟨rfl, rfl, ho₁⟩ := here_of_cons ho hts (by simp [atDot])
    obtain ⟨notStar, notContinues⟩ := stops c.advance.here rfl
    refine ⟨c.advance, ?_, rfl, ho₁⟩
    rw [moreSegments, if_pos atDot]
    refine (if_neg notStar).trans (if_neg ?_)
    exact fun h => notContinues (continues_of_continuesBehind h)

/-- The new name of a column is read behind its keyword. -/
theorem rename_complete {c : Cursor} {named rest : List Token} {name : Located String}
    (ho : Orderly c.tokens) (opens : Opens (.keyword .as) c.tokens named)
    (isName : IsText named name rest) : Leads rename id c (some name.val) rest := by
  obtain ⟨-, rfl, ho₁⟩ := here_of_opens ho opens (by simp)
  obtain ⟨val, c₁, hread, rfl, hend⟩ := text_complete "an alias" ho₁ isName fun _ _ => trivial
  refine ⟨some val.val, c₁, ?_, rfl, hend⟩
  rw [rename, discard_next_bind]
  exact bind_eq_ok.2 ⟨val, c₁, hread, rfl⟩

/-- What follows the first segment of a column. -/
def columnBehind (mayRename : Bool) (first : Token) : Parser Column := do
  let behind ← segments
  let rename ← whenAt (fun t => mayRename && t.kind == .keyword .as) rename none
  let span ← spanFrom first.span
  return ⟨first.value :: behind.1, behind.2, rename, span⟩

/-- At a value, a column is read from its first segment on. -/
theorem column_eq_columnBehind {mayRename : Bool} {c : Cursor} (h : c.here.kind.isValue) :
    column mayRename c = columnBehind mayRename c.here c.advance := by
  have notStar : (c.here.kind == .mark .star) = false :=
    beq_false_of_ne fun star => nomatch star ▸ h
  rw [column, peek_bind, ite_apply, notStar, ite_apply, if_pos h]
  rfl

/-- A column is read up to what neither extends its path nor renames it. -/
theorem column_complete (mayRename : Bool) :
    Complete (column mayRename) Column.bare (IsColumn mayRename)
      fun k => k ≠ .mark .dot ∧ k ≠ .keyword .as := by
  intro c a rest ho h hrest
  generalize hts : c.tokens = ts at h
  cases h with
  | wildcard star =>
    subst hts
    obtain ⟨atStar, rfl, ho₁⟩ := here_of_opens ho star (by simp)
    refine ⟨⟨["*"], false, none, c.here.span⟩, c.advance, ?_, rfl, rfl, ho₁⟩
    rw [column, peek_bind, ite_apply, if_pos (beq_iff_eq.2 atStar)]
    rfl
  | @plain first ts _ segments dangling value isSegments =>
    obtain ⟨rfl, rfl, ho₁⟩ := here_of_cons ho hts (TokenKind.ne_endOfText_of_isValue value)
    rw [Leads, column_eq_columnBehind value]
    refine (segments_complete ho₁ isSegments (hrest.imp fun _ h => h.1)).bind
      fun behind c₁ hbehind ht ho₂ => ?_
    subst ht hbehind
    -- no `AS` follows, so no other name is looked for
    have notAs : (mayRename && c₁.here.kind == .keyword .as) = false := by
      rw [beq_false_of_ne (follows_here hrest).2, Bool.and_false]
    have kept : Leads (whenAt (fun t => mayRename && t.kind == .keyword .as) rename none) id c₁
        none c₁.tokens := whenAt_of_not_wanted ho₂ notAs
    refine kept.bind fun rename c₂ hr ht ho₃ => ?_
    obtain rfl : rename = none := hr
    exact ⟨_, c₂, rfl, rfl, ht, ho₃⟩
  | @renamed first ts behind named _ segments dangling name mayAs value isSegments opens isName =>
    obtain ⟨rfl, rfl, ho₁⟩ := here_of_cons ho hts (TokenKind.ne_endOfText_of_isValue value)
    rw [Leads, column_eq_columnBehind value]
    refine (segments_complete ho₁ isSegments (opens.follows (by simp))).bind
      fun behind c₁ hbehind ht ho₂ => ?_
    subst ht hbehind
    have renames : (mayRename && c₁.here.kind == .keyword .as) = true := by
      rw [mayAs, beq_iff_eq.2 (here_of_opens ho₂ opens (by simp)).1, Bool.and_true]
    refine (whenAt_of_wanted (rename_complete ho₂ opens isName) renames).bind
      fun rename c₂ hr ht ho₃ => ?_
    obtain rfl : rename = some name.val := hr
    exact ⟨_, c₂, rfl, rfl, ht, ho₃⟩

/-! ## Clauses -/

/-- What follows the key of a tag, without places. -/
def bareBehind (behind : Option (Located String) × Option (Located String)) :
    Option (Located String) × Option (Located String) :=
  (behind.1.map Located.bare, behind.2.map Located.bare)

/-- A tag ends where its list goes on or ends. -/
def EndsTag (k : TokenKind) : Prop :=
  k = .mark .comma ∨ k = .mark .closeParen

theorem EndsTag.not_isValue {k : TokenKind} (h : EndsTag k) : k.isValue = false := by
  rcases h with rfl | rfl <;> rfl

/-- A tag that ends behind its key has neither marker nor value. -/
theorem tagValue_none {c : Cursor} (ho : Orderly c.tokens) (h : EndsTag c.here.kind) :
    Leads tagValue bareBehind c (none, none) c.tokens := by
  refine ⟨(none, none), c, ?_, rfl, rfl, ho⟩
  rw [tagValue, peek_bind, ite_apply, if_pos]
  · rfl
  · rcases h with h | h <;> rw [h] <;> rfl

/-- A tag with an equals sign or a keyword in front of its value. -/
theorem tagValue_assigned {c : Cursor} {t : Token} {text rest : List Token}
    {val : Located String} (ho : Orderly c.tokens) (hts : c.tokens = t :: text)
    (ht : t.kind = .mark .equals ∨ t.kind = .keyword .as) (isValue : IsText text val rest) :
    Leads tagValue bareBehind c (some (.nowhere t.text), some val) rest := by
  obtain ⟨notEnd, assigns, hk⟩ : (t.kind == .mark .comma || t.kind == .mark .closeParen) = false ∧
      (t.kind == .mark .equals || t.kind == .keyword .as) = true ∧ t.kind ≠ .endOfText := by
    rcases ht with h | h <;> rw [h] <;> exact ⟨rfl, rfl, by simp⟩
  obtain ⟨rfl, rfl, ho₁⟩ := here_of_cons ho hts hk
  obtain ⟨v, c₁, hread, rfl, hend⟩ := text_complete "a tag value" ho₁ isValue fun _ _ => trivial
  refine ⟨(some ⟨c.here.text, c.here.span⟩, some v), c₁, ?_, rfl, hend⟩
  rw [tagValue, peek_bind, ite_apply, notEnd, ite_apply, assigns,
    if_neg Bool.false_ne_true, if_pos rfl, marker_bind]
  exact bind_eq_ok.2 ⟨v, c₁, hread, rfl⟩

/-- A tag with a marker, and maybe a value behind it. -/
theorem tagValue_marked {c : Cursor} {t : Token} {text rest : List Token}
    {further : Option (Located String)} (ho : Orderly c.tokens) (hts : c.tokens = t :: text)
    (ht : t.kind.isValue) (hf : ∀ c₁, c₁.tokens = text → Orderly text →
      Leads (whenAt (·.kind.isValue) (some <$> Parser.text "a tag value") none)
        (Option.map Located.bare) c₁ further rest) :
    Leads tagValue bareBehind c (some (.nowhere t.text), further) rest := by
  obtain ⟨notEnd, notAssigns⟩ : (t.kind == .mark .comma || t.kind == .mark .closeParen) = false ∧
      (t.kind == .mark .equals || t.kind == .keyword .as) = false := by
    cases hk : t.kind <;> rw [hk] at ht <;> first | exact ⟨rfl, rfl⟩ | cases ht
  obtain ⟨rfl, htext, ho₁⟩ := here_of_cons ho hts (TokenKind.ne_endOfText_of_isValue ht)
  obtain ⟨v, c₁, hread, rfl, hend⟩ := hf c.advance htext ho₁
  refine ⟨(some ⟨c.here.text, c.here.span⟩, v), c₁, ?_, rfl, hend⟩
  rw [tagValue, peek_bind, ite_apply, notEnd, ite_apply, notAssigns, ite_apply, ht,
    if_neg Bool.false_ne_true, if_neg Bool.false_ne_true, if_pos rfl, marker_bind]
  exact bind_eq_ok.2 ⟨v, c₁, hread, rfl⟩

/-- A tag is read in each of its forms. -/
theorem tagEntry_complete : Complete tagEntry TagEntry.bare IsTagEntry EndsTag := by
  -- the key is read, then what follows it
  have entry {c : Cursor} {key : Located String} {marker value : Option (Located String)}
      {mid rest : List Token} (ho : Orderly c.tokens) (isKey : IsText c.tokens key mid)
      (hbehind : ∀ c₁, c₁.tokens = mid → Orderly mid →
        Leads tagValue bareBehind c₁ (marker, value) rest) :
      Leads tagEntry TagEntry.bare c ⟨key, marker, value, .nowhere⟩ rest := by
    rw [Leads, tagEntry, peek_bind]
    refine (text_complete "a tag" ho isKey fun _ _ => trivial).bind fun k c₁ hk ht ho₁ => ?_
    refine (hbehind c₁ ht ho₁).bind fun b c₂ hb ht ho₂ => ?_
    obtain ⟨rfl, rfl⟩ := Prod.mk.inj hb
    subst hk
    exact ⟨_, c₂, rfl, rfl, ht, ho₂⟩
  intro c e rest ho h hrest
  cases h with
  | key isKey =>
    refine entry ho isKey fun c₁ ht ho₁ => ?_
    subst ht
    exact tagValue_none ho₁ (follows_here hrest)
  | assigned isKey isMarker isValue =>
    refine entry ho isKey fun c₁ ht ho₁ => ?_
    rcases or_assoc.2 isMarker with assigns | value
    · exact tagValue_assigned (ht ▸ ho₁) ht assigns isValue
    · refine tagValue_marked (ht ▸ ho₁) ht value fun c₂ ht ho₂ => ?_
      subst ht
      refine whenAt_of_wanted ?_ (follows_here isValue.follows)
      exact (text_complete _ ho₂ isValue fun _ _ => trivial).some
  | marked isKey value =>
    refine entry ho isKey fun c₁ ht ho₁ => ?_
    refine tagValue_marked (ht ▸ ho₁) ht value fun c₂ ht ho₂ => ?_
    subst ht
    exact whenAt_of_not_wanted ho₂ (follows_here hrest).not_isValue

/-- An optional list is read where it stands, since it shows at its first token,
    and is not looked for where it is missing. -/
theorem optional_complete (wanted : TokenKind → Bool) {p : Parser (List α)} {tree : α → β}
    {phrase : Phrase (List β)} {ends ends' : TokenKind → Prop}
    (hp : Complete p (List.map tree) phrase ends)
    (stands : ∀ ts bs rest, phrase ts bs rest → Follows (fun k => wanted k) ts)
    (behind : ∀ k, ends' k → ends k ∧ wanted k = false) :
    Complete (whenAt (fun t => wanted t.kind) p []) (List.map tree) (IsOptional phrase) ends' := by
  intro c bs rest ho h hrest
  rcases h with ⟨rfl, rfl⟩ | h
  · exact whenAt_of_not_wanted ho (behind _ (follows_here hrest)).2
  · exact whenAt_of_wanted (hp ho h (hrest.imp fun k hk => (behind k hk).1))
      (follows_here (stands _ _ _ h))

theorem tagEntries_complete :
    Complete tagEntries (List.map TagEntry.bare) (IsEnclosed (IsOptional (IsList IsTagEntry)))
      fun _ => True := by
  intro c es rest ho h _
  have entries : Complete (whenAt (·.kind != .mark .closeParen) (commaList tagEntry) [])
      (List.map TagEntry.bare) (IsOptional (IsList IsTagEntry)) (· = .mark .closeParen) := by
    refine optional_complete (· != .mark .closeParen)
      (commaList_complete forward_tagEntry tagEntry_complete (.inl rfl)) ?_ ?_
    · intro ts bs rest h
      refine (h.follows fun _ _ _ h => h.follows).imp fun k hk => ?_
      exact bne_iff_ne.2 fun h => nomatch h ▸ hk
    · rintro _ rfl
      exact ⟨⟨.inr rfl, nofun⟩, rfl⟩
  exact enclosed_complete (f := id) entries rfl ho h fun _ => id

/-- The number of buckets is read where its keyword stands. -/
theorem bucketCount_complete :
    Complete (whenAt (·.kind == .keyword .into) bucketCount none) (Option.map Located.bare)
      IsBucketCount (· ≠ .keyword .into) := by
  intro c count rest ho h hrest
  cases h with
  | none => exact whenAt_of_not_wanted ho (beq_false_of_ne (follows_here hrest))
  | some into isCount buckets =>
    have atInto := (here_of_opens ho into (by simp)).1
    refine whenAt_of_wanted ?_ (beq_iff_eq.2 atInto)
    obtain ⟨-, rfl, ho₁⟩ := here_of_opens ho into (by simp)
    rw [Leads, bucketCount, discard_next_bind]
    refine (text_complete _ ho₁ isCount fun _ _ => trivial).bind fun n c₁ hn ht ho₂ => ?_
    subst ht
    refine (keyword_complete ho₂ buckets).bind fun _ c₂ _ ht ho₃ => ?_
    exact leads_pure (congrArg some hn) ht ho₃

/-- The empty call behind a time is read where it stands. -/
theorem emptyCall_complete :
    Complete emptyCall id IsCall (· ≠ .mark .openParen) := by
  intro c call rest ho h hrest
  cases h with
  | none =>
    refine ⟨false, c, ?_, rfl, rfl, ho⟩
    rw [emptyCall, if_neg]
    exact fun h => follows_here hrest (beq_iff_eq.1 (Bool.and_eq_true_iff.1 h).1)
  | call opening closing =>
    obtain ⟨atOpen, rfl, ho₁⟩ := here_of_opens ho opening (by simp)
    obtain ⟨atClose, rfl, ho₂⟩ := here_of_opens ho₁ closing (by simp)
    -- the second parenthesis is seen before the first one is passed
    have closes : c.nextKind = .mark .closeParen := by
      obtain ⟨here, ahead, passed⟩ := c
      cases ahead with
      | nil => cases atOpen.symm.trans atClose
      | cons t ts => exact atClose
    refine ⟨true, c.advance.advance, ?_, rfl, rfl, ho₂⟩
    rw [emptyCall, if_pos]
    rw [atOpen, closes]
    rfl

theorem columns_complete (mayRename : Bool) :
    Complete (commaList (column mayRename)) (List.map Column.bare) (IsList (IsColumn mayRename))
      fun k => (k ≠ .mark .dot ∧ k ≠ .keyword .as) ∧ k ≠ .mark .comma :=
  commaList_complete (forward_column _) (column_complete _) ⟨by simp, by simp⟩

theorem paths_complete (expected : String) :
    Complete (commaList (path expected)) (List.map FieldPath.bare) (IsList IsPath)
      fun k => True ∧ k ≠ .mark .comma :=
  commaList_complete (forward_path _) (path_complete _) trivial

/-- The names of a bucketing clause are read, and the number of buckets behind them. -/
theorem bucketing_complete {c : Cursor} {names : List FieldPath} {count : Option (Located String)}
    {number rest : List Token} (ho : Orderly c.tokens)
    (areNames : IsOptional (IsList IsPath) c.tokens names number)
    (isCount : IsBucketCount number count rest) (hrest : Follows (fun k => ¬GoesOn k) rest) :
    Leads bucketing Clause.bare c (.bucketing names count) rest := by
  have optional : Complete (whenAt (·.kind.isValue) (commaList (path "a bucket field")) [])
      (List.map FieldPath.bare) (IsOptional (IsList IsPath))
      fun k => k ≠ .mark .comma ∧ k.isValue = false :=
    optional_complete (·.isValue) (paths_complete _)
      (fun _ _ _ h => h.follows fun _ _ _ h => h.follows) fun k hk => ⟨⟨trivial, hk.1⟩, hk.2⟩
  -- neither the number nor what follows the clause goes on with the names
  have hnumber : Follows (fun k => k ≠ .mark .comma ∧ k.isValue = false) number := by
    cases isCount with
    | none =>
      exact hrest.imp fun k hk => ⟨ne_of_not_goesOn hk (by simp), not_isValue_of_not_goesOn hk⟩
    | some into _ _ => exact into.follows ⟨by simp, rfl⟩
  refine (optional ho areNames hnumber).bind fun ns c₁ hns ht ho₁ => ?_
  subst ht
  have noInto : Follows (· ≠ .keyword .into) rest :=
    hrest.imp fun k hk => ne_of_not_goesOn hk (by simp)
  refine (bucketCount_complete ho₁ isCount noInto).answer fun n hn => ?_
  rw [Clause.bare, hns, hn]

/-- Every clause is read, up to what does not go on with it. -/
theorem clause_complete : Complete clause (fun a => a.val.bare) IsClause fun k => ¬GoesOn k := by
  -- the keyword is read, then what follows it
  have clause {c : Cursor} {k : Keyword} {a : Clause} {behind rest : List Token}
      (ho : Orderly c.tokens) (opens : Opens (.keyword k) c.tokens behind)
      (hbehind : ∀ c₁, c₁.tokens = behind → Orderly c₁.tokens →
        Leads (clauseBody.ofKeyword c.here k) Clause.bare c₁ a rest) :
      Leads clause (fun a => a.val.bare) c a rest := by
    obtain ⟨hk, rfl, ho₁⟩ := here_of_opens ho opens (by simp)
    rw [Leads, Parser.clause, next_bind, clauseBody, hk]
    refine (hbehind c.advance rfl ho₁).bind fun body c₁ hbody ht ho₂ => ?_
    exact ⟨_, c₁, rfl, hbody, ht, ho₂⟩
  intro c a rest ho h hrest
  -- what does not go on with a clause ends its columns and its call
  have columnEnds :
      Follows (fun k => (k ≠ .mark .dot ∧ k ≠ .keyword .as) ∧ k ≠ .mark .comma) rest :=
    hrest.imp fun k hk => ⟨⟨ne_of_not_goesOn hk (by simp), ne_of_not_goesOn hk (by simp)⟩,
      ne_of_not_goesOn hk (by simp)⟩
  have noParen : Follows (· ≠ .mark .openParen) rest :=
    hrest.imp fun k hk => ne_of_not_goesOn hk (by simp)
  cases h with
  | flag f opens =>
    refine clause ho opens fun c₁ ht ho₁ => ?_
    exact leads_pure rfl ht (ht ▸ ho₁)
  | setting s opens isValue =>
    refine clause ho opens fun c₁ ht ho₁ => ?_
    subst ht
    exact (value_complete _ ho₁ isValue fun _ _ => trivial).answer
      fun v hv => congrArg (Clause.setting s) hv
  | primaryKey opens areColumns =>
    refine clause ho opens fun c₁ ht ho₁ => ?_
    subst ht
    exact (columns_complete _ ho₁ areColumns columnEnds).answer
      fun v hv => congrArg Clause.primaryKey hv
  | ignore opens areColumns =>
    refine clause ho opens fun c₁ ht ho₁ => ?_
    subst ht
    exact (columns_complete _ ho₁ areColumns columnEnds).answer
      fun v hv => congrArg Clause.ignore hv
  | partitionBy opens areNames =>
    refine clause ho opens fun c₁ ht ho₁ => ?_
    subst ht
    exact (paths_complete _ ho₁ areNames (columnEnds.imp fun _ hk => ⟨trivial, hk.2⟩)).answer
      fun v hv => congrArg Clause.partitionBy hv
  | bucketing hk opens areNames isCount =>
    refine clause ho opens fun c₁ ht ho₁ => ?_
    subst ht
    rcases hk with rfl | rfl <;> exact bucketing_complete ho₁ areNames isCount hrest
  | storeAs opens isType areParameters =>
    refine clause ho opens fun c₁ ht ho₁ => ?_
    subst ht
    have parameters : Complete (whenAt (·.kind == .mark .openParen) assignments [])
        (List.map Assignment.bare) (IsOptional (IsEnclosed (IsList IsAssignment)))
        (· ≠ .mark .openParen) :=
      optional_complete (· == .mark .openParen) assignments_complete
        (fun _ _ _ h => h.follows.imp fun _ hk => beq_iff_eq.2 hk)
        fun k hk => ⟨trivial, beq_false_of_ne hk⟩
    refine (value_complete _ ho₁ isType fun _ _ => trivial).bind fun v c₂ hv ht ho₂ => ?_
    subst ht
    refine (parameters ho₂ areParameters noParen).answer fun ps hps => ?_
    rw [Clause.bare, hv, hps]
  | timestamp opens equals isField isCall =>
    refine clause ho opens fun c₁ ht ho₁ => ?_
    subst ht
    refine (skip_complete ho₁ equals (isField.follows.imp ?_)).bind fun _ c₂ _ ht ho₂ => ?_
    · rintro _ hk rfl
      cases hk
    subst ht
    refine (path_complete _ ho₂ isField fun _ _ => trivial).bind fun p c₃ hp ht ho₃ => ?_
    subst ht
    refine (emptyCall_complete ho₃ isCall noParen).answer fun call hcall => ?_
    rw [Clause.bare, hp, ← hcall]
    rfl
  | tags hk opens areEntries =>
    refine clause ho opens fun c₁ ht ho₁ => ?_
    subst ht
    have entries := tagEntries_complete ho₁ areEntries fun _ _ => trivial
    rcases hk with rfl | rfl <;> exact entries.answer fun v hv => congrArg Clause.tags hv
  | withKeys opens equals areKeys =>
    refine clause ho opens fun c₁ ht ho₁ => ?_
    subst ht
    refine (skip_complete ho₁ equals (areKeys.follows.imp ?_)).bind fun _ c₂ _ ht ho₂ => ?_
    · rintro _ rfl
      simp
    subst ht
    have keys : Complete (commaList (text "a key name")) (List.map Located.bare)
        (IsList IsText) fun k => True ∧ k ≠ .mark .comma :=
      commaList_complete (forward_text _) (text_complete _) trivial
    exact enclosed_complete keys ⟨trivial, by simp⟩ ho₂ areKeys
      fun v hv => congrArg Clause.withKeys hv
  | properties opens equals areEntries =>
    refine clause ho opens fun c₁ ht ho₁ => ?_
    subst ht
    refine (skip_complete ho₁ equals (areEntries.follows.imp ?_)).bind fun _ c₂ _ ht ho₂ => ?_
    · rintro _ rfl
      simp
    subst ht
    exact (assignments_complete ho₂ areEntries fun _ _ => trivial).answer
      fun v hv => congrArg Clause.properties hv

/-- All clauses are read, by induction over their sequence. -/
theorem clauses_complete {ts rest : List Token} {bs : List (Located Clause)}
    (h : IsSequence IsStatementClause ts bs rest) (hrest : Follows EndsClauses rest) :
    ∀ c : Cursor, Orderly c.tokens → c.tokens = ts →
      ∃ as c', clauses c = some (.ok (as, c')) ∧ as.map (fun a => .nowhere a.val.bare) = bs ∧
        c'.tokens = rest ∧ Orderly rest := by
  induction h with
  | nil =>
    intro c ho ht
    subst ht
    refine ⟨[], c, ?_, rfl, rfl, ho⟩
    exact (clauses.eq_1 c).trans (if_pos (follows_here hrest))
  | @cons _ _ _ b bs isClause others ih =>
    intro c ho ht
    subst ht
    obtain ⟨a, c₁, hread, ha, rfl, ho₁⟩ :=
      clause_complete ho isClause.2 (follows_clauses others hrest)
    obtain ⟨as, c₂, hreads, has, hend⟩ := ih hrest c₁ ho₁ rfl
    obtain ⟨-, notSemicolon, notEnd⟩ := follows_here isClause.2.follows
    have shorter := Cursor.ahead_length_lt ho notEnd (clause_tokens_suffix hread)
    -- the loop goes on, since the clause was read and the text got shorter
    refine ⟨a :: as, c₂, ?_, ?_, hend⟩
    · rw [clauses, if_neg (not_or.2 ⟨notSemicolon, notEnd⟩), hread]
      refine (if_pos shorter).trans ?_
      rw [hreads]
      rfl
    · obtain ⟨val, span⟩ := b
      obtain rfl : span = .nowhere := isClause.1
      obtain rfl : a.val.bare = val := ha
      rw [List.map_cons, has]
      rfl

/-! ## Statements -/

/-- The verb and the target are read where they stand. -/
theorem verbAndTarget_complete :
    Complete verbAndTarget (fun into => (into.1.map Located.bare, into.2.map Located.bare)) IsInto
      (· = .keyword .select) := by
  intro c into rest ho h hrest
  cases h with
  | none =>
    refine ⟨(none, none), c, ?_, rfl, rfl, ho⟩
    rw [verbAndTarget, peek_bind, follows_here hrest]
    rfl
  | some mode verb into isTarget =>
    obtain ⟨hk, rfl, ho₁⟩ := here_of_opens ho verb (by simp)
    -- the keyword of the verb selects its branch
    have reads : verbAndTarget c = verbAndTarget.intoTarget mode c := by
      rw [verbAndTarget, peek_bind, hk]
      cases mode <;> rfl
    rw [Leads, reads, verbAndTarget.intoTarget, next_bind]
    refine (keyword_complete ho₁ into).bind fun _ c₁ _ ht ho₂ => ?_
    subst ht
    refine (name_complete _ ho₂ isTarget fun _ _ => trivial).answer fun t ht => ?_
    rw [Option.map_some, Option.map_some, ht]
    rfl

/-- A statement is read up to its clauses. -/
theorem opening_complete {c : Cursor} {verb : Option (Located WriteMode)}
    {target : Option (Located String)} {columns : List Column} {source : Located String}
    {select list origin text rest : List Token} (ho : Orderly c.tokens)
    (isInto : IsInto c.tokens (verb, target) select)
    (hselect : Opens (.keyword .select) select list)
    (areColumns : IsList (IsColumn true) list columns origin)
    (hfrom : Opens (.keyword .from) origin text) (isSource : IsName text source rest) :
    Leads opening Statement.bare c ⟨verb, target, columns, source, [], .nowhere⟩ rest := by
  rw [Leads, opening, peek_bind]
  refine (verbAndTarget_complete ho isInto (hselect.follows rfl)).bind fun into c₁ hi ht ho₁ => ?_
  subst ht
  refine (keyword_complete ho₁ hselect).bind fun _ c₂ _ ht ho₂ => ?_
  subst ht
  refine (columns_complete _ ho₂ areColumns (hfrom.follows ⟨⟨by simp, by simp⟩, by simp⟩)).bind
    fun cols c₃ hcols ht ho₃ => ?_
  subst ht
  refine (keyword_complete ho₃ hfrom).bind fun _ c₄ _ ht ho₄ => ?_
  subst ht
  refine (name_complete _ ho₄ isSource fun _ _ => trivial).answer fun src hsrc => ?_
  obtain ⟨hverb, htarget⟩ := Prod.mk.inj hi
  rw [Statement.bare, ← hverb, ← htarget, ← hcols, ← hsrc]
  rfl

/-- Behind its clauses a statement ends, with a semicolon or without. -/
theorem ending_complete {c : Cursor} {stop : List Token} (start : Span) (ho : Orderly c.tokens)
    (semicolon : MayOpen (.mark .semicolon) c.tokens stop) (isEnd : Opens .endOfText stop []) :
    ∃ span c', ending start c = .ok (span, c') := by
  obtain ⟨_, c₁, hskip, -, rfl, ho₁⟩ := skip_complete ho semicolon (isEnd.follows (by simp))
  have atEnd : c₁.here.kind = .endOfText :=
    follows_here (isEnd.follows rfl : Follows (· = .endOfText) c₁.tokens)
  refine ⟨⟨start.start, max c₁.passed start.start⟩, c₁, bind_eq_ok.2 ⟨_, c₁, hskip, ?_⟩⟩
  rw [peek_bind, ite_apply, if_pos (beq_iff_eq.2 atEnd)]
  rfl

end ConnectorQuery.Parser

namespace ConnectorQuery

open Grammar ConnectorQuery.Parser

/-- What spells a statement is read as that statement. -/
theorem ofTokens?_of_isStatement {width : Nat} {tokens : List Token} {tree : Statement}
    (ho : Orderly tokens) (h : IsStatement tokens tree) :
    ∃ st, Statement.ofTokens? width tokens = some (.ok st) ∧ st.bare = tree := by
  have whole := Cursor.tokens_ofTokens ho width
  generalize hc : Cursor.ofTokens width tokens = c at whole
  subst whole
  cases h with
  | intro isInto select areColumns origin isSource areClauses semicolon isEnd nowhere =>
    obtain ⟨opened, c₁, hopened, hbare, rfl, ho₁⟩ :=
      opening_complete ho isInto select areColumns origin isSource
    obtain ⟨clauses, c₂, hclauses, hmap, rfl, ho₂⟩ :=
      clauses_complete areClauses (semicolon.follows isEnd) c₁ ho₁ rfl
    obtain ⟨span, c₃, hend⟩ := ending_complete opened.span ho₂ semicolon isEnd
    refine ⟨{ opened with clauses := clauses, span := span }, ?_, ?_⟩
    · rw [Statement.ofTokens?, hc, hopened]
      change Option.map _ (Parser.clauses c₁) = _
      rw [hclauses]
      exact congrArg some (except_bind_eq_ok.2 ⟨_, rfl, except_bind_eq_ok.2 ⟨_, hend, rfl⟩⟩)
    · injection hbare with hverb htarget hcolumns hsource _ _
      rw [Statement.bare, hverb, htarget, hcolumns, hsource, hmap, ← nowhere]

/-- A text is read as a statement exactly if its tokens are. -/
theorem Statement.parse_eq_ok_iff {text : String} {st : Statement} :
    Statement.parse text = .ok st ↔
      Statement.ofTokens? (Text.width text.toList) (Token.tokenize text) = some (.ok st) := by
  refine mapError_eq_ok.trans ?_
  rw [← Option.some_inj, Option.some_get]

/-- The statements that are read from a text are those that its tokens spell. -/
theorem exists_parse_bare_iff {text : String} {tree : Statement} :
    (∃ st, Statement.parse text = .ok st ∧ st.bare = tree) ↔
      IsStatement (Token.tokenize text) tree := by
  have ho := Token.orderly_tokenize text
  constructor
  · rintro ⟨st, h, rfl⟩
    exact isStatement_of_ofTokens? ho (Statement.parse_eq_ok_iff.1 h)
  · intro h
    obtain ⟨st, hread, hst⟩ := ofTokens?_of_isStatement ho h
    exact ⟨st, Statement.parse_eq_ok_iff.2 hread, hst⟩

/-- A text is read as a statement exactly when its tokens spell one, and as the
    one they spell. -/
theorem Statement.parse_iff_isStatement (text : String) :
    ((∃ st, Statement.parse text = .ok st) ↔ ∃ tree, IsStatement (Token.tokenize text) tree) ∧
      ∀ tree, (∃ st, Statement.parse text = .ok st ∧ st.bare = tree) ↔
        IsStatement (Token.tokenize text) tree := by
  refine ⟨⟨?_, ?_⟩, fun tree => exists_parse_bare_iff⟩
  · rintro ⟨st, h⟩
    exact ⟨st.bare, exists_parse_bare_iff.1 ⟨st, h, rfl⟩⟩
  · rintro ⟨tree, h⟩
    obtain ⟨st, hst, -⟩ := exists_parse_bare_iff.2 h
    exact ⟨st, hst⟩

end ConnectorQuery
