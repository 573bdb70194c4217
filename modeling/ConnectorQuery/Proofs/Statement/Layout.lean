import ConnectorQuery.Proofs.Bare
import ConnectorQuery.Proofs.Grammar.Soundness
import ConnectorQuery.Proofs.Token.Alike

/-!
# Reading whatever the layout

Of tokens that read alike the same is read. Two runs of a parser, one on each of
two lists of such tokens, stop at the same token, with the same answer or with the
same complaint, though all of it stands at other places (`Parser.Blind`). The
property is closed under sequencing, so it holds of every phrase of the grammar.

What an answer says is its form without places; of a tag, it does not count either
in which letters `AS` was written (`Statement.plain`).

* `Parser.blind_tagValue`: the spelling of `AS` in a tag is kept, but does not count;
* `Statement.sameOutcome_ofTokens?`: tokens that read alike spell the same statement.
-/

namespace ConnectorQuery

/-! ## What a statement says -/

/-- What follows the key of a tag, without places. In front of a value, all
    spellings of `AS` are one. -/
def TagEntry.plainBehind : Option (Located String) × Option (Located String) →
    Option (Located String) × Option (Located String)
  | (marker, none) => (marker.map Located.bare, none)
  | (marker, some value) => (marker.map plainMarker, some value.bare)
where
  /-- The text between the key and the value. -/
  plainMarker (marker : Located String) : Located String :=
    .nowhere (if Text.eqIgnoringCase marker.val "as" then "as" else marker.val)

/-- The place of a marker is not part of what a tag says. -/
theorem TagEntry.plainBehind_congr (marker : String) (span span' : Span)
    {v w : Option (Located String)} (same : v.map Located.bare = w.map Located.bare) :
    plainBehind (some ⟨marker, span⟩, v) = plainBehind (some ⟨marker, span'⟩, w) := by
  rcases v with _ | v <;> rcases w with _ | w
  · rfl
  · cases same
  · cases same
  · exact congrArg (Prod.mk _) same

/-- The entry without its places and the spelling of its `AS`. -/
def TagEntry.plain (e : TagEntry) : TagEntry :=
  let behind := plainBehind (e.marker, e.value)
  ⟨e.key.bare, behind.1, behind.2, .nowhere⟩

/-- The clause without its places and the spellings of `AS`. -/
def Clause.plain : Clause → Clause
  | .tags entries => .tags (entries.map TagEntry.plain)
  | c => c.bare

/-- The clause of a statement, without its places and the spellings of `AS`. -/
def Located.plain (c : Located Clause) : Located Clause :=
  .nowhere c.val.plain

/-- The statement without its places and the spellings of `AS`. -/
def Statement.plain (st : Statement) : Statement :=
  { st.bare with clauses := st.clauses.map Located.plain }

/-- The complaint without its place. Of what is no token, the text is left out. -/
def GrammarError.bare : GrammarError → GrammarError
  | .unexpectedToken expected found _ => .unexpectedToken expected found .nowhere
  | .unexpectedEnd expected _ => .unexpectedEnd expected .nowhere
  | .unrecognised _ _ => .unrecognised "" .nowhere

/-- Complaints about tokens that look alike say the same. -/
theorem GrammarError.bare_unexpected {t u : Token} (h : t.Alike u) (expected : String) :
    (unexpected expected t).bare = (unexpected expected u).bare := by
  rw [unexpected, unexpected, ← h.kind]
  cases hk : t.kind with
  | word | backtick | quoted => rw [h.text_eq_of_isValue (hk ▸ rfl)]; rfl
  | _ => rfl

namespace Parser

open Grammar

variable {α β γ δ : Type}

/-! ## Blind parsers -/

/-- The answers are the same up to `tree`. -/
abbrev Same (tree : α → β) (a b : α) : Prop :=
  tree a = tree b

/-- The answers are related, and the tokens behind them read alike. -/
def SameBehind (R : α → β → Prop) (r : α × Cursor) (s : β × Cursor) : Prop :=
  R r.1 s.1 ∧ ReadAlike r.2.tokens s.2.tokens

/-- The outcomes of two parsers: related answers, or the same complaint. -/
abbrev SameRun (R : α → β → Prop) :
    Except GrammarError (α × Cursor) → Except GrammarError (β × Cursor) → Prop :=
  SameOutcome (SameBehind R) (Same GrammarError.bare)

/-- On tokens that read alike, the parsers come to the same. -/
def Blind (R : α → β → Prop) (p : Parser α) (q : Parser β) : Prop :=
  ∀ c d, ReadAlike c.tokens d.tokens → SameRun R (p c) (q d)

section

variable {R : α → β → Prop} {S : γ → δ → Prop} {p : Parser α} {q : Parser β}
  {f : α → Parser γ} {g : β → Parser δ} {a : α} {b : β}

/-- Blind parsers in a row are blind. -/
theorem Blind.bind (hp : Blind R p q) (hf : ∀ a b, R a b → Blind S (f a) (g b)) :
    Blind S (p >>= f) (q >>= g) :=
  fun c d along => (hp c d along).bind fun r s same => hf r.1 s.1 same.1 r.2 s.2 same.2

/-- Answers that say the same do so anywhere. -/
theorem blind_pure (h : R a b) : Blind R (pure a) (pure b) :=
  fun _ _ along => .ok ⟨h, along⟩

theorem Blind.map (hp : Blind R p q) {f : α → γ} {g : β → δ} (h : ∀ a b, R a b → S (f a) (g b)) :
    Blind S (f <$> p) (g <$> q) :=
  hp.bind fun a b same => blind_pure (h a b same)

/-- Choices that agree lead to the same branch. -/
theorem blind_ite {x y : Bool} {p' : Parser α} {q' : Parser β} (h : x = y)
    (hp : x = true → Blind R p q) (hp' : Blind R p' q') :
    Blind R (if x then p else p') (if y then q else q') := by
  subst h
  cases x with
  | true => exact hp rfl
  | false => exact hp'

/-- A look at the kind of a token is a look at what tokens that are alike share. -/
theorem blind_whenAt {wanted : Token → Bool}
    (hw : ∀ t u : Token, t.kind = u.kind → wanted t = wanted u) (hp : Blind R p q) (h : R a b) :
    Blind R (whenAt wanted p a) (whenAt wanted q b) := by
  intro c d along
  rw [whenAt, whenAt, ← hw _ _ along.here.kind]
  split
  · exact hp c d along
  · exact .ok ⟨h, along⟩

end

/-- The tokens at hand are alike. -/
theorem blind_peek : Blind Token.Alike peek peek :=
  fun _ _ along => .ok ⟨along.here, along⟩

theorem blind_next : Blind Token.Alike next next :=
  fun _ _ along => .ok ⟨along.here, along.advance⟩

theorem blind_discard_next : Blind Eq (discard next) (discard next) :=
  blind_next.map fun _ _ _ => rfl

/-- Refusals of tokens that look alike say the same. -/
theorem blind_refuse {R : α → β → Prop} {t u : Token} (expected : String) (h : t.Alike u) :
    Blind R (refuse expected t) (refuse expected u) :=
  fun _ _ _ => .error (GrammarError.bare_unexpected h expected)

theorem blind_expect (k : TokenKind) : Blind Eq (expect k) (expect k) :=
  blind_peek.bind fun _ _ alike => blind_ite (congrArg (· == k) alike.kind)
    (fun _ => blind_discard_next) (blind_refuse _ alike)

theorem blind_skip (k : TokenKind) : Blind Eq (skip k) (skip k) :=
  blind_whenAt (fun _ _ same => congrArg (· == k) same) blind_discard_next rfl

/-- The span of a phrase is the one thing that differs. -/
theorem blind_spanFrom (start start' : Span) :
    Blind (fun _ _ => True) (spanFrom start) (spanFrom start') :=
  fun _ _ along => .ok ⟨trivial, along⟩

/-! ## Lists -/

section

variable {tree : α → β} {item : Parser α}

/-- The items behind the first one say the same, by induction on the tokens ahead. -/
theorem blind_moreItems (h : Blind (Same tree) item item) :
    Blind (Same (List.map tree)) (moreItems item) (moreItems item) := by
  intro c
  generalize hlength : c.ahead.length = length
  induction length using Nat.strong_induction_on generalizing c with
  | h length ih =>
    subst hlength
    intro d along
    rw [moreItems, moreItems, ← along.here.kind]
    split
    · have first := h _ _ along.advance
      generalize item c.advance = x, item d.advance = y at first
      cases first with
      | error same => exact .error same
      | @ok r s same =>
        obtain ⟨a, c'⟩ := r
        obtain ⟨b, d'⟩ := s
        obtain ⟨same, along'⟩ := same
        dsimp only
        -- both runs have passed as many tokens, so both go on or none does
        rw [← along'.ahead_length, ← along.ahead_length]
        split
        · rename_i shorter
          have others := ih _ shorter c' rfl d' along'
          generalize moreItems item c' = x, moreItems item d' = y at others
          cases others with
          | error same' => exact .error same'
          | ok others => exact .ok ⟨congrArg₂ List.cons same others.1, others.2⟩
        · exact .ok ⟨congrArg (fun b => [b]) same, along'⟩
    · exact .ok ⟨rfl, along⟩

/-- Lists say the same if their items do. -/
theorem blind_commaList (h : Blind (Same tree) item item) :
    Blind (Same (List.map tree)) (commaList item) (commaList item) :=
  h.bind fun _ _ first => (blind_moreItems h).bind fun _ _ others =>
    blind_pure (congrArg₂ List.cons first others)

end

/-! ## Names and values -/

/-- The token `t` is the last one that was joined to the path `p`. -/
structure EndsWith (p : FieldPath) (t : Token) : Prop where
  stop : p.name.span.stop = t.span.stop
  dangling : p.dangling = (t.kind == .mark .dot)

/-- Whether a token sticks to a name is settled by the last token of the name. -/
theorem EndsWith.sticksTo_iff {p : FieldPath} {t u : Token} (h : EndsWith p t) :
    sticksTo u p = true ↔ Sticks t u :=
  Parser.sticksTo_iff h.stop h.dangling

/-- A name that a token was joined to ends with that token. -/
theorem EndsWith.join {p : FieldPath} {t u : Token} (h : EndsWith p t) (hu : u.Genuine)
    (sticks : Sticks t u) : EndsWith (join p u) u := by
  refine ⟨?_, rfl⟩
  have ordered := hu.ordered
  have adjacent := sticks.1
  simp only [Parser.join, Span.merge, h.stop]
  omega

/-- Names that say the same do so with one more token, if these have one kind and one value. -/
theorem bare_join {p q : FieldPath} {t u : Token} (same : p.bare = q.bare)
    (kind : t.kind = u.kind) (value : t.value = u.value) : (join p t).bare = (join q u).bare := by
  have val : p.name.val = q.name.val := congrArg (·.name.val) same
  simp only [join, FieldPath.bare, Located.bare, val, kind, value]

/-- Behind tokens `t` and `u` that were joined last, joining goes on in step. -/
theorem joinAll_readAlike (ahead : List Token) : ∀ {p q : FieldPath} {t u here here' : Token}
    {passed passed' : Nat} {ahead' : List Token},
    ReadAlike (t :: here :: ahead) (u :: here' :: ahead') → p.bare = q.bare →
    EndsWith p t → EndsWith q u →
    (joinAll p here passed ahead).1.bare = (joinAll q here' passed' ahead').1.bare ∧
      ReadAlike (joinAll p here passed ahead).2.tokens
        (joinAll q here' passed' ahead').2.tokens := by
  induction ahead with
  | nil =>
    intro p q t u here here' passed passed' ahead' along same hp hq
    obtain _ | ⟨-, -, -, tail⟩ := along
    obtain ⟨alike, isEnd⟩ := tail
    -- nothing is joined, as the end of the text is at hand
    have apart {p : FieldPath} {t u : Token} (h : EndsWith p t) (hu : u.kind = .endOfText) :
        ¬sticksTo u p = true := fun sticks => (h.sticksTo_iff.1 sticks).ne_endOfText hu
    rw [joinAll, joinAll, if_neg (apart hp isEnd), if_neg (apart hq (alike.kind ▸ isEnd))]
    exact ⟨same, .last alike isEnd⟩
  | cons t' ahead ih =>
    intro p q t u here here' passed passed' ahead' along same hp hq
    have sticks_iff := along.sticks_iff
    have value := along.value_eq_of_sticks
    obtain _ | ⟨-, -, -, tail⟩ := along
    obtain ⟨u', ahead', rfl⟩ :=
      List.exists_cons_of_length_eq_add_one (Nat.succ.inj tail.length_eq.symm)
    have alike := tail.head
    rw [joinAll, joinAll]
    by_cases sticks : Sticks t here
    · have sticks' := sticks_iff.1 sticks
      rw [if_pos (hp.sticksTo_iff.2 sticks), if_pos (hq.sticksTo_iff.2 sticks')]
      exact ih tail (bare_join same alike.kind (value sticks)) (hp.join alike.genuine sticks)
        (hq.join alike.genuine' sticks')
    · have apart := fun h => sticks (hp.sticksTo_iff.1 h)
      have apart' := fun h => sticks (sticks_iff.2 (hq.sticksTo_iff.1 h))
      rw [if_neg apart, if_neg apart']
      exact ⟨same, tail⟩

/-- A path says the same wherever its tokens stand, as long as they touch in the same places. -/
theorem blind_path (expected : String) :
    Blind (Same FieldPath.bare) (path expected) (path expected) := by
  intro c d along
  rw [path, peek_bind, peek_bind, ite_apply, ite_apply, ← along.here.kind]
  split
  · rename_i value
    have first := Token.value_congr along.here.kind (along.here.text_eq_of_isValue value)
    obtain ⟨t, ts, passed⟩ := c
    obtain ⟨u, us, passed'⟩ := d
    have notDot : (t.kind == .mark .dot) = false :=
      beq_false_of_ne fun isDot => by simp [isDot, TokenKind.isValue] at value
    have notDot' : (u.kind == .mark .dot) = false := along.here.kind ▸ notDot
    cases along with
    | last _ isEnd => exact absurd isEnd (TokenKind.ne_endOfText_of_isValue value)
    | cons alike gap segment tail =>
      -- the path begins as this one token, which is no dot
      have same : (⟨⟨t.value, t.span⟩, false⟩ : FieldPath).bare = ⟨⟨u.value, .nowhere⟩, false⟩ :=
        congrArg (fun v => (⟨⟨v, .nowhere⟩, false⟩ : FieldPath)) first
      exact .ok (joinAll_readAlike _ (.cons alike gap segment tail) same ⟨rfl, notDot.symm⟩
        ⟨rfl, notDot'.symm⟩)
  · exact .error (GrammarError.bare_unexpected along.here _)

theorem blind_text (expected : String) :
    Blind (Same Located.bare) (text expected) (text expected) :=
  (blind_path expected).bind fun _ _ same => blind_pure (congrArg FieldPath.name same)

theorem blind_name (expected : String) :
    Blind (Same Located.bare) (name expected) (name expected) := by
  refine (blind_path expected).bind fun p q same => blind_peek.bind fun t u alike => ?_
  have dangling : p.bare.dangling = q.bare.dangling := congrArg FieldPath.dangling same
  exact blind_ite dangling (fun _ => blind_refuse _ alike)
    (blind_pure (congrArg FieldPath.name same))

theorem blind_value (expected : String) :
    Blind (Same Located.bare) (value expected) (value expected) :=
  (blind_skip _).bind fun _ _ _ => blind_text expected

theorem blind_assignment : Blind (Same Assignment.bare) assignment assignment :=
  (blind_text _).bind fun _ _ name => (blind_expect _).bind fun _ _ _ =>
    (blind_text _).bind fun _ _ value => blind_pure (congrArg₂ Assignment.mk name value)

theorem blind_assignments : Blind (Same (List.map Assignment.bare)) assignments assignments :=
  (blind_expect _).bind fun _ _ _ => (blind_commaList blind_assignment).bind fun _ _ same =>
    (blind_expect _).bind fun _ _ _ => blind_pure same

/-! ## Columns -/

/-- At a dot, both columns go on or none does. -/
theorem continuesBehind_readAlike {c d : Cursor} (along : ReadAlike c.tokens d.tokens)
    (isDot : c.here.kind = .mark .dot) :
    continuesBehind c.advance.here c.here = continuesBehind d.advance.here d.here ∧
      (continuesBehind c.advance.here c.here = true →
        c.advance.here.value = d.advance.here.value) := by
  obtain ⟨dot, ts, passed⟩ := c
  obtain ⟨dot', us, passed'⟩ := d
  cases ts with
  | nil =>
    obtain ⟨-, isEnd⟩ := along
    exact nomatch isEnd.symm.trans isDot
  | cons t ts =>
    obtain ⟨u, us, rfl⟩ :=
      List.exists_cons_of_length_eq_add_one (Nat.succ.inj along.length_eq.symm)
    have iff {t dot : Token} : continuesBehind t dot = true ↔ Continues dot t :=
      ⟨continues_of_continuesBehind, continuesBehind_of_continues⟩
    refine ⟨Bool.eq_iff_iff.2 (iff.trans (along.continues_iff.trans iff.symm)), fun goesOn => ?_⟩
    exact along.value_eq_of_continues isDot (iff.1 goesOn)

/-- The segments of a column are the same, and so is what is left. The induction is on the
    tokens ahead. -/
theorem moreSegments_readAlike (c : Cursor) : ∀ d, ReadAlike c.tokens d.tokens →
    (moreSegments c).1 = (moreSegments d).1 ∧
      ReadAlike (moreSegments c).2.tokens (moreSegments d).2.tokens := by
  fun_induction moreSegments c with
  -- `d` takes the branch that `c` takes, as kinds and gaps are the same
  | case1 c isDot behind isStar =>
    intro d along
    rw [moreSegments, ← along.here.kind, if_pos isDot]
    dsimp only
    rw [← along.advance.here.kind, if_pos isStar]
    exact ⟨rfl, along.advance.advance⟩
  | case2 c isDot behind notStar goesOn segments dangling c' h ih =>
    intro d along
    obtain ⟨continues, value⟩ := continuesBehind_readAlike along isDot
    obtain ⟨same, tail⟩ := ih d.advance.advance along.advance.advance
    rw [h] at same tail
    rw [moreSegments, ← along.here.kind, if_pos isDot]
    dsimp only
    rw [← along.advance.here.kind, if_neg notStar, ← continues, if_pos goesOn, ← value goesOn]
    exact ⟨congrArg (fun r => (behind.here.value :: r.1, r.2)) same, tail⟩
  | case3 c isDot behind notStar stops =>
    intro d along
    obtain ⟨continues, -⟩ := continuesBehind_readAlike along isDot
    rw [moreSegments, ← along.here.kind, if_pos isDot]
    dsimp only
    rw [← along.advance.here.kind, if_neg notStar, ← continues, if_neg stops]
    exact ⟨rfl, along.advance⟩
  | case4 c notDot =>
    intro d along
    rw [moreSegments, ← along.here.kind, if_neg notDot]
    exact ⟨rfl, along⟩

theorem blind_segments : Blind Eq segments segments :=
  fun c d along => .ok (moreSegments_readAlike c d along)

theorem blind_rename : Blind Eq rename rename :=
  blind_discard_next.bind fun _ _ _ => (blind_text _).bind fun _ _ same =>
    blind_pure (congrArg (fun name => some name.val) same)

/-- A column says the same, whichever way it begins. -/
theorem blind_column (mayRename : Bool) :
    Blind (Same Column.bare) (column mayRename) (column mayRename) := by
  refine blind_peek.bind fun t u alike => blind_ite (congrArg (· == _) alike.kind) (fun _ => ?_)
    (blind_ite (congrArg TokenKind.isValue alike.kind) (fun value => ?_) (blind_refuse _ alike))
  · exact blind_discard_next.bind fun _ _ _ => blind_pure rfl
  · have first := Token.value_congr alike.kind (alike.text_eq_of_isValue value)
    refine blind_discard_next.bind fun _ _ _ => blind_segments.bind fun behind _ same =>
      (blind_whenAt (fun _ _ same => congrArg (mayRename && · == .keyword .as) same) blind_rename
        rfl).bind fun name _ same' => (blind_spanFrom _ _).bind fun _ _ _ => blind_pure ?_
    subst same same'
    rw [Same, first]
    rfl

theorem blind_columns (mayRename : Bool) :
    Blind (Same (List.map Column.bare)) (commaList (column mayRename))
      (commaList (column mayRename)) :=
  blind_commaList (blind_column mayRename)

/-! ## Clauses -/

theorem blind_paths (expected : String) :
    Blind (Same (List.map FieldPath.bare)) (commaList (path expected))
      (commaList (path expected)) :=
  blind_commaList (blind_path expected)

theorem blind_bucketCount :
    Blind (Same (Option.map Located.bare)) bucketCount bucketCount :=
  blind_discard_next.bind fun _ _ _ => (blind_text _).bind fun _ _ same =>
    (blind_expect _).bind fun _ _ _ => blind_pure (congrArg some same)

theorem blind_bucketing : Blind (Same Clause.plain) bucketing bucketing :=
  (blind_whenAt (fun _ _ same => congrArg TokenKind.isValue same) (blind_paths _) rfl).bind
    fun _ _ names =>
      (blind_whenAt (fun _ _ same => congrArg (· == _) same) blind_bucketCount rfl).bind
        fun _ _ count => blind_pure (congrArg₂ Clause.bucketing names count)

/-- Whether there is an empty call is a matter of kinds. -/
theorem blind_emptyCall : Blind Eq emptyCall emptyCall := by
  intro c d along
  rw [emptyCall, emptyCall, ← along.here.kind, ← along.nextKind_eq]
  split
  · exact .ok ⟨rfl, along.advance.advance⟩
  · exact .ok ⟨rfl, along⟩

/-- The text in front of the value of a tag counts, unless it is `AS`. -/
theorem plainMarker_readAlike {t u : Token} (h : t.Alike u)
    (kind : t.kind = .mark .equals ∨ t.kind = .keyword .as) :
    TagEntry.plainBehind.plainMarker ⟨t.text, t.span⟩ =
      TagEntry.plainBehind.plainMarker ⟨u.text, u.span⟩ := by
  have isAs {t : Token} (h : t.Genuine) (hk : t.kind = .keyword .as) :
      TagEntry.plainBehind.plainMarker ⟨t.text, t.span⟩ = .nowhere "as" := by
    have spelled := h.spelled _ hk
    rw [Text.eqIgnoringCase_comm] at spelled
    exact congrArg Located.nowhere (if_pos spelled)
  rcases kind with equals | as
  · rw [TagEntry.plainBehind.plainMarker, TagEntry.plainBehind.plainMarker,
      h.text_eq_of_mark equals]
  · rw [isAs h.genuine as, isAs h.genuine' (h.kind ▸ as)]

/-- What comes behind the key of a tag says the same, if the marker is compared in plain text. -/
theorem blind_tagValue : Blind (Same TagEntry.plainBehind) tagValue tagValue := by
  intro c d along
  rw [tagValue, peek_bind, peek_bind]
  simp only [ite_apply, ← along.here.kind]
  split
  · exact .ok ⟨rfl, along⟩
  split
  · rename_i kind
    have marker := plainMarker_readAlike along.here (by simpa using kind)
    rw [marker_bind, marker_bind]
    refine (blind_text _).bind (S := Same TagEntry.plainBehind) (fun _ _ value => blind_pure ?_) _ _
      along.advance
    exact congrArg₂ (fun m v => (some m, some v)) marker value
  split
  · rename_i value
    -- a marker that is no keyword is written in the same way in both
    have between := along.here.text_eq_of_isValue value
    have further : Blind (Same (Option.map Located.bare))
        (whenAt (·.kind.isValue) (some <$> text "a tag value") none)
        (whenAt (·.kind.isValue) (some <$> text "a tag value") none) :=
      blind_whenAt (fun _ _ same => congrArg TokenKind.isValue same)
        ((blind_text _).map fun _ _ same => congrArg some same) rfl
    rw [marker_bind, marker_bind]
    refine further.bind (S := Same TagEntry.plainBehind) (fun v w value => blind_pure ?_) _ _
      along.advance
    rw [between]
    exact TagEntry.plainBehind_congr _ _ _ value
  · exact .error (GrammarError.bare_unexpected along.here _)

theorem blind_tagEntry : Blind (Same TagEntry.plain) tagEntry tagEntry := by
  refine blind_peek.bind fun _ _ _ => (blind_text _).bind fun _ _ key => blind_tagValue.bind
    fun _ _ behind => (blind_spanFrom _ _).bind fun _ _ _ => blind_pure ?_
  exact congrArg₂ (fun k b => TagEntry.mk k b.1 b.2 .nowhere) key behind

theorem blind_tagEntries :
    Blind (Same (List.map TagEntry.plain)) tagEntries tagEntries :=
  (blind_expect _).bind fun _ _ _ =>
    (blind_whenAt (fun _ _ same => congrArg (· != _) same) (blind_commaList blind_tagEntry)
      rfl).bind fun _ _ same => (blind_expect _).bind fun _ _ _ => blind_pure same

/-- Behind its keyword a clause says the same, one case for each keyword. -/
theorem blind_ofKeyword {t u : Token} (h : t.Alike u) (k : Keyword) :
    Blind (Same Clause.plain) (clauseBody.ofKeyword t k) (clauseBody.ofKeyword u k) := by
  cases k with
  | flag f => exact blind_pure rfl
  | setting s =>
    exact (blind_value _).bind fun _ _ same => blind_pure (congrArg (Clause.setting s) same)
  | primaryKey =>
    exact (blind_columns _).bind fun _ _ same => blind_pure (congrArg Clause.primaryKey same)
  | ignore => exact (blind_columns _).bind fun _ _ same => blind_pure (congrArg Clause.ignore same)
  | partitionBy =>
    exact (blind_paths _).bind fun _ _ same => blind_pure (congrArg Clause.partitionBy same)
  | distributeBy | clusterBy => exact blind_bucketing
  | storeAs =>
    exact (blind_value _).bind fun _ _ type =>
      (blind_whenAt (fun _ _ same => congrArg (· == _) same) blind_assignments rfl).bind
        fun _ _ parameters => blind_pure (congrArg₂ Clause.storeAs type parameters)
  | withTimestamp =>
    exact (blind_skip _).bind fun _ _ _ => (blind_path _).bind fun _ _ field =>
      blind_emptyCall.bind fun _ _ call => blind_pure (congrArg₂ Clause.timestamp field call)
  | withTag | withTags =>
    exact blind_tagEntries.bind fun _ _ same => blind_pure (congrArg Clause.tags same)
  | withKey =>
    exact (blind_skip _).bind fun _ _ _ => (blind_expect _).bind fun _ _ _ =>
      (blind_commaList (blind_text _)).bind fun _ _ same => (blind_expect _).bind fun _ _ _ =>
        blind_pure (congrArg Clause.withKeys same)
  | properties =>
    exact (blind_skip _).bind fun _ _ _ => blind_assignments.bind fun _ _ same =>
      blind_pure (congrArg Clause.properties same)
  | insert | upsert | update | into | select | «from» | «as» | buckets => exact blind_refuse _ h

theorem blind_clauseBody {t u : Token} (h : t.Alike u) :
    Blind (Same Clause.plain) (clauseBody t) (clauseBody u) := by
  rw [clauseBody, clauseBody, ← h.kind]
  split
  · exact blind_ofKeyword h _
  · exact blind_refuse _ h

/-- A clause says the same wherever it stands. -/
theorem blind_clause : Blind (Same Located.plain) clause clause :=
  blind_next.bind fun _ _ alike => (blind_clauseBody alike).bind fun _ _ same =>
    (blind_spanFrom _ _).bind fun _ _ _ => blind_pure (congrArg Located.nowhere same)

/-- Clauses say the same one after the other. The induction is on the tokens ahead. -/
theorem clauses_readAlike (c : Cursor) : ∀ d, ReadAlike c.tokens d.tokens →
    Option.Rel (SameRun (Same (List.map Located.plain))) (clauses c) (clauses d) := by
  generalize hlength : c.ahead.length = length
  induction length using Nat.strong_induction_on generalizing c with
  | h length ih =>
    subst hlength
    intro d along
    rw [clauses, clauses, ← along.here.kind]
    split
    · exact .some (.ok ⟨rfl, along⟩)
    have first := blind_clause c d along
    generalize clause c = x, clause d = y at first
    cases first with
    | error same => exact .some (.error same)
    | @ok r s same =>
      obtain ⟨a, c'⟩ := r
      obtain ⟨b, d'⟩ := s
      obtain ⟨same, along'⟩ := same
      dsimp only
      -- both guards compare the same numbers
      rw [← along'.ahead_length, ← along.ahead_length]
      split
      · rename_i shorter
        have others := ih _ shorter c' rfl d' along'
        generalize clauses c' = x, clauses d' = y at others
        cases others with
        | none => exact .none
        | some others =>
          cases others with
          | error same' => exact .some (.error same')
          | ok others => exact .some (.ok ⟨congrArg₂ List.cons same others.1, others.2⟩)
      · exact .none

/-! ## Statements -/

/-- The verb and the target say the same. -/
theorem blind_verbAndTarget :
    Blind (Same (Prod.map (Option.map Located.bare) (Option.map Located.bare)))
      verbAndTarget verbAndTarget := by
  have into (mode : WriteMode) :
      Blind (Same (Prod.map (Option.map Located.bare) (Option.map Located.bare)))
        (verbAndTarget.intoTarget mode) (verbAndTarget.intoTarget mode) :=
    blind_next.bind fun _ _ _ => (blind_expect _).bind fun _ _ _ => (blind_name _).bind
      fun _ _ same => blind_pure (congrArg (fun t => (some (Located.nowhere mode), some t)) same)
  refine blind_peek.bind fun t u alike => ?_
  rw [← alike.kind]
  split
  · exact into _
  · exact into _
  · exact into _
  · exact blind_pure rfl
  · exact blind_refuse _ alike

/-- A statement without clauses says the same. -/
theorem blind_opening : Blind (Same Statement.plain) opening opening := by
  refine blind_peek.bind fun _ _ _ => blind_verbAndTarget.bind fun _ _ into =>
    (blind_expect _).bind fun _ _ _ => (blind_columns true).bind fun _ _ columns =>
      (blind_expect _).bind fun _ _ _ => (blind_name _).bind fun _ _ source => blind_pure ?_
  obtain ⟨verb, target⟩ := Prod.ext_iff.1 into
  simp only [Same, Statement.plain, Statement.bare, Statement.mk.injEq, and_true]
  exact ⟨verb, target, columns, source⟩

theorem blind_ending (start start' : Span) :
    Blind (fun _ _ => True) (ending start) (ending start') :=
  (blind_skip _).bind fun _ _ _ => blind_peek.bind fun _ _ alike =>
    blind_ite (congrArg (· == _) alike.kind) (fun _ => blind_spanFrom _ _) (blind_refuse _ alike)

end Parser

/-- Tokens that read alike spell the same statement, or are refused with the same
    complaint. -/
theorem Statement.sameOutcome_ofTokens? {ts us : List Token} (along : ReadAlike ts us)
    (width width' : Nat) :
    Option.Rel (SameOutcome (Parser.Same plain) (Parser.Same GrammarError.bare))
      (ofTokens? width ts) (ofTokens? width' us) := by
  have opening := Parser.blind_opening _ _ (along.ofTokens width width')
  rw [ofTokens?, ofTokens?]
  generalize Parser.opening (Cursor.ofTokens width ts) = x,
    Parser.opening (Cursor.ofTokens width' us) = y at opening
  cases opening with
  | error same => exact .some (.error same)
  | @ok r s opening =>
    obtain ⟨opened, c⟩ := r
    obtain ⟨opened', d⟩ := s
    obtain ⟨same, along⟩ := opening
    dsimp only
    have clauses := Parser.clauses_readAlike c d along
    generalize Parser.clauses c = x, Parser.clauses d = y at clauses
    cases clauses with
    | none => exact .none
    | some clauses =>
      refine .some (clauses.bind fun r s others => ?_)
      refine (Parser.blind_ending _ _ r.2 s.2 others.2).bind fun _ _ _ => .ok ?_
      exact congrArg₂ (fun (st : Statement) cs => { st with clauses := cs }) same others.1

end ConnectorQuery
