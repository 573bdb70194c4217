import ConnectorQuery.Proofs.Grammar.Soundness
import ConnectorQuery.Proofs.Token.Cutting
import Mathlib.Data.List.Chain

/-!
# Elements and their tokens

A statement is made of *elements* that each take up some tokens in a row: its verb, names
and values, columns, tags and clauses, and a clause is made of elements again. The span
of an element goes from the start of its first token to the end of its last one
(`Span.Covers`), and what it says is put together from their texts (`Joins`).

The reader draws these spans from the place that it has reached, so it matters which
tokens it has passed (`Cursor.Passes`). A parser *yields* elements when those of its
answer stand among the tokens that it passes, one behind the other (`Parser.Yields`).
The elements of an answer are those that were there before a step and those that the step
adds, so the property is closed under sequencing, like that of going forward
(`Parser.Forward`), and holds of every phrase of the grammar.

* `InTurn`: elements stand one behind the other among tokens;
* `Parser.Yields.bind`: one parser behind another;
* `Parser.yields_path`, `Parser.yields_column`, `Parser.yields_tagEntry`,
  `Parser.yields_clause`: the parsers that draw spans;
* `Statement.stands_of_ofTokens?`: the elements of a statement stand among its tokens.
-/

namespace ConnectorQuery

open Token (stopOf stopOf_cons stopOf_append)

/-! ## Spans of tokens -/

/-- The span goes from the start of the first token to the end of the last one. -/
def Span.Covers (s : Span) (ts : List Token) : Prop :=
  ∃ first ∈ ts.head?, ∃ last ∈ ts.getLast?, s = ⟨first.span.start, last.span.stop⟩

/-- The span from a token up to the end of those behind covers them all. -/
theorem Span.covers_cons (t : Token) (ts : List Token) :
    Covers ⟨t.span.start, stopOf t.span.stop ts⟩ (t :: ts) := by
  have hlast := List.getLast?_eq_some_getLast (List.cons_ne_nil t ts)
  refine ⟨t, rfl, _, hlast, ?_⟩
  rw [← stopOf_cons 0, stopOf, hlast]
  rfl

/-- The tokens, joined, are the name or value: there is no gap between them, its span is theirs,
    and its text is put together from what they stand for. -/
structure Joins (ts : List Token) (s : Located String) : Prop where
  covers : s.span.Covers ts
  adjacent : ts.IsChain fun t u => t.span.stop = u.span.start
  val : s.val = String.join (ts.map Token.value)

/-- No name stands in no tokens. -/
theorem Joins.ne_nil {ts : List Token} {s : Located String} (h : Joins ts s) : ts ≠ [] := by
  obtain ⟨_, hfirst, -⟩ := h.covers
  rintro rfl
  exact nomatch hfirst

/-- What stands in the tokens behind the key of a tag: nothing, a marker as it was written,
    or a marker and a value. -/
inductive TagEntry.Behind :
    List Token → Option (Located String) → Option (Located String) → Prop
  | nothing : Behind [] none none
  | marker (m : Token) : Behind [m] (some ⟨m.text, m.span⟩) none
  | value (m : Token) {ts : List Token} {v : Located String} :
      Joins ts v → Behind (m :: ts) (some ⟨m.text, m.span⟩) (some v)

/-- The tag stands in the tokens. -/
def TagEntry.Stands (e : TagEntry) (ts : List Token) : Prop :=
  ∃ key behind, ts = key ++ behind ∧ Joins key e.key ∧ Behind behind e.marker e.value ∧
    e.span.Covers ts

/-! ## Elements -/

/-- What takes up tokens of a statement. -/
inductive Element
  | verb (v : Located WriteMode)
  | name (s : Located String)
  | column (c : Column)
  | tag (e : TagEntry)
  | clause (c : Located Clause)

/-- The elements of a pair, in order. -/
def Assignment.elements (a : Assignment) : List Element :=
  [.name a.name, .name a.value]

/-- The elements of a clause, in order. -/
def Clause.elements : Clause → List Element
  | .flag _ => []
  | .setting _ value => [.name value]
  | .primaryKey columns => columns.map .column
  | .ignore columns => columns.map .column
  | .partitionBy names => names.map fun p => .name p.name
  | .bucketing names count => names.map (fun p => .name p.name) ++ count.toList.map .name
  | .storeAs type parameters => .name type :: parameters.flatMap Assignment.elements
  | .timestamp value _ => [.name value.name]
  | .tags entries => entries.map .tag
  | .withKeys keys => keys.map .name
  | .properties entries => entries.flatMap Assignment.elements

/-- The elements of a statement in front of its clauses, in order. -/
def Statement.front (st : Statement) : List Element :=
  st.verb.toList.map .verb ++ st.target.toList.map .name ++ st.columns.map .column ++
    [.name st.source]

/-- The elements of a statement, in order. -/
def Statement.elements (st : Statement) : List Element :=
  st.front ++ st.clauses.map .clause

/-- The keyword that a clause behind `k` is known by. -/
def Keyword.known : Keyword → Keyword
  | .distributeBy => .clusterBy
  | .withTags => .withTag
  | k => k

namespace Element

/-- The span of an element. -/
def span : Element → Span
  | verb v => v.span
  | name s => s.span
  | column c => c.span
  | tag e => e.span
  | clause c => c.span

end Element

/-- The items stand among the tokens, one behind the other. -/
inductive InTurn {ι : Type} (stands : ι → List Token → Prop) : List ι → List Token → Prop
  | nil {ts : List Token} : InTurn stands [] ts
  | cons {i : ι} {is : List ι} (gap : List Token) {own rest : List Token} :
      stands i own → InTurn stands is rest → InTurn stands (i :: is) (gap ++ (own ++ rest))

/-- The element stands in the tokens, all of them. A clause opens with its keyword, and
    has its elements behind it. -/
inductive Element.Stands : Element → List Token → Prop
  | verb (mode : WriteMode) (t : Token) : Stands (.verb ⟨mode, t.span⟩) [t]
  | name {s : Located String} {ts : List Token} : Joins ts s → Stands (.name s) ts
  | column {c : Column} {ts : List Token} : c.span.Covers ts → Stands (.column c) ts
  | tag {e : TagEntry} {ts : List Token} : e.Stands ts → Stands (.tag e) ts
  | clause {c : Located Clause} {t : Token} {ts : List Token} {k : Keyword} :
      t.kind = .keyword k → k.known = c.val.keyword → InTurn Stands c.val.elements ts →
      c.span.Covers (t :: ts) → Stands (.clause c) (t :: ts)

namespace InTurn

variable {ι : Type} {stands : ι → List Token → Prop} {is js : List ι} {i : ι}
  {ts us : List Token}

/-- Tokens behind the last element stay out of account. -/
theorem append_right (h : InTurn stands is ts) (us : List Token) :
    InTurn stands is (ts ++ us) := by
  induction h with
  | nil => exact .nil
  | cons gap own _ ih =>
    rw [List.append_assoc, List.append_assoc]
    exact .cons gap own ih

/-- Tokens in front of the first element stay out of account. -/
theorem append_left (h : InTurn stands is us) (ts : List Token) :
    InTurn stands is (ts ++ us) := by
  cases h with
  | nil => exact .nil
  | cons gap own rest =>
    rw [← List.append_assoc]
    exact .cons (ts ++ gap) own rest

/-- Elements in turn, and others in turn behind them, are in turn together. -/
theorem append (h : InTurn stands is ts) (h' : InTurn stands js us) :
    InTurn stands (is ++ js) (ts ++ us) := by
  induction h with
  | nil => exact h'.append_left _
  | cons gap own _ ih =>
    rw [List.append_assoc, List.append_assoc]
    exact .cons gap own ih

/-- One element is in turn where it stands. -/
theorem singleton (h : stands i ts) : InTurn stands [i] ts := by
  have alone : InTurn stands [i] ([] ++ (ts ++ [])) := .cons [] h .nil
  rwa [List.nil_append, List.append_nil] at alone

/-- Each item has a part of the tokens. -/
theorem exists_of_mem (h : InTurn stands is ts) (hi : i ∈ is) :
    ∃ own, own <:+: ts ∧ stands i own := by
  induction h with
  | nil => exact absurd hi List.not_mem_nil
  | @cons j js gap own rest hown _ ih =>
    rcases List.mem_cons.1 hi with rfl | hi
    · exact ⟨own, ⟨gap, rest, List.append_assoc _ _ _⟩, hown⟩
    · obtain ⟨own', part, hown'⟩ := ih hi
      have behind : rest <:+ gap ++ (own ++ rest) :=
        (List.suffix_append own rest).trans (List.suffix_append gap _)
      exact ⟨own', part.trans behind.isInfix, hown'⟩

end InTurn

/-! ## Passed tokens -/

/-- Behind the first of the tokens in order, the others are in order and do not reach back
    over it. -/
theorem Orderly.of_cons {t : Token} {ts : List Token} (h : Orderly (t :: ts)) (hts : ts ≠ []) :
    t.span.start ≤ t.span.stop ∧ (∀ u ∈ ts.head?, t.span.stop ≤ u.span.start) ∧ Orderly ts := by
  cases h with
  | last _ => exact absurd rfl hts
  | cons _ upright behind others => exact ⟨upright, behind, others⟩

/-- A token behind others in order ends where they begin, or later. -/
theorem Orderly.le_stopOf {n : Nat} {ts rest : List Token} (h : Orderly (ts ++ rest))
    (notAll : rest ≠ []) (hn : ∀ t ∈ (ts ++ rest).head?, n ≤ t.span.start) :
    n ≤ stopOf n ts := by
  induction ts generalizing n with
  | nil => exact Nat.le_refl n
  | cons t ts ih =>
    have first : n ≤ t.span.start := hn t rfl
    obtain ⟨upright, behind, others⟩ :=
      h.of_cons (List.append_ne_nil_of_right_ne_nil ts notAll)
    rw [stopOf_cons]
    exact Nat.le_trans first (Nat.le_trans upright (ih others behind))

namespace Cursor

variable {c c₁ c' : Cursor} {ts us : List Token}

/-- From the cursor `c` on the tokens `ts` are passed, up to the cursor `c'`. -/
structure Passes (c : Cursor) (ts : List Token) (c' : Cursor) : Prop where
  tokens : c.tokens = ts ++ c'.tokens
  passed : c'.passed = stopOf c.passed ts
  orderly : Orderly c'.tokens

theorem passes_nil (ho : Orderly c.tokens) : c.Passes [] c :=
  ⟨rfl, rfl, ho⟩

/-- Tokens passed in two steps are those of the first and then those of the second. -/
theorem Passes.trans (h : c.Passes ts c₁) (h' : c₁.Passes us c') : c.Passes (ts ++ us) c' where
  tokens := by rw [h.tokens, h'.tokens, List.append_assoc]
  passed := by rw [h'.passed, h.passed, stopOf_append]
  orderly := h'.orderly

/-- To move on is to pass the token at hand, and the end of the text is never passed. -/
theorem passes_advance (ho : Orderly c.tokens) (hk : c.here.kind ≠ .endOfText) :
    c.Passes [c.here] c.advance := by
  refine ⟨tokens_advance ho hk, ?_, orderly_advance ho hk⟩
  obtain ⟨here, ahead, passed⟩ := c
  cases ahead with
  | nil => exact absurd rfl (ho.tail hk).ne_nil
  | cons t ts => rfl

/-- A span that is drawn from the token at hand to the place that is reached is that of
    the tokens between. -/
theorem Passes.covers (h : c.Passes ts c') (ho : Orderly c.tokens) (notEmpty : ts ≠ []) :
    Span.Covers ⟨c.here.span.start, max c'.passed c.here.span.start⟩ ts := by
  obtain ⟨t, ts, rfl⟩ := List.exists_cons_of_ne_nil notEmpty
  obtain ⟨rfl, -⟩ : c.here = t ∧ c.ahead = ts ++ c'.tokens := List.cons.inj h.tokens
  have stop : c'.passed = stopOf c.here.span.stop ts := by rw [h.passed, stopOf_cons]
  have upright : c.here.span.start ≤ c'.passed := by
    have fromHere : c.here.span.start ≤ stopOf c.here.span.start (c.here :: ts) := by
      refine Orderly.le_stopOf (h.tokens ▸ ho) h.orderly.ne_nil ?_
      rintro t ⟨⟩
      exact Nat.le_refl _
    rwa [stopOf_cons, ← stop] at fromHere
  rw [Nat.max_eq_left upright, stop]
  exact Span.covers_cons _ _

end Cursor

/-- A clause is known by the keyword that it opens with. -/
theorem Grammar.IsClause.exists_known {ts rest : List Token} {a : Clause}
    (h : IsClause ts a rest) :
    ∃ k behind, Opens (.keyword k) ts behind ∧ k.known = a.keyword := by
  cases h with
  | flag f opens => exact ⟨_, _, opens, rfl⟩
  | setting s opens _ => exact ⟨_, _, opens, rfl⟩
  | bucketing hk opens _ _ =>
    rcases hk with rfl | rfl
    · exact ⟨_, _, opens, rfl⟩
    · exact ⟨_, _, opens, rfl⟩
  | tags hk opens _ =>
    rcases hk with rfl | rfl
    · exact ⟨_, _, opens, rfl⟩
    · exact ⟨_, _, opens, rfl⟩
  | primaryKey opens | ignore opens | partitionBy opens | storeAs opens | timestamp opens
  | withKeys opens | properties opens => exact ⟨_, _, opens, rfl⟩

/-- The keyword of a clause does not hang on its places. -/
theorem Clause.keyword_bare (c : Clause) : c.bare.keyword = c.keyword := by
  cases c <;> rfl

namespace Parser

variable {α β : Type} {front : List Element}

/-- Where the elements `front` were read before, those of the answer are these and others,
    which stand one behind the other among the tokens that the parser passes. -/
def Yields (front : List Element) (p : Parser α) (elements : α → List Element) : Prop :=
  ∀ ⦃c : Cursor⦄ ⦃a : α⦄ ⦃c' : Cursor⦄, Orderly c.tokens → p c = .ok (a, c') →
    ∃ ts behind, c.Passes ts c' ∧ InTurn Element.Stands behind ts ∧
      elements a = front ++ behind

/-- The answer has no elements of its own. -/
abbrev YieldsNothing (p : Parser α) : Prop :=
  Yields [] p fun _ => []

/-- An answer without reading passes nothing. -/
theorem yields_pure {a : α} {elements : α → List Element} (h : elements a = front) :
    Yields front (pure a) elements := by
  rintro c _ c' ho ⟨⟩
  exact ⟨[], [], Cursor.passes_nil ho, .nil, by rw [h, List.append_nil]⟩

/-- A parser that passes the tokens of one element. -/
theorem yields_one {p : Parser α} {element : α → Element}
    (h : ∀ ⦃c a c'⦄, Orderly c.tokens → p c = .ok (a, c') →
      ∃ ts, c.Passes ts c' ∧ (element a).Stands ts) : Yields [] p fun a => [element a] := by
  intro c a c' ho hc
  obtain ⟨ts, passes, stands⟩ := h ho hc
  exact ⟨ts, _, passes, .singleton stands, rfl⟩

/-- Parsers in a row yield the elements of the first and then those of the second. The
    second one knows the first ones as its front. -/
theorem Yields.bind {p : Parser α} {f : α → Parser β} {first : α → List Element}
    {elements : β → List Element} (hp : Yields [] p first)
    (hf : ∀ a, Yields (front ++ first a) (f a) elements) :
    Yields front (p >>= f) elements := by
  intro c b c' ho h
  obtain ⟨a, c₁, h₁, h₂⟩ := bind_eq_ok.1 h
  obtain ⟨ts, own, passes, inTurn, hown⟩ := hp ho h₁
  obtain ⟨us, more, passes', inTurn', hmore⟩ := hf a passes.orderly h₂
  refine ⟨ts ++ us, own ++ more, passes.trans passes', inTurn.append inTurn', ?_⟩
  rw [hmore, hown, List.nil_append, List.append_assoc]

/-- What is read may be left out of the answer. -/
theorem Yields.forget {p : Parser α} {elements : α → List Element} (hp : Yields front p elements) :
    YieldsNothing p := by
  intro c a c' ho h
  obtain ⟨ts, _, passes, -, -⟩ := hp ho h
  exact ⟨ts, [], passes, .nil, rfl⟩

theorem yields_peek : YieldsNothing peek := by
  rintro c _ c' ho ⟨⟩
  exact ⟨[], [], Cursor.passes_nil ho, .nil, rfl⟩

theorem yields_refuse (expected : String) (found : Token) (elements : α → List Element) :
    Yields front (refuse expected found : Parser α) elements :=
  fun _ _ _ _ h => absurd h refuse_ne_ok

/-- A choice yields what the branch taken does. -/
theorem yields_ite {b : Bool} {p q : Parser α} {elements : α → List Element}
    (hp : b = true → Yields front p elements) (hq : Yields front q elements) :
    Yields front (if b then p else q) elements := by
  cases b with
  | false => exact hq
  | true => exact hp rfl

/-- A phrase that may be missing yields nothing where it is. -/
theorem yields_whenAt {wanted : Token → Bool} {p : Parser α} {otherwise : α}
    {elements : α → List Element} (hp : Yields front p elements)
    (h : elements otherwise = front) : Yields front (whenAt wanted p otherwise) elements := by
  intro c a c' ho hc
  rw [whenAt] at hc
  split at hc
  · exact hp ho hc
  · exact yields_pure h ho hc

/-- Passing the token at hand, where it is known not to be the end of the text. -/
theorem yields_whenAt_next {wanted : Token → Bool} {f : Unit → Parser α} {otherwise : α}
    {elements : α → List Element} (hw : ∀ t, wanted t = true → t.kind ≠ .endOfText)
    (hf : Yields front (f ()) elements) (h : elements otherwise = front) :
    Yields front (whenAt wanted (discard next >>= f) otherwise) elements := by
  intro c a c' ho hc
  rw [whenAt] at hc
  split at hc
  · rename_i at_wanted
    have passes := Cursor.passes_advance ho (hw _ at_wanted)
    obtain ⟨ts, behind, passes', inTurn, he⟩ := hf passes.orderly hc
    exact ⟨_, behind, passes.trans passes', inTurn.append_left _, he⟩
  · exact yields_pure h ho hc

/-- Keywords and marks are no elements. -/
theorem yields_expect {k : TokenKind} (hk : k ≠ .endOfText) : YieldsNothing (expect k) := by
  intro c a c' ho h
  rw [expect, peek_bind, ite_apply] at h
  split at h
  · rename_i at_k
    cases h
    have notEnd : c.here.kind ≠ .endOfText := beq_iff_eq.1 at_k ▸ hk
    exact ⟨[c.here], [], Cursor.passes_advance ho notEnd, .nil, rfl⟩
  · exact absurd h refuse_ne_ok

theorem yields_mark (m : Mark) : YieldsNothing (expect (.mark m)) :=
  yields_expect nofun

theorem yields_keyword (k : Keyword) : YieldsNothing (expect (.keyword k)) :=
  yields_expect nofun

theorem yields_skip (m : Mark) : YieldsNothing (skip (.mark m)) := by
  have notEnd (t : Token) (h : (t.kind == .mark m) = true) : t.kind ≠ .endOfText := by
    rw [beq_iff_eq.1 h]
    exact nofun
  exact yields_whenAt_next notEnd (yields_pure rfl) rfl

/-- A list yields the elements of its items in turn. The induction is on the tokens ahead. -/
theorem yields_moreItems {item : Parser α} {elements : α → List Element}
    (hitem : Yields [] item elements) :
    Yields [] (moreItems item) (List.flatMap elements) := by
  intro c
  fun_induction moreItems item c with
  | case1 c atComma e he => rintro _ _ _ ⟨⟩
  | case2 c atComma a c₁ h₁ shorter e he ih => rintro _ _ _ ⟨⟩
  | case3 c atComma a c₁ h₁ shorter as c₂ h₂ ih =>
    rintro _ c' ho ⟨⟩
    have comma := Cursor.passes_advance ho (by simp [atComma])
    obtain ⟨ts, own, passes, inTurn, hown⟩ := hitem comma.orderly h₁
    obtain ⟨us, more, passes', inTurn', hmore⟩ := ih passes.orderly h₂
    refine ⟨_, own ++ more, comma.trans (passes.trans passes'),
      (inTurn.append inTurn').append_left _, ?_⟩
    rw [List.flatMap_cons, hown, hmore]
    rfl
  | case4 c atComma a c₁ h₁ stuck =>
    -- a comma is not the last token, so the item behind it got past it
    intro _ c' ho _
    have comma := Cursor.passes_advance ho (by simp [atComma])
    obtain ⟨ts, -, passes, -, -⟩ := hitem comma.orderly h₁
    have notEnd : c.here.kind ≠ .endOfText := by simp [atComma]
    exact absurd (Cursor.ahead_length_lt ho notEnd ⟨ts, passes.tokens.symm⟩) stuck
  | case5 c notAtComma =>
    rintro _ c' ho ⟨⟩
    exact ⟨[], [], Cursor.passes_nil ho, .nil, rfl⟩

theorem yields_commaList {item : Parser α} {elements : α → List Element}
    (hitem : Yields [] item elements) :
    Yields [] (commaList item) (List.flatMap elements) :=
  hitem.bind fun _ => (yields_moreItems hitem).bind fun _ => yields_pure (by simp)

/-! ## Names and values -/

/-- A token that is the last one does not stick to a name. -/
theorem not_sticksTo_of_last {here : Token} {p : FieldPath} (ho : Orderly [here]) :
    ¬sticksTo here p = true := by
  have last : here.kind = .endOfText := by
    cases ho with
    | last h => exact h
    | cons _ _ _ h => exact absurd rfl h.ne_nil
  simp [sticksTo, last, TokenKind.isValue, TokenKind.isKeyword]

/-- A token that sticks to a name starts where the name ends. -/
theorem startsAt_of_sticksTo {t : Token} {p : FieldPath} (h : sticksTo t p = true) :
    p.name.span.stop = t.span.start :=
  (beq_iff_eq.1 (Bool.and_eq_true_iff.1 h).1).symm

/-- Joining passes the tokens that it joins. They follow the name without a gap, and its
    span ends where the last of them does. -/
theorem passes_joinAll (ahead : List Token) : ∀ (p : FieldPath) (here : Token) (passed : Nat),
    Orderly (here :: ahead) → p.name.span.start ≤ p.name.span.stop →
    ∃ run, Cursor.Passes ⟨here, ahead, passed⟩ run (joinAll p here passed ahead).2 ∧
      (joinAll p here passed ahead).1.name.span =
        ⟨p.name.span.start, stopOf p.name.span.stop run⟩ ∧
      ((∀ t ∈ run.head?, p.name.span.stop = t.span.start) ∧
        run.IsChain fun t u => t.span.stop = u.span.start) ∧
      (joinAll p here passed ahead).1.name.val =
        p.name.val ++ String.join (run.map Token.value) := by
  induction ahead with
  | nil =>
    intro p here passed ho _
    rw [joinAll, if_neg (not_sticksTo_of_last ho)]
    exact ⟨[], Cursor.passes_nil ho, rfl, ⟨by simp, .nil⟩, by simp⟩
  | cons u ahead ih =>
    intro p here passed ho upright
    rw [joinAll]
    split
    · rename_i sticks
      have adjacent := startsAt_of_sticksTo sticks
      have notEnd : here.kind ≠ .endOfText := fun atEnd =>
        absurd (ho.eq_nil atEnd) (List.cons_ne_nil u ahead)
      have wide := (ho.of_cons (List.cons_ne_nil u ahead)).1
      have passes : Cursor.Passes ⟨here, u :: ahead, passed⟩ [here] ⟨u, ahead, here.span.stop⟩ :=
        Cursor.passes_advance ho notEnd
      -- the joined span begins where the name does and ends where the token does
      have joined : (join p here).name.span = ⟨p.name.span.start, here.span.stop⟩ := by
        simp only [join, Span.merge, Span.mk.injEq]
        omega
      have upright' : (join p here).name.span.start ≤ (join p here).name.span.stop := by
        rw [joined]
        exact Nat.le_trans upright (adjacent ▸ wide)
      obtain ⟨run, passes', span, ⟨next, chain⟩, val⟩ :=
        ih (join p here) u _ passes.orderly upright'
      refine ⟨here :: run, passes.trans passes', ?_, ⟨?_, List.isChain_cons.2 ⟨?_, chain⟩⟩, ?_⟩
      · rw [span, joined, stopOf_cons]
      · rintro t ⟨⟩
        exact adjacent
      · rwa [joined] at next
      · rw [val, List.map_cons, String.join_cons, ← String.append_assoc]
        rfl
    · exact ⟨[], Cursor.passes_nil ho, rfl, ⟨by simp, .nil⟩, by simp⟩

/-- The tokens of a path join to its name. -/
theorem passes_path {expected : String} {c c' : Cursor} {p : FieldPath} (ho : Orderly c.tokens)
    (h : path expected c = .ok (p, c')) : ∃ ts, c.Passes ts c' ∧ Joins ts p.name := by
  rw [path, peek_bind, ite_apply] at h
  split at h
  · rename_i value
    have notEnd := TokenKind.ne_endOfText_of_isValue value
    have first := Cursor.passes_advance ho notEnd
    have wide : c.here.span.start ≤ c.here.span.stop := by
      rw [first.tokens] at ho
      exact (ho.of_cons first.orderly.ne_nil).1
    obtain ⟨run, passes, span, chain, val⟩ := passes_joinAll c.advance.ahead
      ⟨⟨c.here.value, c.here.span⟩, false⟩ c.advance.here c.advance.passed first.orderly wide
    obtain ⟨rfl, rfl⟩ := Prod.mk.inj (Except.ok.inj h)
    refine ⟨_, first.trans passes, ?_, List.isChain_cons.2 chain, ?_⟩
    · rw [span]
      exact Span.covers_cons _ _
    · rw [val, List.singleton_append, List.map_cons, String.join_cons]
  · exact absurd h refuse_ne_ok

/-- A text passes what a path does. -/
theorem passes_text {expected : String} {c c' : Cursor} {s : Located String}
    (ho : Orderly c.tokens) (h : text expected c = .ok (s, c')) :
    ∃ ts, c.Passes ts c' ∧ Joins ts s := by
  obtain ⟨p, c₁, h₁, h⟩ := bind_eq_ok.1 h
  obtain ⟨rfl, rfl⟩ := pure_eq_ok h
  exact passes_path ho h₁

/-- A path is one element, whatever the number of its tokens. -/
theorem yields_path (expected : String) : Yields [] (path expected) fun p => [.name p.name] :=
  yields_one fun _ _ _ ho h => (passes_path ho h).imp fun _ => And.imp_right .name

theorem yields_text (expected : String) : Yields [] (text expected) fun s => [.name s] :=
  yields_one fun _ _ _ ho h => (passes_text ho h).imp fun _ => And.imp_right .name

theorem yields_name (expected : String) : Yields [] (name expected) fun s => [.name s] :=
  (yields_path expected).bind fun _ => yields_peek.bind fun _ =>
    yields_ite (fun _ => yields_refuse _ _ _) (yields_pure rfl)

theorem yields_value (expected : String) : Yields [] (value expected) fun s => [.name s] :=
  (yields_skip _).bind fun _ => yields_text expected

theorem yields_assignment : Yields [] assignment Assignment.elements :=
  (yields_text _).bind fun _ => (yields_mark _).bind fun _ => (yields_text _).bind fun _ =>
    yields_pure rfl

theorem yields_assignments : Yields [] assignments (List.flatMap Assignment.elements) :=
  (yields_mark _).bind fun _ => (yields_commaList yields_assignment).bind fun _ =>
    (yields_mark _).bind fun _ => yields_pure (by simp)

/-! ## Columns -/

/-- The segments of a column pass what they take, by induction on the tokens ahead. -/
theorem passes_moreSegments (c : Cursor) (ho : Orderly c.tokens) :
    ∃ ts, c.Passes ts (moreSegments c).2 := by
  fun_induction moreSegments c with
  | case1 c atDot behind atStar =>
    have dot := Cursor.passes_advance ho (by simp [atDot])
    exact ⟨_, dot.trans (Cursor.passes_advance dot.orderly (by simp [behind, atStar]))⟩
  | case2 c atDot behind _ continues segments dangling c' h ih =>
    have dot := Cursor.passes_advance ho (by simp [atDot])
    have notEnd := (continues_of_continuesBehind continues).ne_endOfText
    have segment := Cursor.passes_advance dot.orderly notEnd
    rw [h] at ih
    obtain ⟨ts, passes⟩ := ih segment.orderly
    exact ⟨_, dot.trans (segment.trans passes)⟩
  | case3 c atDot behind _ _ => exact ⟨_, Cursor.passes_advance ho (by simp [atDot])⟩
  | case4 c _ => exact ⟨[], Cursor.passes_nil ho⟩

theorem yields_segments : YieldsNothing segments := by
  intro c r c' ho h
  obtain ⟨ts, passes⟩ := passes_moreSegments c ho
  rw [Except.ok.inj h] at passes
  exact ⟨ts, [], passes, .nil, rfl⟩

theorem yields_rename {mayRename : Bool} :
    YieldsNothing (whenAt (fun t => mayRename && t.kind == .keyword .as) rename none) := by
  refine yields_whenAt_next (fun t h => ?_) ?_ rfl
  · rw [beq_iff_eq.1 (Bool.and_eq_true_iff.1 h).2]
    exact nofun
  · exact (yields_text _).forget.bind fun _ => yields_pure rfl

/-- The span of a column is that of all tokens that it passes. -/
theorem passes_column {mayRename : Bool} {c c' : Cursor} {a : Column} (ho : Orderly c.tokens)
    (h : column mayRename c = .ok (a, c')) : ∃ ts, c.Passes ts c' ∧ a.span.Covers ts := by
  rw [column, peek_bind, ite_apply, ite_apply] at h
  split at h
  · -- a star alone
    rename_i star
    cases h
    have passes := Cursor.passes_advance ho (by simp [beq_iff_eq.1 star])
    exact ⟨_, passes, Span.covers_cons _ _⟩
  split at h
  · rename_i value
    rw [discard_next_bind] at h
    obtain ⟨behind, c₁, h₁, h⟩ := bind_eq_ok.1 h
    obtain ⟨rename, c₂, h₂, h⟩ := bind_eq_ok.1 h
    cases h
    -- the name is passed first, then its segments, then its renaming
    have notEnd := TokenKind.ne_endOfText_of_isValue value
    have first := Cursor.passes_advance ho notEnd
    obtain ⟨ts, -, passes, -, -⟩ := yields_segments first.orderly h₁
    obtain ⟨us, -, passes', -, -⟩ := yields_rename passes.orderly h₂
    have whole := first.trans (passes.trans passes')
    exact ⟨_, whole, whole.covers ho (List.cons_ne_nil _ _)⟩
  · exact absurd h refuse_ne_ok

/-- A column is one element, its renaming included. -/
theorem yields_column (mayRename : Bool) :
    Yields [] (column mayRename) fun column => [.column column] :=
  yields_one fun _ _ _ ho h => (passes_column ho h).imp fun _ => And.imp_right .column

/-! ## Clauses -/

/-- What is read behind the key of a tag. -/
theorem passes_tagValue {c c' : Cursor} {r : Option (Located String) × Option (Located String)}
    (ho : Orderly c.tokens) (h : tagValue c = .ok (r, c')) :
    ∃ ts, c.Passes ts c' ∧ TagEntry.Behind ts r.1 r.2 := by
  rw [tagValue, peek_bind, ite_apply, ite_apply, ite_apply] at h
  split at h
  · cases h
    exact ⟨[], Cursor.passes_nil ho, .nothing⟩
  split at h
  · -- `=` or `AS`, which must have a value behind it
    rename_i assigns
    have notEnd : c.here.kind ≠ .endOfText := by
      intro atEnd
      rw [atEnd] at assigns
      exact absurd assigns (by decide)
    have between := Cursor.passes_advance ho notEnd
    rw [marker_bind] at h
    obtain ⟨value, c₁, h₁, h⟩ := bind_eq_ok.1 h
    cases h
    obtain ⟨ts, passes, spells⟩ := passes_text between.orderly h₁
    exact ⟨_, between.trans passes, .value c.here spells⟩
  split at h
  · -- any other text, which may have one
    rename_i value
    have between := Cursor.passes_advance ho (TokenKind.ne_endOfText_of_isValue value)
    rw [marker_bind] at h
    obtain ⟨further, c₁, h₁, h⟩ := bind_eq_ok.1 h
    cases h
    rw [whenAt] at h₁
    split at h₁
    · obtain ⟨val, h₂, rfl⟩ := map_eq_ok h₁
      obtain ⟨ts, passes, spells⟩ := passes_text between.orderly h₂
      exact ⟨_, between.trans passes, .value c.here spells⟩
    · cases h₁
      exact ⟨_, between, .marker c.here⟩
  · exact absurd h refuse_ne_ok

/-- The span of a tag is drawn from the token that its key opens with. -/
theorem yields_tagEntry : Yields [] tagEntry fun e => [.tag e] := by
  refine yields_one fun c e c' ho h => ?_
  rw [tagEntry, peek_bind] at h
  obtain ⟨key, c₁, h₁, h⟩ := bind_eq_ok.1 h
  obtain ⟨r, c₂, h₂, h⟩ := bind_eq_ok.1 h
  cases h
  obtain ⟨ts, passes, spells⟩ := passes_text ho h₁
  obtain ⟨us, passes', behind⟩ := passes_tagValue passes.orderly h₂
  have whole := passes.trans passes'
  have notEmpty := List.append_ne_nil_of_left_ne_nil spells.ne_nil us
  exact ⟨_, whole, .tag ⟨ts, us, rfl, spells, behind, whole.covers ho notEmpty⟩⟩

/-- Tags are elements, each with its marker and its value. -/
theorem yields_tagEntries : Yields [] tagEntries (List.map Element.tag) :=
  (yields_mark _).bind fun _ =>
    (yields_whenAt (yields_commaList yields_tagEntry) rfl).bind fun _ =>
      (yields_mark _).bind fun _ => yields_pure (by simp [List.map_eq_flatMap])

/-- The number of buckets is an element when there is one. -/
theorem yields_bucketCount :
    Yields [] (whenAt (·.kind == .keyword .into) bucketCount none) fun count =>
      count.toList.map .name := by
  refine yields_whenAt_next (fun t h => ?_) ?_ rfl
  · rw [beq_iff_eq.1 h]
    exact nofun
  · exact (yields_text _).bind fun _ => (yields_keyword _).bind fun _ => yields_pure rfl

theorem yields_bucketing : Yields [] bucketing Clause.elements :=
  (yields_whenAt (yields_commaList (yields_path _)) rfl).bind fun _ =>
    yields_bucketCount.bind fun _ => yields_pure (by simp [Clause.elements, List.map_eq_flatMap])

theorem yields_emptyCall : YieldsNothing emptyCall := by
  intro c call c' ho h
  rw [emptyCall] at h
  split at h
  · rename_i parens
    obtain ⟨atOpen, closes⟩ := Bool.and_eq_true_iff.1 parens
    cases h
    have first := Cursor.passes_advance ho (by simp [beq_iff_eq.1 atOpen])
    have atClose : c.advance.here.kind = .mark .closeParen := by
      obtain ⟨here, ahead, passed⟩ := c
      cases ahead with
      | nil => cases beq_iff_eq.1 closes
      | cons t ts => exact beq_iff_eq.1 closes
    have second := Cursor.passes_advance first.orderly (by simp [atClose])
    exact ⟨_, [], first.trans second, .nil, rfl⟩
  · cases h
    exact ⟨[], [], Cursor.passes_nil ho, .nil, rfl⟩

/-- Behind its keyword a clause yields its elements, one case for each keyword. -/
theorem yields_ofKeyword (first : Token) (k : Keyword) :
    Yields [] (clauseBody.ofKeyword first k) Clause.elements := by
  unfold clauseBody.ofKeyword
  split
  -- one case for each keyword, in the order of the reader
  · exact yields_pure rfl
  · exact (yields_value _).bind fun _ => yields_pure rfl
  · exact (yields_commaList (yields_column _)).bind fun _ =>
      yields_pure (by simp [Clause.elements, List.map_eq_flatMap])
  · exact (yields_commaList (yields_column _)).bind fun _ =>
      yields_pure (by simp [Clause.elements, List.map_eq_flatMap])
  · exact (yields_commaList (yields_path _)).bind fun _ =>
      yields_pure (by simp [Clause.elements, List.map_eq_flatMap])
  · exact yields_bucketing
  · exact yields_bucketing
  · exact (yields_value _).bind fun _ => (yields_whenAt yields_assignments rfl).bind fun _ =>
      yields_pure rfl
  · exact (yields_skip _).bind fun _ => (yields_path _).bind fun _ =>
      yields_emptyCall.bind fun _ => yields_pure rfl
  · exact yields_tagEntries.bind fun _ => yields_pure rfl
  · exact yields_tagEntries.bind fun _ => yields_pure rfl
  · exact (yields_skip _).bind fun _ => (yields_mark _).bind fun _ =>
      (yields_commaList (yields_text _)).bind fun _ => (yields_mark _).bind fun _ =>
        yields_pure (by simp [Clause.elements, List.map_eq_flatMap])
  · exact (yields_skip _).bind fun _ => yields_assignments.bind fun _ => yields_pure rfl
  · exact yields_refuse _ _ _

/-- The span of a clause is drawn from its keyword, which is passed first. -/
theorem yields_clause : Yields [] clause fun c => [.clause c] := by
  refine yields_one fun c a c' ho h => ?_
  obtain ⟨k, behind, ⟨t, hk, htokens⟩, known⟩ := (clause_sound ho h).1.2.exists_known
  obtain ⟨rfl, -⟩ : c.here = t ∧ c.ahead = behind := List.cons.inj htokens
  rw [clause, next_bind] at h
  obtain ⟨body, c₁, h₁, h⟩ := bind_eq_ok.1 h
  cases h
  have first := Cursor.passes_advance ho (by simp [hk])
  simp only [clauseBody, hk] at h₁
  obtain ⟨ts, es, passes, inTurn, own⟩ := yields_ofKeyword _ k first.orderly h₁
  have whole := first.trans passes
  have covers := whole.covers ho (List.cons_ne_nil _ _)
  refine ⟨_, whole, .clause hk ?_ ?_ covers⟩
  · exact known.trans body.keyword_bare
  · rw [List.nil_append] at own
    exact own ▸ inTurn

/-- Clauses stand in turn in the tokens that are passed. The induction is on the tokens ahead. -/
theorem passes_clauses (c : Cursor) : ∀ as c', Orderly c.tokens →
    clauses c = some (.ok (as, c')) →
    ∃ ts, c.Passes ts c' ∧ InTurn Element.Stands (as.map .clause) ts := by
  fun_induction clauses c with
  | case1 c stop =>
    rintro _ _ ho ⟨⟩
    exact ⟨[], Cursor.passes_nil ho, .nil⟩
  | case2 c stop e he => rintro _ _ _ ⟨⟩
  | case3 c stop a c₁ h₁ shorter ih =>
    intro as c' ho h
    obtain ⟨r, hr, h⟩ := Option.map_eq_some_iff.1 h
    obtain ⟨⟨as', c₂⟩, rfl, h⟩ := ConnectorQuery.map_eq_ok.1 h
    cases h
    obtain ⟨ts, _, passes, inTurn, rfl⟩ := yields_clause ho h₁
    obtain ⟨us, passes', inTurn'⟩ := ih _ _ passes.orderly hr
    exact ⟨_, passes.trans passes', inTurn.append inTurn'⟩
  | case4 c stop a c₁ h₁ stuck => rintro _ _ _ ⟨⟩

/-! ## Statements -/

/-- The verb is the token at hand, and its span is that of the token. -/
theorem passes_intoTarget {mode : WriteMode} {c c' : Cursor}
    {into : Option (Located WriteMode) × Option (Located String)} (ho : Orderly c.tokens)
    (hk : c.here.kind ≠ .endOfText) (h : verbAndTarget.intoTarget mode c = .ok (into, c')) :
    ∃ ts, c.Passes ts c' ∧
      InTurn Element.Stands (into.1.toList.map .verb ++ into.2.toList.map .name) ts := by
  have verb := Cursor.passes_advance ho hk
  rw [verbAndTarget.intoTarget, next_bind] at h
  obtain ⟨_, c₁, h₁, h⟩ := bind_eq_ok.1 h
  obtain ⟨target, c₂, h₂, h⟩ := bind_eq_ok.1 h
  cases h
  obtain ⟨ts, -, passes, -, -⟩ := yields_keyword _ verb.orderly h₁
  obtain ⟨us, _, passes', inTurn, rfl⟩ := yields_name _ passes.orderly h₂
  have stands := InTurn.singleton (Element.Stands.verb mode c.here)
  exact ⟨_, verb.trans (passes.trans passes'), stands.append (inTurn.append_left ts)⟩

/-- The verb and the target come first, where a statement has them. -/
theorem yields_verbAndTarget : Yields [] verbAndTarget fun into =>
    into.1.toList.map .verb ++ into.2.toList.map .name := by
  intro c into c' ho h
  have verb {mode : WriteMode} (hk : c.here.kind ≠ .endOfText)
      (h : verbAndTarget.intoTarget mode c = .ok (into, c')) : ∃ ts behind, c.Passes ts c' ∧
        InTurn Element.Stands behind ts ∧
          into.1.toList.map .verb ++ into.2.toList.map .name = [] ++ behind := by
    obtain ⟨ts, passes, inTurn⟩ := passes_intoTarget ho hk h
    exact ⟨ts, _, passes, inTurn, rfl⟩
  rw [verbAndTarget, peek_bind] at h
  cases hk : c.here.kind with
  | keyword k =>
    have notEnd : c.here.kind ≠ .endOfText := by simp [hk]
    simp only [hk] at h
    cases k with
    | insert | upsert | update => exact verb notEnd h
    | select =>
      cases h
      exact ⟨[], [], Cursor.passes_nil ho, .nil, rfl⟩
    | _ => exact absurd h refuse_ne_ok
  | _ =>
    simp only [hk] at h
    exact absurd h refuse_ne_ok

/-- A statement without clauses yields its front. -/
theorem yields_opening : Yields [] opening Statement.front :=
  yields_peek.bind fun _ => yields_verbAndTarget.bind fun _ => (yields_keyword _).bind fun _ =>
    (yields_commaList (yields_column _)).bind fun _ => (yields_keyword _).bind fun _ =>
      (yields_name _).bind fun _ =>
        yields_pure (by simp [Statement.front, List.map_eq_flatMap])

/-- The span of a statement is still that of its first token when its clauses are read. -/
theorem span_of_opening {c c' : Cursor} {st : Statement} (h : opening c = .ok (st, c')) :
    st.span = c.here.span := by
  rw [opening, peek_bind] at h
  obtain ⟨into, c₁, -, h⟩ := bind_eq_ok.1 h
  obtain ⟨_, c₂, -, h⟩ := bind_eq_ok.1 h
  obtain ⟨columns, c₃, -, h⟩ := bind_eq_ok.1 h
  obtain ⟨_, c₄, -, h⟩ := bind_eq_ok.1 h
  obtain ⟨source, c₅, -, h⟩ := bind_eq_ok.1 h
  cases h
  rfl

/-- The end of a statement passes all tokens but the last, and its span is the one from
    the start it was given. -/
theorem passes_ending {start span : Span} {c c' : Cursor} (ho : Orderly c.tokens)
    (h : ending start c = .ok (span, c')) : ∃ ts, c.Passes ts c' ∧ c'.tokens = [c'.here] ∧
      span = ⟨start.start, max c'.passed start.start⟩ := by
  obtain ⟨_, c₁, h₁, h⟩ := bind_eq_ok.1 h
  rw [peek_bind, ite_apply] at h
  split at h
  · rename_i atEnd
    obtain ⟨ts, -, passes, -, -⟩ := yields_skip _ ho h₁
    have last : c₁.ahead = [] := passes.orderly.eq_nil (beq_iff_eq.1 atEnd)
    cases h
    exact ⟨ts, passes, by rw [Cursor.tokens, last], rfl⟩
  · exact absurd h refuse_ne_ok

end Parser

open ConnectorQuery.Parser

namespace Statement

/-- A statement covers all tokens but the end of the text, and its elements stand there one
    behind the other. -/
theorem stands_of_ofTokens? {width : Nat} {tokens : List Token} {st : Statement}
    (ho : Orderly tokens) (h : ofTokens? width tokens = some (.ok st)) :
    ∃ ts stop, tokens = ts ++ [stop] ∧ st.span.Covers ts ∧
      InTurn Element.Stands st.elements ts := by
  have whole := Cursor.tokens_ofTokens ho width
  rw [ofTokens?] at h
  split at h
  · cases h
  rename_i opened c hopened
  obtain ⟨r, hr, hrest⟩ := Option.map_eq_some_iff.1 h
  obtain ⟨⟨clauses, c₁⟩, rfl, hend⟩ := except_bind_eq_ok.1 hrest
  obtain ⟨⟨span, c₂⟩, hspan, hst⟩ := except_bind_eq_ok.1 hend
  cases hst
  have ho' : Orderly (Cursor.ofTokens width tokens).tokens := whole.symm ▸ ho
  obtain ⟨ts, front, passes, inTurn, rfl⟩ := yields_opening ho' hopened
  obtain ⟨us, passes', inTurn'⟩ := passes_clauses c clauses c₁ passes.orderly hr
  obtain ⟨vs, passes'', last, rfl⟩ := passes_ending passes'.orderly hspan
  have read := passes.trans (passes'.trans passes'')
  have standing := inTurn.append (inTurn'.append_right vs)
  -- a statement has a source at least, so it covers some tokens
  have notEmpty : ts ++ (us ++ vs) ≠ [] := by
    intro nothing
    have mem : Element.name opened.source ∈ opened.front ++ clauses.map .clause := by
      simp [front]
    obtain ⟨own, part, stands⟩ := standing.exists_of_mem mem
    rw [nothing] at part
    cases stands with
    | name spells => exact spells.ne_nil (List.infix_nil.1 part)
  refine ⟨ts ++ (us ++ vs), c₂.here, ?_, ?_, standing⟩
  · rw [← last, ← read.tokens, whole]
  · have covers := read.covers ho' notEmpty
    rwa [← span_of_opening hopened] at covers

end Statement

end ConnectorQuery
