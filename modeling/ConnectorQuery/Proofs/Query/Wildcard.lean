import ConnectorQuery.Proofs.Query.Columns
import ConnectorQuery.Proofs.Statement.Nesting

/-!
# Wildcards

A query selects all fields if a column of its select list has `*` for its only segment.
Two things are written like this: a star, which is a token of its own, and a name in
quotes that consists of this character. The tokens tell them apart, but the segment does
not, so a quoted star selects all fields, too (`Query.selectsAll_quoted_star`).

* `Statement.exists_column_tokens`: the tokens of a column are those in its span;
* `Grammar.IsColumn.segments_eq_star_iff`: which tokens have `*` for their only segment;
* `Query.selectsAll_iff_star`: what is written where a query selects all fields.
-/

namespace ConnectorQuery

open Grammar

/-! ## Columns and their tokens -/

/-- The tokens of the text that lie in the span. -/
def Span.tokensOf (text : String) (s : Span) : List Token :=
  (Token.body text).filter fun t => t.span.Within s

/-- The tokens are a star alone. -/
def IsStar (ts : List Token) : Prop :=
  ∃ t, ts = [t] ∧ t.kind = .mark .star

/-- The tokens are a star in quotes, maybe with another name behind `AS`. -/
def IsQuotedStar (ts : List Token) : Prop :=
  ∃ t behind, ts = t :: behind ∧ (t.kind = .backtick ∨ t.kind = .quoted) ∧ t.value = "*" ∧
    ∀ u ∈ behind.head?, u.kind = .keyword .as

namespace Parser

variable {α : Type} {item : Parser α}

/-- Each item of a list is read somewhere on the way. -/
theorem exists_of_mem_moreItems (hitem : YieldsNothing item) (c : Cursor) : ∀ as c',
    Orderly c.tokens → moreItems item c = .ok (as, c') → ∀ a ∈ as,
      ∃ c₁ c₂, item c₁ = .ok (a, c₂) ∧ Orderly c₁.tokens ∧ c₁.tokens <:+ c.tokens := by
  fun_induction moreItems item c with
  | case1 c atComma e he => rintro _ _ _ ⟨⟩
  | case2 c atComma a c₁ h₁ shorter e he ih => rintro _ _ _ ⟨⟩
  | case3 c atComma a c₁ h₁ shorter as c₂ h₂ ih =>
    rintro _ c' ho ⟨⟩
    have comma := Cursor.passes_advance ho (by simp [atComma])
    obtain ⟨ts, -, passes, -, -⟩ := hitem comma.orderly h₁
    refine List.forall_mem_cons.2 ⟨⟨_, _, h₁, comma.orderly, _, comma.tokens.symm⟩, fun b hb => ?_⟩
    obtain ⟨c₃, c₄, read, orderly, behind⟩ := ih _ _ passes.orderly h₂ b hb
    have further := (comma.trans passes).tokens
    exact ⟨c₃, c₄, read, orderly, behind.trans ⟨_, further.symm⟩⟩
  -- an item that stays where it is ends the list
  | case4 c atComma a c₁ h₁ stuck =>
    rintro _ c' ho ⟨⟩
    have comma := Cursor.passes_advance ho (by simp [atComma])
    exact List.forall_mem_singleton.2 ⟨_, _, h₁, comma.orderly, _, comma.tokens.symm⟩
  | case5 c notAtComma =>
    rintro _ _ _ ⟨⟩
    exact List.forall_mem_nil _

theorem exists_of_mem_commaList (hitem : YieldsNothing item) {c c' : Cursor} {as : List α}
    (ho : Orderly c.tokens) (h : commaList item c = .ok (as, c')) : ∀ a ∈ as,
      ∃ c₁ c₂, item c₁ = .ok (a, c₂) ∧ Orderly c₁.tokens ∧ c₁.tokens <:+ c.tokens := by
  obtain ⟨a, c₁, h₁, h⟩ := bind_eq_ok.1 h
  obtain ⟨as, c₂, h₂, h⟩ := bind_eq_ok.1 h
  cases h
  obtain ⟨ts, -, passes, -, -⟩ := hitem ho h₁
  refine List.forall_mem_cons.2 ⟨⟨c, c₁, h₁, ho, List.suffix_refl _⟩, fun b hb => ?_⟩
  obtain ⟨c₃, c₄, read, orderly, behind⟩ :=
    exists_of_mem_moreItems hitem c₁ _ _ passes.orderly h₂ b hb
  exact ⟨c₃, c₄, read, orderly, behind.trans ⟨_, passes.tokens.symm⟩⟩

/-- Each column of a statement is read somewhere on the way. -/
theorem exists_of_mem_opening {c c' : Cursor} {st : Statement} (ho : Orderly c.tokens)
    (h : opening c = .ok (st, c')) : ∀ a ∈ st.columns,
      ∃ c₁ c₂, column true c₁ = .ok (a, c₂) ∧ Orderly c₁.tokens ∧ c₁.tokens <:+ c.tokens := by
  rw [opening, peek_bind] at h
  obtain ⟨into, c₁, h₁, h⟩ := bind_eq_ok.1 h
  obtain ⟨_, c₂, h₂, h⟩ := bind_eq_ok.1 h
  obtain ⟨columns, c₃, h₃, h⟩ := bind_eq_ok.1 h
  obtain ⟨_, c₄, -, h⟩ := bind_eq_ok.1 h
  obtain ⟨source, c₅, -, h⟩ := bind_eq_ok.1 h
  cases h
  obtain ⟨ts, -, passes, -, -⟩ := yields_verbAndTarget ho h₁
  obtain ⟨us, -, passes', -, -⟩ := yields_keyword _ passes.orderly h₂
  intro a ha
  obtain ⟨c₆, c₇, read, orderly, behind⟩ :=
    exists_of_mem_commaList (yields_column true).forget passes'.orderly h₃ a ha
  exact ⟨c₆, c₇, read, orderly, behind.trans ⟨_, (passes.trans passes').tokens.symm⟩⟩

end Parser

namespace Statement

variable {text : String} {st : Statement} {c : Column}

/-- Each column of a statement is read at some place of its text. -/
theorem exists_column_read (h : parse text = .ok st) (hc : c ∈ st.columns) :
    ∃ c₁ c₂, Parser.column true c₁ = .ok (c, c₂) ∧ Orderly c₁.tokens ∧
      c₁.tokens <:+ Token.tokenize text := by
  have ordered := Token.orderly_tokenize text
  obtain ⟨r, read, parsed⟩ := exists_ofTokens? text
  obtain rfl := mapError_eq_ok.1 (parsed.symm.trans h)
  rw [ofTokens?] at read
  split at read
  · cases read
  rename_i opened c₁ hopened
  obtain ⟨r, hr, hrest⟩ := Option.map_eq_some_iff.1 read
  obtain ⟨⟨clauses, c₂⟩, rfl, hend⟩ := except_bind_eq_ok.1 hrest
  obtain ⟨⟨span, c₃⟩, hspan, hst⟩ := except_bind_eq_ok.1 hend
  cases hst
  have whole := Cursor.tokens_ofTokens ordered (Text.width text.toList)
  rw [← whole] at ordered ⊢
  exact Parser.exists_of_mem_opening ordered hopened c hc

/-- The tokens of a column are those in its span, and they are what is read as the column. -/
theorem exists_column_tokens (h : parse text = .ok st) (hc : c ∈ st.columns) :
    c.span.tokensOf text ≠ [] ∧
      ∃ rest, IsColumn true (c.span.tokensOf text ++ rest) c.bare rest := by
  obtain ⟨c₁, c₂, read, ordered, behind⟩ := exists_column_read h hc
  obtain ⟨isColumn, -⟩ := Parser.column_sound true ordered read
  obtain ⟨own, passes, covers⟩ := Parser.passes_column ordered read
  rw [passes.tokens] at isColumn behind
  -- the end of the text stands behind the column
  have part : own <:+: Token.body text := by
    obtain ⟨front, whole⟩ := behind
    rw [Token.body, ← whole, ← List.append_assoc,
      List.dropLast_append_of_ne_nil passes.orderly.ne_nil]
    exact ⟨front, c₂.tokens.dropLast, rfl⟩
  have same : c.span.tokensOf text = own := covers.filter_eq (Token.apart_body text) part
  rw [same]
  refine ⟨?_, c₂.tokens, isColumn⟩
  obtain ⟨first, hfirst, -⟩ := covers
  rintro rfl
  exact absurd hfirst (Option.not_mem_none first)

end Statement

/-! ## Segments that are a star -/

namespace Grammar

variable {own ts rest : List Token} {c : Column}

/-- The segments behind the first one take up tokens from a dot on, if there are any. -/
theorem IsSegments.exists_tokens {r : List String × Bool} (h : IsSegments ts r rest) :
    ∃ passed, ts = passed ++ rest ∧ (passed = [] ↔ r = ([], false)) ∧
      ∀ u ∈ passed.head?, u.kind = .mark .dot := by
  induction h with
  | none => exact ⟨[], rfl, iff_of_true rfl rfl, nofun⟩
  | wildcard dot star =>
    obtain ⟨t, ht, rfl⟩ := dot
    obtain ⟨u, -, rfl⟩ := star
    exact ⟨[t, u], rfl, iff_of_false nofun nofun, fun _ h => Option.some.inj h ▸ ht⟩
  | @segment dot t ts rest segments dangling hdot _ _ ih =>
    obtain ⟨passed, rfl, -⟩ := ih
    exact ⟨dot :: t :: passed, rfl, iff_of_false nofun nofun, fun _ h => Option.some.inj h ▸ hdot⟩
  | @dangling dot rest hdot _ =>
    exact ⟨[dot], rfl, iff_of_false nofun nofun, fun _ h => Option.some.inj h ▸ hdot⟩

/-- The tokens of a column are a star, or a value with the tokens of further segments and
    those of another name behind it. -/
theorem IsColumn.exists_tokens (h : IsColumn true (own ++ rest) c rest) (notEmpty : own ≠ [])
    (complete : c.dangling = false) : (IsStar own ∧ c.segments = ["*"]) ∨
      ∃ first passed named segments, own = first :: (passed ++ named) ∧
        first.kind.isValue = true ∧ c.segments = first.value :: segments ∧
        (passed = [] ↔ segments = []) ∧ (∀ u ∈ passed.head?, u.kind = .mark .dot) ∧
        ∀ u ∈ named.head?, u.kind = .keyword .as := by
  obtain ⟨first, own, rfl⟩ := List.exists_cons_of_ne_nil notEmpty
  generalize whole : first :: own ++ rest = ts at h
  cases h with
  | wildcard star =>
    obtain ⟨t, ht, rfl⟩ := star
    obtain ⟨rfl, nothing⟩ := List.cons.inj whole
    obtain rfl : own = [] := List.append_left_eq_self.1 nothing
    exact .inl ⟨⟨first, rfl, ht⟩, rfl⟩
  | @plain _ _ _ segments dangling value further =>
    obtain ⟨rfl, others⟩ := List.cons.inj whole
    obtain ⟨passed, rfl, none, dot⟩ := further.exists_tokens
    obtain rfl : own = passed := List.append_cancel_right others
    obtain rfl : dangling = false := complete
    refine .inr ⟨first, own, [], segments, by rw [List.append_nil], value, rfl, ?_, dot, nofun⟩
    simpa using none
  -- behind the segments stand the keyword and the new name
  | @renamed _ _ _ _ _ segments dangling _ _ value further asKeyword isName =>
    obtain ⟨rfl, others⟩ := List.cons.inj whole
    obtain ⟨passed, rfl, none, dot⟩ := further.exists_tokens
    obtain ⟨t, ht, rfl⟩ := asKeyword
    obtain ⟨_, @⟨first', run, _, _, _⟩⟩ := isName
    obtain rfl : own = passed ++ t :: first' :: run :=
      List.append_cancel_right (others.trans (by simp))
    obtain rfl : dangling = false := complete
    refine .inr ⟨first, passed, _, segments, rfl, value, rfl, ?_, dot,
      fun _ h => Option.some.inj h ▸ ht⟩
    simpa using none

/-- A column has nothing but `*` for its segments where it is a star, or one in quotes. -/
theorem IsColumn.segments_eq_star_iff (h : IsColumn true (own ++ rest) c rest)
    (notEmpty : own ≠ []) (complete : c.dangling = false)
    (words : ∀ t ∈ own, t.kind = .word → t.value ≠ "*") :
    c.segments = ["*"] ↔ IsStar own ∨ IsQuotedStar own := by
  rcases h.exists_tokens notEmpty complete with ⟨star, segments⟩ | ⟨first, passed, named,
    segments, rfl, value, hc, none, dot, hnamed⟩
  · exact iff_of_true segments (.inl star)
  rw [hc, List.cons.injEq]
  constructor
  · rintro ⟨isStar, nothing⟩
    obtain rfl := none.2 nothing
    refine .inr ⟨first, _, rfl, ?_, isStar, hnamed⟩
    -- a value is a word or stands in quotes
    cases hk : first.kind with
    | word => exact absurd isStar (words first List.mem_cons_self hk)
    | backtick => exact .inl rfl
    | quoted => exact .inr rfl
    | _ => rw [hk] at value; exact nomatch value
  · rintro (⟨t, own, star⟩ | ⟨t, behind, own, -, isStar, hbehind⟩)
    · obtain ⟨rfl, -⟩ := List.cons.inj own
      rw [star] at value
      exact nomatch value
    · obtain ⟨rfl, rfl⟩ := List.cons.inj own
      refine ⟨isStar, none.1 ?_⟩
      -- further segments would begin with a dot
      cases passed with
      | nil => rfl
      | cons u passed => cases (dot u rfl).symm.trans (hbehind u rfl)

end Grammar

/-- No word is a star. -/
theorem Token.value_ne_star {text : String} {t : Token} (ht : t ∈ body text)
    (word : t.kind = .word) : t.value ≠ "*" := by
  intro isStar
  rw [body_eq_scan] at ht
  obtain ⟨front, behind, -, -, shape⟩ := standsIn_of_mem_scan [] rfl (apartFrom_nil _) t ht
  rw [value, word] at isStar
  rw [word, show t.text = "*" from isStar] at shape
  cases shape with
  | word isWord => exact isWord.inside '*' (by decide) (by decide)

/-! ## Queries that select all -/

section Fields

variable {f : Field} {cs : List Column} {fs : List Field} {rename : Option String}
  {segments : List String}

/-- A field of the value is a wildcard without parents where it is written as `*` alone. -/
theorem Field.WrittenAs.wildcard_iff (h : f.WrittenAs .value segments rename) :
    (f.isWildcard && !f.hasParents) = true ↔ segments = ["*"] := by
  obtain ⟨-, -, rfl, -⟩ := h
  cases hp : f.parents with
  | nil => simp [Field.isWildcard, Field.wildcard, Field.hasParents, FieldType.marker, hp]
  | cons p ps => simp [Field.hasParents, FieldType.marker, hp]

theorem Column.HaveFields.any_wildcard_iff (h : HaveFields .value cs fs) :
    fs.any (fun f => f.isWildcard && !f.hasParents) = true ↔ ∃ c ∈ cs, c.segments = ["*"] := by
  rw [HaveFields] at h
  induction h with
  | nil => simp
  | cons hf _ ih =>
    rw [List.any_cons, Bool.or_eq_true, hf.wildcard_iff, ih]
    simp

end Fields

namespace Query

variable {text : String} {st : Statement} {q : Query}

/-- The query of a statement selects its columns, whatever the clauses lay down. -/
theorem selected_of_ofStatement (h : ofStatement text st = .ok q) : q.Selected st.columns := by
  rw [ofStatement_eq] at h
  obtain ⟨selected, added, h⟩ := except_bind_eq_ok.1 h
  obtain ⟨distinct, fields⟩ := (selected_opened text st).foldlM_addColumn added
  refine ⟨distinct, fun part => ?_⟩
  rw [(applyClauses_eq_ok_iff.1 h).fieldsOf_eq]
  exact fields part

/-- A query selects all exactly if a column has nothing but `*` for its segments: such a
    column is never read from the key or the headers. -/
theorem Selected.selectsAll_iff (h : q.Selected st.columns) :
    q.selectsAll = true ↔ ∃ c ∈ st.columns, c.segments = ["*"] := by
  refine (h.fields .value).any_wildcard_iff.trans ?_
  refine exists_congr fun c => and_congr_left fun hc => ?_
  rw [List.mem_filter, hc]
  exact and_iff_left rfl

/-- A query selects all fields exactly if a column of its select list is a star, or a name in
    quotes that is a star. -/
theorem selectsAll_iff_star (h : parse text = .ok q) :
    ∃ st, Statement.parse text = .ok st ∧ (q.selectsAll = true ↔
      ∃ c ∈ st.columns, IsStar (c.span.tokensOf text) ∨ IsQuotedStar (c.span.tokensOf text)) := by
  obtain ⟨st, read, h⟩ := except_bind_eq_ok.1 h
  have selected := selected_of_ofStatement (mapError_eq_ok.1 h)
  refine ⟨st, read, selected.selectsAll_iff.trans ?_⟩
  refine exists_congr fun c => and_congr_right fun hc => ?_
  obtain ⟨notEmpty, rest, isColumn⟩ := Statement.exists_column_tokens read hc
  exact isColumn.segments_eq_star_iff notEmpty (selected.distinct.resolvable c hc).1
    fun t ht => Token.value_ne_star (List.mem_filter.1 ht).1

/-- A star behind one that is read from the key. -/
theorem selectsAll_iff_star_second :
    let text := "SELECT _key.*, * FROM s"
    ∃ q, parse text = .ok q ∧ q.selectsAll = true := by
  intro text
  obtain ⟨q, h⟩ := exists_of_isOk (x := parse text) (by decide +kernel)
  obtain ⟨st, read, iff⟩ := selectsAll_iff_star h
  have columns : (Statement.parse text).map (·.columns) =
      .ok [⟨["_key", "*"], false, none, ⟨7, 13⟩⟩, ⟨["*"], false, none, ⟨15, 16⟩⟩] := by
    decide +kernel
  rw [read] at columns
  have star : Span.tokensOf text ⟨15, 16⟩ = [⟨.mark .star, "*", ⟨15, 16⟩⟩] := by decide +kernel
  have second : ⟨["*"], false, none, ⟨15, 16⟩⟩ ∈ st.columns := by
    rw [show st.columns = _ from Except.ok.inj columns]
    exact List.mem_cons_of_mem _ List.mem_cons_self
  exact ⟨q, h, iff.2 ⟨_, second, .inl ⟨_, star, rfl⟩⟩⟩

/-- A name in quotes selects all fields, though there is no star in the text. -/
theorem selectsAll_quoted_star :
    let text := "SELECT `*` FROM s"
    (parse text).map (·.selectsAll) = .ok true ∧
      ∀ t ∈ Token.tokenize text, t.kind ≠ .mark .star := by
  decide +kernel

end Query

end ConnectorQuery
