import ConnectorQuery.Proofs.Outcome
import ConnectorQuery.Proofs.Text.Slice
import ConnectorQuery.Query.Parse

/-!
# Places in a statement

Every value that is read is kept with its span, and so is every complaint. These
spans are put together from those of the tokens: taken over, merged along a
name, or drawn from a first token to the last one that was passed.

A parser *keeps places* when the tokens of the text are all it needs: whatever
tokens are at hand and ahead, in whatever order, a complaint points at the text,
and so do all spans of an answer (`KeepsPlaces`). The property is closed under
sequencing, like that of going forward (`Parser.Forward`), so it holds of every
phrase of the grammar.

* `Spanned`: all spans in a value, down to its parts;
* `Statement.isPlaced_of_ofTokens?`: what is read of tokens of a text has its
  places in the text.
-/

namespace ConnectorQuery

/-! ## The spans in a value -/

/-- A value that may hold places. -/
class Spanned (α : Type) where
  /-- Every span in the value. -/
  spans : α → List Span

open Spanned (spans)

section

variable {α β : Type} [Spanned α] [Spanned β]

instance : Spanned Unit := ⟨fun _ => []⟩

instance : Spanned Bool := ⟨fun _ => []⟩

instance : Spanned String := ⟨fun _ => []⟩

instance : Spanned WriteMode := ⟨fun _ => []⟩

instance : Spanned Span := ⟨fun s => [s]⟩

instance : Spanned Token := ⟨fun t => [t.span]⟩

instance : Spanned (List α) := ⟨fun as => as.flatMap spans⟩

instance : Spanned (Option α) := ⟨fun a => a.toList.flatMap spans⟩

instance : Spanned (α × β) := ⟨fun p => spans p.1 ++ spans p.2⟩

instance : Spanned (Located α) := ⟨fun x => x.span :: spans x.val⟩

instance : Spanned Column := ⟨fun c => [c.span]⟩

instance : Spanned FieldPath := ⟨fun p => spans p.name⟩

instance : Spanned TagEntry := ⟨fun e => e.span :: spans (e.key, e.marker, e.value)⟩

instance : Spanned Assignment := ⟨fun a => spans (a.name, a.value)⟩

instance : Spanned Clause where
  spans
    | .flag _ => []
    | .setting _ value => spans value
    | .primaryKey columns => spans columns
    | .ignore columns => spans columns
    | .partitionBy names => spans names
    | .bucketing names count => spans (names, count)
    | .storeAs type parameters => spans (type, parameters)
    | .timestamp value _ => spans value
    | .tags entries => spans entries
    | .withKeys keys => spans keys
    | .properties entries => spans entries

instance : Spanned Statement where
  spans st := st.span :: spans (st.verb, st.target, st.columns, st.source, st.clauses)

/-- Every span in the value is placed in the text. -/
def Placed (text : String) (a : α) : Prop :=
  ∀ s ∈ spans a, s.IsPlaced text

variable {text : String}

@[simp] theorem placed_span {s : Span} : Placed text s ↔ s.IsPlaced text := by
  simp [Placed, spans]

@[simp] theorem placed_token {t : Token} : Placed text t ↔ t.span.IsPlaced text := by
  simp [Placed, spans]

@[simp] theorem placed_unit (u : Unit) : Placed text u := nofun

@[simp] theorem placed_bool (b : Bool) : Placed text b := nofun

@[simp] theorem placed_string (s : String) : Placed text s := nofun

@[simp] theorem placed_writeMode (m : WriteMode) : Placed text m := nofun

/-- Of a list every item is placed. -/
@[simp] theorem placed_list {as : List α} : Placed text as ↔ ∀ a ∈ as, Placed text a := by
  simp only [Placed, spans, List.mem_flatMap]
  exact ⟨fun h a ha s hs => h s ⟨a, ha, hs⟩, fun h s ⟨a, ha, hs⟩ => h a ha s hs⟩

theorem placed_nil : Placed text ([] : List α) := nofun

@[simp] theorem placed_none : Placed text (none : Option α) := nofun

@[simp] theorem placed_some {a : α} : Placed text (some a) ↔ Placed text a := by
  simp [Placed, spans]

/-- Of a pair both parts are placed. -/
@[simp] theorem placed_prod {p : α × β} : Placed text p ↔ Placed text p.1 ∧ Placed text p.2 := by
  simp only [Placed, spans, List.forall_mem_append]

/-- What is located is placed with its location. -/
@[simp] theorem placed_located {x : Located α} :
    Placed text x ↔ x.span.IsPlaced text ∧ Placed text x.val := by
  simp only [Placed, spans, List.forall_mem_cons]

/-- A column has one span for all of its segments. -/
@[simp] theorem placed_column {c : Column} : Placed text c ↔ c.span.IsPlaced text := by
  simp [Placed, spans]

@[simp] theorem placed_fieldPath {p : FieldPath} :
    Placed text p ↔ p.name.span.IsPlaced text := by
  simp [Placed, spans]

/-- A tag is placed with its parts. -/
@[simp] theorem placed_tagEntry {e : TagEntry} : Placed text e ↔ e.span.IsPlaced text ∧
    Placed text e.key ∧ Placed text e.marker ∧ Placed text e.value := by
  simp only [Placed, spans, List.forall_mem_cons, List.forall_mem_append]

@[simp] theorem placed_assignment {a : Assignment} :
    Placed text a ↔ Placed text a.name ∧ Placed text a.value := by
  simp only [Placed, spans, List.forall_mem_append]

/-- A statement is placed with its parts, one by one. -/
@[simp] theorem placed_statement {st : Statement} : Placed text st ↔ st.span.IsPlaced text ∧
    Placed text st.verb ∧ Placed text st.target ∧ Placed text st.columns ∧
    Placed text st.source ∧ Placed text st.clauses := by
  simp only [Placed, spans, List.forall_mem_cons, List.forall_mem_append]

end

/-! ## Parsers that keep places -/

theorem Text.IsPlace.max {m n : Nat} {text : String} (hm : IsPlace text m) (hn : IsPlace text n) :
    IsPlace text (max m n) := by
  rw [Nat.max_def]
  split <;> assumption

theorem Text.IsPlace.min {m n : Nat} {text : String} (hm : IsPlace text m) (hn : IsPlace text n) :
    IsPlace text (min m n) := by
  rw [Nat.min_def]
  split <;> assumption

/-- The span around two placed spans is placed. -/
theorem Span.IsPlaced.merge {s t : Span} {text : String} (hs : s.IsPlaced text)
    (ht : t.IsPlaced text) : (s.merge t).IsPlaced text := by
  obtain ⟨ordered, start, stop⟩ := hs
  obtain ⟨-, start', stop'⟩ := ht
  refine ⟨?_, start.min start', stop.max stop'⟩
  exact Nat.le_trans (Nat.min_le_left _ _) (Nat.le_trans ordered (Nat.le_max_left _ _))

/-- The tokens from the cursor on and the last one that was passed have their
    places in the text. -/
structure Cursor.IsPlaced (text : String) (c : Cursor) : Prop where
  tokens : ∀ t ∈ c.tokens, t.span.IsPlaced text
  passed : Text.IsPlace text c.passed

namespace Cursor

variable {text : String} {c : Cursor}

theorem IsPlaced.here (h : c.IsPlaced text) : c.here.span.IsPlaced text :=
  h.tokens _ List.mem_cons_self

/-- Behind a token the others are where they were. -/
theorem IsPlaced.advance (h : c.IsPlaced text) : c.advance.IsPlaced text := by
  refine ⟨fun t ht => h.tokens t (c.advance_tokens_suffix.mem ht), ?_⟩
  rw [Cursor.advance]
  cases c.ahead with
  | nil => exact h.passed
  | cons t ts => exact h.here.2.2

/-- Reading begins at a placed cursor, if all tokens are placed. -/
theorem isPlaced_ofTokens {tokens : List Token} (h : ∀ t ∈ tokens, t.span.IsPlaced text) :
    (ofTokens (Text.width text.toList) tokens).IsPlaced text := by
  cases tokens with
  | nil =>
    have stop := Text.isPlace_width text
    exact ⟨List.forall_mem_singleton.2 ⟨Nat.le_refl _, stop, stop⟩, Text.isPlace_zero text⟩
  | cons t ts => exact ⟨h, Text.isPlace_zero text⟩

end Cursor

namespace Parser

variable {α β : Type} [Spanned α] [Spanned β] {text : String}

/-- Where the tokens have their places in the text, so does what the parser
    answers or complains about. -/
def KeepsPlaces (text : String) (p : Parser α) : Prop :=
  ∀ c, c.IsPlaced text → (∀ e, p c = .error e → e.span.IsPlaced text) ∧
    ∀ a c', p c = .ok (a, c') → Placed text a ∧ c'.IsPlaced text

/-- An answer without reading has to be placed by itself. -/
theorem keepsPlaces_pure {a : α} (h : Placed text a) : KeepsPlaces text (pure a) := by
  refine fun c hc => ⟨nofun, ?_⟩
  rintro a' c' ⟨⟩
  exact ⟨h, hc⟩

/-- Parsers in a row keep places, if the second one does behind each placed answer of the
    first one. -/
theorem KeepsPlaces.bind {p : Parser α} {f : α → Parser β} (hp : KeepsPlaces text p)
    (hf : ∀ a, Placed text a → KeepsPlaces text (f a)) : KeepsPlaces text (p >>= f) := by
  intro c hc
  obtain ⟨refused, answered⟩ := hp c hc
  constructor
  · intro e h
    obtain he | ⟨⟨a, c'⟩, ha, he⟩ := except_bind_eq_error.1 h
    · exact refused e he
    · obtain ⟨placed, hc'⟩ := answered a c' ha
      exact (hf a placed c' hc').1 e he
  · intro b c'' h
    obtain ⟨⟨a, c'⟩, ha, hb⟩ := except_bind_eq_ok.1 h
    obtain ⟨placed, hc'⟩ := answered a c' ha
    exact (hf a placed c' hc').2 b c'' hb

/-- An answer in another form has to be placed still. -/
theorem KeepsPlaces.map {p : Parser α} (hp : KeepsPlaces text p) {f : α → β}
    (hf : ∀ a, Placed text a → Placed text (f a)) : KeepsPlaces text (f <$> p) :=
  hp.bind fun a ha => keepsPlaces_pure (hf a ha)

/-- An answer that does not move the cursor. -/
theorem keepsPlaces_look {f : Cursor → α} (h : ∀ c, c.IsPlaced text → Placed text (f c)) :
    KeepsPlaces text (fun c => .ok (f c, c) : Parser α) := by
  refine fun c hc => ⟨nofun, ?_⟩
  rintro a c' ⟨⟩
  exact ⟨h c hc, hc⟩

theorem keepsPlaces_peek : KeepsPlaces text peek :=
  keepsPlaces_look fun _ hc => placed_token.2 hc.here

/-- To take a token keeps places, the end being passed over to itself. -/
theorem keepsPlaces_next : KeepsPlaces text next := by
  refine fun c hc => ⟨nofun, ?_⟩
  rintro a c' ⟨⟩
  exact ⟨placed_token.2 hc.here, hc.advance⟩

theorem keepsPlaces_discard_next : KeepsPlaces text (discard next) :=
  keepsPlaces_next.map fun _ _ => placed_unit _

/-- A refusal points at the token that was found. -/
theorem keepsPlaces_refuse (expected : String) {found : Token} (h : found.span.IsPlaced text) :
    KeepsPlaces text (refuse expected found : Parser α) := by
  refine fun c hc => ⟨?_, nofun⟩
  rintro e ⟨⟩
  rwa [GrammarError.span_unexpected]

/-- A choice keeps places if both branches do. -/
theorem keepsPlaces_ite {b : Bool} {p q : Parser α} (hp : KeepsPlaces text p)
    (hq : KeepsPlaces text q) : KeepsPlaces text (if b then p else q) := by
  cases b <;> assumption

/-- A phrase that may be missing keeps places if it does where it stands. -/
theorem keepsPlaces_whenAt {wanted : Token → Bool} {p : Parser α} (hp : KeepsPlaces text p)
    {otherwise : α} (h : Placed text otherwise) :
    KeepsPlaces text (whenAt wanted p otherwise) := by
  intro c hc
  unfold whenAt
  split
  · exact hp c hc
  · exact keepsPlaces_pure h c hc

theorem keepsPlaces_expect (k : TokenKind) : KeepsPlaces text (expect k) :=
  keepsPlaces_peek.bind fun _ ht =>
    keepsPlaces_ite keepsPlaces_discard_next (keepsPlaces_refuse _ (placed_token.1 ht))

theorem keepsPlaces_skip (k : TokenKind) : KeepsPlaces text (skip k) :=
  keepsPlaces_whenAt keepsPlaces_discard_next (placed_unit _)

theorem keepsPlaces_spanFrom {start : Span} (h : start.IsPlaced text) :
    KeepsPlaces text (spanFrom start) :=
  keepsPlaces_look fun _ hc => placed_span.2
    ⟨Nat.le_max_right _ _, h.2.1, hc.passed.max h.2.1⟩

/-- Further items of a list keep places if each item does, by induction over the tokens ahead. -/
theorem keepsPlaces_moreItems {item : Parser α} (hitem : KeepsPlaces text item) :
    KeepsPlaces text (moreItems item) := by
  intro c
  fun_induction moreItems item c with
  | case1 c atComma e he =>
    refine fun hc => ⟨?_, by rintro _ _ ⟨⟩⟩
    rintro _ ⟨⟩
    exact (hitem _ hc.advance).1 e he
  | case2 c atComma a c₁ h₁ shorter e he ih =>
    refine fun hc => ⟨?_, by rintro _ _ ⟨⟩⟩
    rintro _ ⟨⟩
    exact (ih ((hitem _ hc.advance).2 a c₁ h₁).2).1 e he
  | case3 c atComma a c₁ h₁ shorter as c₂ h₂ ih =>
    refine fun hc => ⟨by rintro _ ⟨⟩, ?_⟩
    rintro _ _ ⟨⟩
    obtain ⟨ha, hc₁⟩ := (hitem _ hc.advance).2 a c₁ h₁
    obtain ⟨has, hc₂⟩ := (ih hc₁).2 as c₂ h₂
    exact ⟨placed_list.2 (List.forall_mem_cons.2 ⟨ha, placed_list.1 has⟩), hc₂⟩
  | case4 c atComma a c₁ h₁ =>
    refine fun hc => ⟨by rintro _ ⟨⟩, ?_⟩
    rintro _ _ ⟨⟩
    obtain ⟨ha, hc₁⟩ := (hitem _ hc.advance).2 a c₁ h₁
    exact ⟨placed_list.2 (List.forall_mem_singleton.2 ha), hc₁⟩
  | case5 c =>
    refine fun hc => ⟨by rintro _ ⟨⟩, ?_⟩
    rintro _ _ ⟨⟩
    exact ⟨placed_nil, hc⟩

theorem keepsPlaces_commaList {item : Parser α} (hitem : KeepsPlaces text item) :
    KeepsPlaces text (commaList item) :=
  hitem.bind fun _ ha => (keepsPlaces_moreItems hitem).bind fun _ has =>
    keepsPlaces_pure (placed_list.2 (List.forall_mem_cons.2 ⟨ha, placed_list.1 has⟩))

/-! ### Names and values -/

/-- A name joined with a token has its span around both. -/
theorem placed_join {p : FieldPath} {t : Token} (hp : Placed text p)
    (ht : t.span.IsPlaced text) : Placed text (join p t) :=
  placed_fieldPath.2 ((placed_fieldPath.1 hp).merge ht)

/-- A name and what sticks to it are placed, and so is what is left ahead. -/
theorem placed_joinAll {p : FieldPath} {here : Token} {passed : Nat} {ahead : List Token}
    (hp : Placed text p) (h : Cursor.IsPlaced text ⟨here, ahead, passed⟩) :
    Placed text (joinAll p here passed ahead).1 ∧
      (joinAll p here passed ahead).2.IsPlaced text := by
  induction ahead generalizing p here passed with
  | nil =>
    unfold joinAll
    split
    · exact ⟨placed_join hp h.here, h⟩
    · exact ⟨hp, h⟩
  | cons t ts ih =>
    unfold joinAll
    split
    · exact ih (placed_join hp h.here) h.advance
    · exact ⟨hp, h⟩

theorem keepsPlaces_joinRest {p : FieldPath} (hp : Placed text p) :
    KeepsPlaces text (joinRest p) := by
  refine fun c hc => ⟨nofun, fun q c' h => ?_⟩
  have ends := placed_joinAll hp hc
  rwa [Except.ok.inj h] at ends

/-- A name keeps places; it is at least one token. -/
theorem keepsPlaces_path (expected : String) : KeepsPlaces text (path expected) :=
  keepsPlaces_peek.bind fun _ ht => keepsPlaces_ite
    (keepsPlaces_discard_next.bind fun _ _ =>
      keepsPlaces_joinRest (placed_fieldPath.2 (placed_token.1 ht)))
    (keepsPlaces_refuse _ (placed_token.1 ht))

theorem keepsPlaces_text (expected : String) : KeepsPlaces text (Parser.text expected) :=
  (keepsPlaces_path expected).bind fun _ hp => keepsPlaces_pure hp

theorem keepsPlaces_name (expected : String) : KeepsPlaces text (name expected) :=
  (keepsPlaces_path expected).bind fun _ hp => keepsPlaces_peek.bind fun _ ht =>
    keepsPlaces_ite (keepsPlaces_refuse _ (placed_token.1 ht)) (keepsPlaces_pure hp)

theorem keepsPlaces_value (expected : String) : KeepsPlaces text (value expected) :=
  (keepsPlaces_skip _).bind fun _ _ => keepsPlaces_text expected

theorem keepsPlaces_assignment : KeepsPlaces text assignment :=
  (keepsPlaces_text _).bind fun _ hn => (keepsPlaces_expect _).bind fun _ _ =>
    (keepsPlaces_text _).bind fun _ hv => keepsPlaces_pure (placed_assignment.2 ⟨hn, hv⟩)

theorem keepsPlaces_assignments : KeepsPlaces text assignments :=
  (keepsPlaces_expect _).bind fun _ _ => (keepsPlaces_commaList keepsPlaces_assignment).bind
    fun _ has => (keepsPlaces_expect _).bind fun _ _ => keepsPlaces_pure has

/-! ### Columns -/

/-- Behind the segments of a column the cursor is placed. -/
theorem isPlaced_moreSegments (c : Cursor) (hc : c.IsPlaced text) :
    (moreSegments c).2.IsPlaced text := by
  fun_induction moreSegments c with
  | case1 c atDot behind atStar => exact hc.advance.advance
  | case2 c atDot behind _ continues segments dangling c' h ih =>
    rw [h] at ih
    exact ih hc.advance.advance
  | case3 c atDot behind => exact hc.advance
  | case4 c => exact hc

theorem keepsPlaces_segments : KeepsPlaces text segments := by
  refine fun c hc => ⟨nofun, fun r c' h => ⟨?_, ?_⟩⟩
  · simp
  · have ends := isPlaced_moreSegments c hc
    rwa [Except.ok.inj h] at ends

theorem keepsPlaces_rename : KeepsPlaces text rename :=
  keepsPlaces_discard_next.bind fun _ _ => (keepsPlaces_text _).bind fun _ _ =>
    keepsPlaces_pure (by simp)

/-- A column spans from its first token to the last one that was taken. -/
theorem keepsPlaces_column (mayRename : Bool) : KeepsPlaces text (column mayRename) := by
  refine keepsPlaces_peek.bind fun first hfirst => ?_
  have hfirst := placed_token.1 hfirst
  refine keepsPlaces_ite ?_ (keepsPlaces_ite ?_ (keepsPlaces_refuse _ hfirst))
  · exact keepsPlaces_discard_next.bind fun _ _ => keepsPlaces_pure (placed_column.2 hfirst)
  · exact keepsPlaces_discard_next.bind fun _ _ => keepsPlaces_segments.bind fun _ _ =>
      (keepsPlaces_whenAt keepsPlaces_rename placed_none).bind fun _ _ =>
        (keepsPlaces_spanFrom hfirst).bind fun _ hs =>
          keepsPlaces_pure (placed_column.2 (placed_span.1 hs))

/-! ### Clauses -/

theorem keepsPlaces_bucketCount : KeepsPlaces text bucketCount :=
  keepsPlaces_discard_next.bind fun _ _ => (keepsPlaces_text _).bind fun _ hc =>
    (keepsPlaces_expect _).bind fun _ _ => keepsPlaces_pure (placed_some.2 hc)

theorem keepsPlaces_bucketing : KeepsPlaces text bucketing :=
  (keepsPlaces_whenAt (keepsPlaces_commaList (keepsPlaces_path _)) placed_nil).bind
    fun _ hns => (keepsPlaces_whenAt keepsPlaces_bucketCount placed_none).bind fun _ hc =>
      keepsPlaces_pure (placed_prod.2 ⟨hns, hc⟩ : Placed text (_, _))

theorem keepsPlaces_emptyCall : KeepsPlaces text emptyCall := by
  intro c hc
  unfold emptyCall
  split
  · exact keepsPlaces_pure (placed_bool _) _ hc.advance.advance
  · exact keepsPlaces_pure (placed_bool _) _ hc

theorem keepsPlaces_marker : KeepsPlaces text marker :=
  keepsPlaces_next.bind fun _ ht =>
    keepsPlaces_pure (placed_located.2 ⟨placed_token.1 ht, placed_string _⟩)

theorem keepsPlaces_tagValue : KeepsPlaces text tagValue := by
  refine keepsPlaces_peek.bind fun t ht => keepsPlaces_ite (keepsPlaces_pure (by simp))
    (keepsPlaces_ite ?_ (keepsPlaces_ite ?_ (keepsPlaces_refuse _ (placed_token.1 ht))))
  · exact keepsPlaces_marker.bind fun _ hm => (keepsPlaces_text _).bind fun _ hv =>
      keepsPlaces_pure (placed_prod.2 ⟨placed_some.2 hm, placed_some.2 hv⟩)
  · exact keepsPlaces_marker.bind fun _ hm =>
      (keepsPlaces_whenAt ((keepsPlaces_text _).map fun _ => placed_some.2) placed_none).bind
        fun _ hv => keepsPlaces_pure (placed_prod.2 ⟨placed_some.2 hm, hv⟩)

theorem keepsPlaces_tagEntry : KeepsPlaces text tagEntry :=
  keepsPlaces_peek.bind fun _ ht => (keepsPlaces_text _).bind fun _ hk =>
    keepsPlaces_tagValue.bind fun _ hv => (keepsPlaces_spanFrom (placed_token.1 ht)).bind
      fun _ hs => keepsPlaces_pure (placed_tagEntry.2 ⟨placed_span.1 hs, hk, placed_prod.1 hv⟩)

theorem keepsPlaces_tagEntries : KeepsPlaces text tagEntries :=
  (keepsPlaces_expect _).bind fun _ _ =>
    (keepsPlaces_whenAt (keepsPlaces_commaList keepsPlaces_tagEntry) placed_nil).bind
      fun _ hes => (keepsPlaces_expect _).bind fun _ _ => keepsPlaces_pure hes

/-- Clause by clause, what stands behind a keyword keeps places. -/
theorem keepsPlaces_ofKeyword {first : Token} (hfirst : first.span.IsPlaced text) (k : Keyword) :
    KeepsPlaces text (clauseBody.ofKeyword first k) := by
  unfold clauseBody.ofKeyword
  split
  · exact keepsPlaces_pure nofun
  · exact (keepsPlaces_value _).bind fun _ hv => keepsPlaces_pure hv
  · exact (keepsPlaces_commaList (keepsPlaces_column _)).bind fun _ hcs => keepsPlaces_pure hcs
  · exact (keepsPlaces_commaList (keepsPlaces_column _)).bind fun _ hcs => keepsPlaces_pure hcs
  · exact (keepsPlaces_commaList (keepsPlaces_path _)).bind fun _ hns => keepsPlaces_pure hns
  · exact keepsPlaces_bucketing
  · exact keepsPlaces_bucketing
  · exact (keepsPlaces_value _).bind fun _ ht =>
      (keepsPlaces_whenAt keepsPlaces_assignments placed_nil).bind fun _ hps =>
        keepsPlaces_pure (placed_prod.2 ⟨ht, hps⟩ : Placed text (_, _))
  · exact (keepsPlaces_skip _).bind fun _ _ => (keepsPlaces_path _).bind fun _ hp =>
      keepsPlaces_emptyCall.bind fun _ _ => keepsPlaces_pure hp
  · exact keepsPlaces_tagEntries.bind fun _ hes => keepsPlaces_pure hes
  · exact keepsPlaces_tagEntries.bind fun _ hes => keepsPlaces_pure hes
  · exact (keepsPlaces_skip _).bind fun _ _ => (keepsPlaces_expect _).bind fun _ _ =>
      (keepsPlaces_commaList (keepsPlaces_text _)).bind fun _ hks =>
        (keepsPlaces_expect _).bind fun _ _ => keepsPlaces_pure hks
  · exact (keepsPlaces_skip _).bind fun _ _ => keepsPlaces_assignments.bind fun _ has =>
      keepsPlaces_pure has
  · exact keepsPlaces_refuse _ hfirst

theorem keepsPlaces_clauseBody {first : Token} (hfirst : first.span.IsPlaced text) :
    KeepsPlaces text (clauseBody first) := by
  unfold clauseBody
  split
  · exact keepsPlaces_ofKeyword hfirst _
  · exact keepsPlaces_refuse _ hfirst

/-- A clause spans from its keyword to its last token. -/
theorem keepsPlaces_clause : KeepsPlaces text clause :=
  keepsPlaces_next.bind fun _ ht => (keepsPlaces_clauseBody (placed_token.1 ht)).bind fun _ hb =>
    (keepsPlaces_spanFrom (placed_token.1 ht)).bind fun _ hs =>
      keepsPlaces_pure (placed_located.2 ⟨placed_span.1 hs, hb⟩)

/-- The clauses of a statement keep places, where they come to an end. -/
theorem isPlaced_clauses (c : Cursor) (hc : c.IsPlaced text) :
    (∀ e, clauses c = some (.error e) → e.span.IsPlaced text) ∧
      ∀ as c', clauses c = some (.ok (as, c')) → Placed text as ∧ c'.IsPlaced text := by
  fun_induction clauses c with
  | case1 c stop =>
    refine ⟨by rintro _ ⟨⟩, ?_⟩
    rintro _ _ ⟨⟩
    exact ⟨placed_nil, hc⟩
  | case2 c stop e he =>
    refine ⟨?_, by rintro _ _ ⟨⟩⟩
    rintro _ ⟨⟩
    exact (keepsPlaces_clause c hc).1 e he
  | case3 c stop a c' ha shorter ih =>
    obtain ⟨placed, hc'⟩ := (keepsPlaces_clause c hc).2 a c' ha
    obtain ⟨refused, answered⟩ := ih hc'
    -- a failure behind the first clause is one of the others, and so is an answer
    constructor
    · intro e h
      obtain ⟨r, hr, h⟩ := Option.map_eq_some_iff.1 h
      cases r with
      | error e' =>
        cases h
        exact refused e hr
      | ok r => cases h
    · intro as' c'' h
      obtain ⟨r, hr, h⟩ := Option.map_eq_some_iff.1 h
      cases r with
      | error e' => cases h
      | ok r =>
        cases h
        obtain ⟨others, hc''⟩ := answered _ _ hr
        exact ⟨placed_list.2 (List.forall_mem_cons.2 ⟨placed, placed_list.1 others⟩), hc''⟩
  | case4 c stop a c' ha stuck => exact ⟨by rintro _ ⟨⟩, by rintro _ _ ⟨⟩⟩

/-! ### Statements -/

theorem keepsPlaces_verbAndTarget : KeepsPlaces text verbAndTarget := by
  have into (mode : WriteMode) : KeepsPlaces text (verbAndTarget.intoTarget mode) :=
    keepsPlaces_next.bind fun _ ht => (keepsPlaces_expect _).bind fun _ _ =>
      (keepsPlaces_name _).bind fun _ hn => keepsPlaces_pure (placed_prod.2
        ⟨placed_some.2 (placed_located.2 ⟨placed_token.1 ht, placed_writeMode _⟩),
          placed_some.2 hn⟩)
  refine keepsPlaces_peek.bind fun first hfirst => ?_
  split
  · exact into _
  · exact into _
  · exact into _
  · exact keepsPlaces_pure (placed_prod.2 ⟨placed_none, placed_none⟩)
  · exact keepsPlaces_refuse _ (placed_token.1 hfirst)

/-- A statement up to its clauses keeps places. -/
theorem keepsPlaces_opening : KeepsPlaces text opening :=
  keepsPlaces_peek.bind fun _ ht => keepsPlaces_verbAndTarget.bind fun _ hv =>
    (keepsPlaces_expect _).bind fun _ _ => (keepsPlaces_commaList (keepsPlaces_column _)).bind
      fun _ hcs => (keepsPlaces_expect _).bind fun _ _ => (keepsPlaces_name _).bind fun _ hn =>
        keepsPlaces_pure (placed_statement.2 ⟨placed_token.1 ht, (placed_prod.1 hv).1,
          (placed_prod.1 hv).2, hcs, hn, placed_nil⟩)

/-- The whole statement spans from its first token to the last one before the end. -/
theorem keepsPlaces_ending {start : Span} (h : start.IsPlaced text) :
    KeepsPlaces text (ending start) :=
  (keepsPlaces_skip _).bind fun _ _ => keepsPlaces_peek.bind fun _ ht =>
    keepsPlaces_ite (keepsPlaces_spanFrom h) (keepsPlaces_refuse _ (placed_token.1 ht))

end Parser

namespace Statement

variable {text : String} {tokens : List Token}

/-- Whatever tokens of a text are read, a complaint has its place in the text. -/
theorem isPlaced_of_ofTokens?_error {e : GrammarError} (ht : ∀ t ∈ tokens, t.span.IsPlaced text)
    (h : ofTokens? (Text.width text.toList) tokens = some (.error e)) : e.span.IsPlaced text := by
  obtain ⟨refused, answered⟩ := Parser.keepsPlaces_opening _ (Cursor.isPlaced_ofTokens ht)
  rw [ofTokens?] at h
  split at h
  · rename_i e' he
    cases h
    exact refused e he
  rename_i opened c hopened
  obtain ⟨placed, hc⟩ := answered opened c hopened
  obtain ⟨refused, answered⟩ := Parser.isPlaced_clauses c hc
  -- the opening is passed, so the clauses are refused or the end is
  obtain ⟨r, hr, h⟩ := Option.map_eq_some_iff.1 h
  obtain he | ⟨⟨as, c'⟩, he, h⟩ := except_bind_eq_error.1 h
  · exact refused e (he ▸ hr)
  obtain ⟨-, hc'⟩ := answered as c' (he ▸ hr)
  obtain he | ⟨_, _, h⟩ := except_bind_eq_error.1 h
  · exact (Parser.keepsPlaces_ending (placed_statement.1 placed).1 c' hc').1 e he
  · cases h

/-- Whatever tokens of a text are read, all parts of the statement have their
    places in the text. -/
theorem placed_of_ofTokens? {st : Statement} (ht : ∀ t ∈ tokens, t.span.IsPlaced text)
    (h : ofTokens? (Text.width text.toList) tokens = some (.ok st)) : Placed text st := by
  obtain ⟨-, answered⟩ := Parser.keepsPlaces_opening _ (Cursor.isPlaced_ofTokens ht)
  rw [ofTokens?] at h
  split at h
  · cases h
  rename_i opened c hopened
  obtain ⟨placed, hc⟩ := answered opened c hopened
  obtain ⟨start, verb, target, columns, source, -⟩ := placed_statement.1 placed
  obtain ⟨r, hr, hrest⟩ := Option.map_eq_some_iff.1 h
  obtain ⟨⟨as, c'⟩, rfl, hend⟩ := except_bind_eq_ok.1 hrest
  obtain ⟨clauses, hc'⟩ := (Parser.isPlaced_clauses c hc).2 as c' hr
  obtain ⟨⟨span, c''⟩, hspan, hst⟩ := except_bind_eq_ok.1 hend
  cases hst
  obtain ⟨whole, -⟩ := (Parser.keepsPlaces_ending start c' hc').2 span c'' hspan
  exact placed_statement.2 ⟨placed_span.1 whole, verb, target, columns, source, clauses⟩

/-- Reading a text comes to an answer. -/
theorem exists_ofTokens? (text : String) :
    ∃ r, ofTokens? (Text.width text.toList) (Token.tokenize text) = some r ∧
      parse text = r.mapError (Failure.ofGrammar text) :=
  ⟨_, (Option.some_get (ofTokens?_tokenize_isSome text)).symm, rfl⟩

end Statement

end ConnectorQuery
