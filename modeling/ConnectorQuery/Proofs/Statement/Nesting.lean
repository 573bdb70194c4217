import ConnectorQuery.Proofs.Statement.Elements
import ConnectorQuery.Proofs.Statement.Places
import ConnectorQuery.Proofs.Token.Lossless

/-!
# How the spans of a statement nest

The tokens of a text are not empty and stand one behind the other (`Token.Apart`), so the
spans of elements that stand among them in turn do, too, and lie in the span of all these
tokens (`Span.Covers.holds`). That is how the spans of a statement nest: those of its
elements in that of the statement, and those of the elements of a clause, behind the
keyword, in that of the clause.

The tokens of a name or value are all that lie in its span, and as there is no gap
between them, their texts are what is written there (`Text.slice?_of_covers`). So the
name differs from this only by quotes (`Joins.isReadFrom`).

* `InTurn.spans`: elements in turn have their spans in turn;
* `Statement.spans_nest`: the spans of a statement that is read from a text.
-/

namespace ConnectorQuery

open Spanned (spans)
open Token (stopOf stopOf_cons)

/-! ## Spans among tokens -/

/-- The tokens are not empty and stand one behind the other. -/
structure Token.Apart (ts : List Token) : Prop where
  wide : ∀ t ∈ ts, t.span.start < t.span.stop
  ordered : ts.Pairwise fun t u => t.span.stop ≤ u.span.start

open Token (Apart)

/-- Some of the tokens stand apart if all do. -/
theorem Token.Apart.sublist {ts us : List Token} (h : Apart ts) (sub : us.Sublist ts) :
    Apart us :=
  ⟨fun t ht => h.wide t (sub.mem ht), h.ordered.sublist sub⟩

/-- The tokens of a text stand apart. -/
theorem Token.apart_body (text : String) : Apart (body text) := by
  have ordered := (orderly_tokenize text).pairwise
  rw [tokenize, List.pairwise_append] at ordered
  rw [body_eq_scan]
  exact ⟨start_lt_stop_of_mem_scan, ordered.1.imp fun h => h.2.2⟩

/-- The span lies in the outer one. -/
def Span.Within (s outer : Span) : Prop :=
  outer.start ≤ s.start ∧ s.stop ≤ outer.stop

instance (s outer : Span) : Decidable (s.Within outer) :=
  inferInstanceAs (Decidable (_ ∧ _))

/-- The inner spans are not empty, lie in the outer one, and stand one behind the other. -/
structure Span.Holds (outer : Span) (inner : List Span) : Prop where
  wide : ∀ s ∈ inner, s.start < s.stop
  within : ∀ s ∈ inner, s.Within outer
  ordered : inner.Pairwise fun s t => s.stop ≤ t.start

namespace Span

variable {s s' outer : Span} {ts us : List Token} {ss : List Span}

theorem Within.trans (h : s.Within s') (h' : s'.Within outer) : s.Within outer :=
  ⟨Nat.le_trans h'.1 h.1, Nat.le_trans h.2 h'.2⟩

/-- One span covers given tokens at most. -/
theorem Covers.unique (h : s.Covers ts) (h' : s'.Covers ts) : s = s' := by
  obtain ⟨first, hfirst, last, hlast, rfl⟩ := h
  obtain ⟨first', hfirst', last', hlast', rfl⟩ := h'
  obtain rfl := Option.mem_unique hfirst hfirst'
  obtain rfl := Option.mem_unique hlast hlast'
  rfl

/-- A span starts where one of its tokens does. -/
theorem Covers.exists_first (h : s.Covers ts) : ∃ t ∈ ts, s.start = t.span.start := by
  obtain ⟨first, hfirst, -, -, rfl⟩ := h
  exact ⟨first, List.mem_of_mem_head? hfirst, rfl⟩

/-- A span stops where one of its tokens does. -/
theorem Covers.exists_last (h : s.Covers ts) : ∃ t ∈ ts, s.stop = t.span.stop := by
  obtain ⟨-, -, last, hlast, rfl⟩ := h
  exact ⟨last, List.mem_of_getLast? hlast, rfl⟩

theorem covers_singleton (t : Token) : t.span.Covers [t] :=
  covers_cons t []

/-- Two spans in a row cover the tokens of both. -/
theorem Covers.append (h : s.Covers ts) (h' : s'.Covers us) :
    Covers ⟨s.start, s'.stop⟩ (ts ++ us) := by
  obtain ⟨first, hfirst, -, -, rfl⟩ := h
  obtain ⟨-, -, last, hlast, rfl⟩ := h'
  refine ⟨first, ?_, last, ?_, rfl⟩
  · rw [Option.mem_def, List.head?_append, hfirst, Option.some_or]
  · rw [Option.mem_def, List.getLast?_append, hlast, Option.some_or]

/-- No token reaches out of the span of all of them. -/
theorem Covers.within_of_mem (h : s.Covers ts) (apart : Apart ts) {t : Token} (ht : t ∈ ts) :
    t.span.Within s := by
  obtain ⟨first, hfirst, last, hlast, rfl⟩ := h
  obtain ⟨others, rfl⟩ := List.head?_eq_some_iff.1 hfirst
  refine ⟨?_, ?_⟩
  · rcases List.mem_cons.1 ht with rfl | inOthers
    · exact Nat.le_refl _
    · have before := (List.pairwise_cons.1 apart.ordered).1 t inOthers
      exact Nat.le_trans (Nat.le_of_lt (apart.wide first List.mem_cons_self)) before
  · obtain ⟨front, whole⟩ := List.getLast?_eq_some_iff.1 hlast
    rw [whole] at ht apart
    rcases List.mem_append.1 ht with inFront | isLast
    · have before := (List.pairwise_append.1 apart.ordered).2.2 t inFront last (by simp)
      exact Nat.le_trans before (Nat.le_of_lt (apart.wide last (by simp)))
    · rw [List.mem_singleton.1 isLast]

/-- A span that covers tokens is not empty. -/
theorem Covers.wide (h : s.Covers ts) (apart : Apart ts) : s.start < s.stop := by
  obtain ⟨t, ht, start⟩ := h.exists_first
  obtain ⟨-, stop⟩ := h.within_of_mem apart ht
  exact start ▸ Nat.lt_of_lt_of_le (apart.wide t ht) stop

/-- A part of the tokens has its span in that of all of them. -/
theorem Covers.within (h : s.Covers us) (outer : s'.Covers ts) (apart : Apart ts)
    (sub : us ⊆ ts) : s.Within s' := by
  obtain ⟨t, ht, start⟩ := h.exists_first
  obtain ⟨u, hu, stop⟩ := h.exists_last
  exact ⟨start ▸ (outer.within_of_mem apart (sub ht)).1,
    stop ▸ (outer.within_of_mem apart (sub hu)).2⟩

/-- Spans over tokens in a row are in a row. -/
theorem Covers.ordered (h : s.Covers ts) (h' : s'.Covers us)
    (before : ∀ t ∈ ts, ∀ u ∈ us, t.span.stop ≤ u.span.start) : s.stop ≤ s'.start := by
  obtain ⟨t, ht, stop⟩ := h.exists_last
  obtain ⟨u, hu, start⟩ := h'.exists_first
  rw [stop, start]
  exact before t ht u hu

/-- Spans that stand in turn among the tokens lie in the span of all of them. -/
theorem Covers.holds (outer : s.Covers ts) (apart : Apart ts) (h : InTurn Covers ss ts) :
    s.Holds ss := by
  refine ⟨fun t ht => ?_, fun t ht => ?_, ?_⟩
  · obtain ⟨own, part, covers⟩ := h.exists_of_mem ht
    exact covers.wide (apart.sublist part.sublist)
  · obtain ⟨own, part, covers⟩ := h.exists_of_mem ht
    exact covers.within outer apart part.subset
  · clear outer
    induction h with
    | nil => exact .nil
    | @cons t ss gap own rest covers others ih =>
      have apart' := apart.sublist (List.sublist_append_right gap (own ++ rest))
      obtain ⟨-, -, before⟩ := List.pairwise_append.1 apart'.ordered
      refine List.pairwise_cons.2 ⟨fun u hu => ?_, ih ?_⟩
      · obtain ⟨own', part, covers'⟩ := others.exists_of_mem hu
        exact covers.ordered covers' fun v hv w hw => before v hv w (part.subset hw)
      · exact apart'.sublist (List.sublist_append_right own rest)

end Span

/-- Items in turn have their spans in turn. -/
theorem InTurn.spans {ι : Type} {stands : ι → List Token → Prop} {span : ι → Span} {is : List ι}
    {ts : List Token} (covers : ∀ i own, stands i own → (span i).Covers own)
    (h : InTurn stands is ts) : InTurn Span.Covers (is.map span) ts := by
  induction h with
  | nil => exact .nil
  | cons gap own _ ih => exact .cons gap (covers _ _ own) ih

/-- The span of an element covers its tokens, whatever it is. -/
theorem Element.Stands.covers {e : Element} {ts : List Token} (h : e.Stands ts) :
    e.span.Covers ts := by
  cases h with
  | verb mode t => exact Span.covers_singleton t
  | name spells => exact spells.covers
  | column covers => exact covers
  | tag stands =>
    obtain ⟨-, -, -, -, -, covers⟩ := stands
    exact covers
  | clause _ _ _ covers => exact covers

/-! ## What is written at a span -/

namespace Text

variable {text : String}

/-- Two slices, one behind the other, are one. -/
theorem slice?_append {m n k : Nat} {x y : String} (h : slice? text ⟨m, n⟩ = some x)
    (h' : slice? text ⟨n, k⟩ = some y) : slice? text ⟨m, k⟩ = some (x ++ y) := by
  obtain ⟨front, behind, whole, span⟩ := slice?_eq_some_iff.1 h
  obtain ⟨front', behind', whole', span'⟩ := slice?_eq_some_iff.1 h'
  obtain ⟨rfl, hn⟩ := Span.mk.inj span
  obtain ⟨hn', rfl⟩ := Span.mk.inj span'
  -- the text is cut at one place, so both slices meet there
  have cut : width front' = width (front ++ x.toList) := hn'.symm.trans hn
  have isPrefix : front ++ x.toList <+: text.toList := ⟨behind, whole.symm⟩
  have isPrefix' : front' <+: text.toList :=
    ⟨y.toList ++ behind', by rw [whole', List.append_assoc]⟩
  obtain rfl : front' = front ++ x.toList := by
    have below := prefix_of_width_le isPrefix' isPrefix (Nat.le_of_eq cut)
    have above := prefix_of_width_le isPrefix isPrefix' (Nat.le_of_eq cut.symm)
    exact below.eq_of_length (Nat.le_antisymm below.length_le above.length_le)
  refine slice?_eq_some_iff.2 ⟨front, behind', ?_, ?_⟩
  · rw [whole', String.toList_append, List.append_assoc front]
  · rw [String.toList_append, List.append_assoc front]

/-- Tokens without gaps between them have all their texts written at their span. -/
theorem slice?_of_covers {s : Span} {ts : List Token} (covers : s.Covers ts)
    (adjacent : ts.IsChain fun t u => t.span.stop = u.span.start)
    (h : ∀ t ∈ ts, slice? text t.span = some t.text) :
    slice? text s = some (String.join (ts.map (·.text))) := by
  induction ts generalizing s with
  | nil =>
    obtain ⟨_, none, -⟩ := covers
    exact nomatch none
  | cons t ts ih =>
    obtain rfl := covers.unique (Span.covers_cons t ts)
    obtain ⟨own, others⟩ := List.forall_mem_cons.1 h
    rw [List.map_cons, String.join_cons]
    cases ts with
    | nil => simpa [stopOf] using own
    -- two tokens at least: the first one ends where the others begin
    | cons u us =>
      obtain ⟨next, chain⟩ := List.isChain_cons_cons.1 adjacent
      have rest := ih (Span.covers_cons u us) chain others
      rw [stopOf_cons]
      rw [← next] at rest
      exact slice?_append own rest

/-- Without quotation marks there is nothing to take off. -/
theorem unquote_of_not_isQuote {s : String} (h : ∀ c ∈ s.toList, isQuote c = false) :
    unquote s = s := by
  rw [unquote]
  split
  · rename_i q rest hs
    have plain : isQuote q = false := h q (hs ▸ List.mem_cons_self)
    rw [if_neg fun quoted => Bool.eq_false_iff.1 plain quoted.1]
  · rfl

end Text

/-- A token without quotation marks stands for its text. -/
theorem Token.value_of_not_isQuote {t : Token} (h : ∀ c ∈ t.text.toList, Text.isQuote c = false) :
    t.value = t.text := by
  have same := Text.unquote_of_not_isQuote h
  rw [value]
  split
  · exact same
  · exact same
  · rfl

/-- The name or value says what is read in the text: it is put together from what the
    tokens in its span stand for, and is the text at its span if there are no quotes. -/
structure Located.IsReadFrom (text : String) (s : Located String) : Prop where
  val : s.val = String.join
    (((Token.body text).filter fun t => t.span.Within s.span).map Token.value)
  slice : ∃ part, Text.slice? text s.span = some part ∧
    ((∀ c ∈ part.toList, Text.isQuote c = false) → s.val = part)

/-- The tokens of a part are those in its span. -/
theorem Span.Covers.filter_eq {s : Span} {ts own : List Token} (h : s.Covers own)
    (apart : Apart ts) (part : own <:+: ts) : ts.filter (fun t => t.span.Within s) = own := by
  obtain ⟨before, after, rfl⟩ := part
  obtain ⟨inFront, -, behind⟩ := List.pairwise_append.1 apart.ordered
  obtain ⟨-, -, before_le⟩ := List.pairwise_append.1 inFront
  have apartOwn : Apart own := apart.sublist (List.infix_append before own after).sublist
  have inside : own.filter (fun t => t.span.Within s) = own :=
    List.filter_eq_self.2 fun t ht => decide_eq_true (h.within_of_mem apartOwn ht)
  -- a token on either side has some width, and the span does not reach over it
  have notBefore : before.filter (fun t => t.span.Within s) = [] := by
    refine List.filter_eq_nil_iff.2 fun t ht within => ?_
    obtain ⟨start, -⟩ := of_decide_eq_true within
    obtain ⟨first, hfirst, span⟩ := h.exists_first
    have wide := apart.wide t (by simp [ht])
    have := before_le t ht first hfirst
    omega
  have notAfter : after.filter (fun t => t.span.Within s) = [] := by
    refine List.filter_eq_nil_iff.2 fun t ht within => ?_
    obtain ⟨-, stop⟩ := of_decide_eq_true within
    obtain ⟨last, hlast, span⟩ := h.exists_last
    have wide := apart.wide t (by simp [ht])
    have := behind last (List.mem_append_right _ hlast) t ht
    omega
  rw [List.filter_append, List.filter_append, notBefore, inside, notAfter, List.nil_append,
    List.append_nil]

/-- The text of a token is found at its span. -/
theorem Token.slice?_of_mem_body {text : String} {t : Token} (h : t ∈ body text) :
    Text.slice? text t.span = some t.text :=
  slice?_of_mem_tokenize (List.dropLast_subset _ h)

/-- A name is read from the tokens in its span. -/
theorem Joins.isReadFrom {text : String} {s : Located String} {own : List Token}
    (h : Joins own s) (part : own <:+: Token.body text) : s.IsReadFrom text := by
  have written : ∀ t ∈ own, Text.slice? text t.span = some t.text :=
    fun t ht => Token.slice?_of_mem_body (part.subset ht)
  refine ⟨?_, _, Text.slice?_of_covers h.covers h.adjacent written, fun plain => ?_⟩
  · rw [h.covers.filter_eq (Token.apart_body text) part, h.val]
  · -- without quotes every token stands for its text
    rw [h.val]
    congr 1
    refine List.map_congr_left fun t ht => Token.value_of_not_isQuote fun c hc => plain c ?_
    rw [String.toList_join]
    exact List.mem_flatMap.2 ⟨t.text, List.mem_map_of_mem ht, hc⟩

/-! ## Tags -/

/-- The spans of the key, the marker and the value of a tag. -/
def TagEntry.innerSpans (e : TagEntry) : List Span :=
  e.key.span :: (e.marker.toList.map (·.span) ++ e.value.toList.map (·.span))

/-- The tag goes just from the start of its key to the end of its last part. The parts
    stand in it one behind the other, key and value say what is read there, and the marker
    is the text at its span. -/
structure TagEntry.IsReadFrom (text : String) (e : TagEntry) : Prop where
  holds : e.span.Holds e.innerSpans
  ends : ∃ last ∈ e.innerSpans.getLast?, e.span = ⟨e.key.span.start, last.stop⟩
  key : e.key.IsReadFrom text
  value : ∀ v ∈ e.value, v.IsReadFrom text
  marker : ∀ m ∈ e.marker, Text.slice? text m.span = some m.val

/-- What is behind the key of a tag are the other parts. -/
theorem TagEntry.Behind.spans {ts : List Token} {marker value : Option (Located String)}
    (h : Behind ts marker value) :
    InTurn Span.Covers (marker.toList.map (·.span) ++ value.toList.map (·.span)) ts := by
  cases h with
  | nothing => exact .nil
  | marker m => exact .singleton (Span.covers_singleton m)
  | value m spells =>
    exact (InTurn.singleton (Span.covers_singleton m)).append (.singleton spells.covers)

/-- The parts of a tag stand in it one behind the other. -/
theorem TagEntry.Stands.holds {e : TagEntry} {ts : List Token} (h : e.Stands ts)
    (apart : Apart ts) : e.span.Holds e.innerSpans := by
  obtain ⟨key, behind, rfl, spells, hbehind, covers⟩ := h
  have first : InTurn Span.Covers [e.key.span] key := .singleton spells.covers
  exact covers.holds apart (first.append hbehind.spans)

/-- A tag extends from its key to the last of its parts. -/
theorem TagEntry.Stands.ends {e : TagEntry} {ts : List Token} (h : e.Stands ts) :
    ∃ last ∈ e.innerSpans.getLast?, e.span = ⟨e.key.span.start, last.stop⟩ := by
  obtain ⟨key, behind, rfl, spells, hbehind, covers⟩ := h
  rw [innerSpans]
  generalize e.marker = marker at hbehind
  generalize e.value = value at hbehind
  cases hbehind with
  | nothing =>
    rw [List.append_nil] at covers
    exact ⟨_, rfl, covers.unique spells.covers⟩
  | marker m =>
    exact ⟨_, rfl, covers.unique (spells.covers.append (Span.covers_singleton m))⟩
  | @value m us v spells' =>
    have whole := spells.covers.append ((Span.covers_singleton m).append spells'.covers)
    exact ⟨v.span, rfl, covers.unique whole⟩

/-- The marker of a tag is the text at its span, and the value is read as a name is. -/
theorem TagEntry.Behind.isReadFrom {text : String} {own : List Token}
    {marker value : Option (Located String)} (h : Behind own marker value)
    (part : own <:+: Token.body text) :
    (∀ v ∈ value, v.IsReadFrom text) ∧
      ∀ m ∈ marker, Text.slice? text m.span = some m.val := by
  cases h with
  | nothing => exact ⟨nofun, nofun⟩
  | marker m =>
    refine ⟨nofun, ?_⟩
    rintro _ ⟨⟩
    exact Token.slice?_of_mem_body (part.subset List.mem_cons_self)
  | @value m ts v spells =>
    refine ⟨?_, ?_⟩
    · rintro _ ⟨⟩
      exact spells.isReadFrom ((List.suffix_cons m ts).isInfix.trans part)
    · rintro _ ⟨⟩
      exact Token.slice?_of_mem_body (part.subset List.mem_cons_self)

/-- All parts of a tag are read from its tokens. -/
theorem TagEntry.Stands.isReadFrom {text : String} {e : TagEntry} {own : List Token}
    (h : e.Stands own) (part : own <:+: Token.body text) : e.IsReadFrom text := by
  have holds := h.holds ((Token.apart_body text).sublist part.sublist)
  have ends := h.ends
  obtain ⟨key, behind, rfl, spells, hbehind, -⟩ := h
  have keyPart := (List.prefix_append key behind).isInfix.trans part
  have behindPart := (List.suffix_append key behind).isInfix.trans part
  obtain ⟨value, marker⟩ := hbehind.isReadFrom behindPart
  exact ⟨holds, ends, spells.isReadFrom keyPart, value, marker⟩

/-! ## Statements -/

instance : Spanned Element where
  spans
    | .verb v => spans v
    | .name s => spans s
    | .column c => spans c
    | .tag e => spans e
    | .clause c => spans c

/-- The spans of a clause are those of its elements. -/
theorem Clause.spans_eq_elements (c : Clause) : spans c = spans c.elements := by
  cases c <;> simp [spans, elements, Assignment.elements, List.flatMap_map, List.flatMap_assoc]

/-- The places of a tag are its own and those of its parts. -/
theorem TagEntry.spans_eq_innerSpans (e : TagEntry) : spans e = e.span :: e.innerSpans := by
  simp [spans, innerSpans, List.map_eq_flatMap]

/-- All spans of an element of a clause lie in that of the element. -/
theorem Element.Stands.within {e : Element} {ts : List Token} {c : Clause} (h : e.Stands ts)
    (apart : Apart ts) (he : e ∈ c.elements) : ∀ s ∈ spans e, s.Within e.span := by
  have own (s : Span) : s.Within s := ⟨Nat.le_refl _, Nat.le_refl _⟩
  cases h with
  | verb mode t => exact List.forall_mem_singleton.2 (own _)
  | name _ => exact List.forall_mem_singleton.2 (own _)
  | column _ => exact List.forall_mem_singleton.2 (own _)
  | @tag e _ stands =>
    have split : spans (Element.tag e) = e.span :: e.innerSpans := e.spans_eq_innerSpans
    rw [split]
    exact List.forall_mem_cons.2 ⟨own _, (stands.holds apart).within⟩
  | clause _ _ _ _ =>
    -- no clause is an element of another one
    cases c <;> simp [Clause.elements, Assignment.elements] at he

/-- All spans in a clause lie in that of the clause. -/
theorem Element.Stands.within_of_clause {c : Located Clause} {ts : List Token}
    (h : (Element.clause c).Stands ts) (apart : Apart ts) : ∀ s ∈ spans c.val, s.Within c.span := by
  intro s hs
  rw [Clause.spans_eq_elements] at hs
  obtain ⟨e, he, hs⟩ := List.mem_flatMap.1 hs
  cases h with
  | @clause _ t ts k _ _ inTurn covers =>
    obtain ⟨own, part, stands⟩ := inTurn.exists_of_mem he
    have part' := part.trans (List.suffix_cons t ts).isInfix
    have inElement := stands.within (apart.sublist part'.sublist) he s hs
    exact inElement.trans (stands.covers.within covers apart part'.subset)

/-- Names and values say what is read. -/
theorem InTurn.isReadFrom_of_name {text : String} {es : List Element} {ts : List Token}
    (h : InTurn Element.Stands es ts) (part : ts <:+: Token.body text) {s : Located String}
    (hs : .name s ∈ es) : s.IsReadFrom text := by
  obtain ⟨own, ownPart, stands⟩ := h.exists_of_mem hs
  cases stands with
  | name spells => exact spells.isReadFrom (ownPart.trans part)

/-- A tag among elements in turn is read from their tokens. -/
theorem InTurn.isReadFrom_of_tag {text : String} {es : List Element} {ts : List Token}
    (h : InTurn Element.Stands es ts) (part : ts <:+: Token.body text) {e : TagEntry}
    (he : .tag e ∈ es) : e.IsReadFrom text := by
  obtain ⟨own, ownPart, stands⟩ := h.exists_of_mem he
  cases stands with
  | tag stands => exact stands.isReadFrom (ownPart.trans part)

/-- A statement covers the tokens of the text, and its elements stand there in turn. -/
theorem Statement.stands_of_parse {text : String} {st : Statement} (h : parse text = .ok st) :
    st.span.Covers (Token.body text) ∧
      InTurn Element.Stands st.elements (Token.body text) := by
  obtain ⟨r, read, parsed⟩ := exists_ofTokens? text
  obtain rfl := mapError_eq_ok.1 (parsed.symm.trans h)
  obtain ⟨ts, stop, whole, standing⟩ := stands_of_ofTokens? (Token.orderly_tokenize text) read
  have same : Token.body text = ts := by rw [Token.body, whole, List.dropLast_concat]
  rw [same]
  exact standing

/-- The clauses of a statement are among its elements. -/
theorem Statement.clause_mem_elements {st : Statement} {c : Located Clause} (hc : c ∈ st.clauses) :
    .clause c ∈ st.elements :=
  List.mem_append_right _ (List.mem_map_of_mem hc)

/-- The places in a clause lie within the clause. -/
theorem Statement.within_of_clause {text : String} {st : Statement} (h : parse text = .ok st)
    {c : Located Clause} (hc : c ∈ st.clauses) : ∀ s ∈ spans c.val, s.Within c.span := by
  obtain ⟨-, standing⟩ := stands_of_parse h
  obtain ⟨own, part, stands⟩ := standing.exists_of_mem (clause_mem_elements hc)
  exact stands.within_of_clause ((Token.apart_body text).sublist part.sublist)

/-- The spans of a statement nest and point at what they stand for. The statement goes from
    the start of the first token to the end of the last one. Its verb, target, columns,
    source and clauses are not empty and stand in it in this order, and so do the keyword
    and the elements of each clause in the clause, with all their spans. Every name and
    value is put together from the tokens in its span, and is the text there if this has
    no quotes. A tag goes just from the start of its key to the end of its last part, and
    its marker is the text at its span. -/
theorem Statement.spans_nest {text : String} {st : Statement} (h : parse text = .ok st) :
    st.span.Covers (Token.body text) ∧
    st.span.Holds (st.elements.map Element.span) ∧
    (∀ s, .name s ∈ st.elements → s.IsReadFrom text) ∧
    ∀ c ∈ st.clauses,
      (∃ t ∈ Token.body text, ∃ k, t.kind = .keyword k ∧ k.known = c.val.keyword ∧
        t.span.start = c.span.start ∧
        c.span.Holds (t.span :: c.val.elements.map Element.span)) ∧
      (∀ s ∈ spans c.val, s.Within c.span) ∧
      (∀ s, .name s ∈ c.val.elements → s.IsReadFrom text) ∧
      ∀ e, .tag e ∈ c.val.elements → e.IsReadFrom text := by
  obtain ⟨covers, standing⟩ := stands_of_parse h
  have apart := Token.apart_body text
  have stand (e : Element) (ts : List Token) (he : e.Stands ts) := he.covers
  refine ⟨covers, covers.holds apart (standing.spans stand), fun s hs => ?_, fun c hc => ?_⟩
  · exact standing.isReadFrom_of_name (List.infix_refl _) hs
  · obtain ⟨own, part, stands⟩ := standing.exists_of_mem (clause_mem_elements hc)
    have apart' := apart.sublist part.sublist
    have within := stands.within_of_clause apart'
    cases stands with
    | @clause _ t ts k kind known inTurn covers' =>
      -- the keyword takes the first token of the clause, and its elements stand behind it
      have behind := (List.suffix_cons t ts).isInfix.trans part
      have keyword : InTurn Span.Covers [t.span] [t] := .singleton (Span.covers_singleton t)
      have holds := covers'.holds apart' (keyword.append (inTurn.spans stand))
      have start : t.span.start = c.span.start := by
        rw [covers'.unique (Span.covers_cons t ts)]
      exact ⟨⟨t, part.subset List.mem_cons_self, k, kind, known, start, holds⟩, within,
        fun s => inTurn.isReadFrom_of_name behind, fun e => inTurn.isReadFrom_of_tag behind⟩

/-- A statement with a tag whose value is quoted, as it is read. -/
def Statement.tagged : Statement where
  verb := some ⟨.insert, ⟨0, 6⟩⟩
  target := some ⟨"t", ⟨12, 13⟩⟩
  columns := [⟨["a"], false, none, ⟨21, 22⟩⟩]
  source := ⟨"s", ⟨28, 29⟩⟩
  clauses := [⟨.tags [⟨⟨"b", ⟨39, 40⟩⟩, some ⟨"as", ⟨41, 43⟩⟩, some ⟨"c d", ⟨44, 49⟩⟩, ⟨39, 49⟩⟩],
    ⟨30, 50⟩⟩]
  span := ⟨0, 50⟩

theorem Statement.spans_nest_tag :
    let text := "INSERT INTO t SELECT a FROM s WITHTAG (b as 'c d')"
    parse text = .ok tagged ∧
      Span.Holds ⟨0, 50⟩ [⟨0, 6⟩, ⟨12, 13⟩, ⟨21, 22⟩, ⟨28, 29⟩, ⟨30, 50⟩] ∧
      Span.Holds ⟨39, 49⟩ [⟨39, 40⟩, ⟨41, 43⟩, ⟨44, 49⟩] ∧
      Text.slice? text ⟨41, 43⟩ = some "as" ∧ Text.slice? text ⟨28, 29⟩ = some "s" := by
  intro text
  have read : parse text = .ok tagged := by decide +kernel
  obtain ⟨-, holds, names, clauses⟩ := spans_nest read
  obtain ⟨-, -, -, tags⟩ := clauses _ List.mem_cons_self
  have tag := tags _ List.mem_cons_self
  obtain ⟨part, slice, plain⟩ := (names ⟨"s", ⟨28, 29⟩⟩ (by simp [elements, front, tagged])).slice
  have whole : part = "s" := by
    have written : Text.slice? text ⟨28, 29⟩ = some "s" := by decide +kernel
    exact Option.some.inj (slice.symm.trans written)
  exact ⟨read, holds, tag.holds, tag.marker _ rfl, whole ▸ slice⟩

end ConnectorQuery
