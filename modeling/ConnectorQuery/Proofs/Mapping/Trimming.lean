import ConnectorQuery.Mapping
import ConnectorQuery.Proofs.Query.Layout

/-!
# Blanks around a statement

A splitter that cuts at terminators takes the blanks off both ends of a piece. Where
these are gaps between tokens, the piece says the same without them. So a text without
a terminator has the same mapping table whether it is cut or taken as a whole
(`Mapper.map_single_terminated`).

Not every blank is a gap. A no-break space at the end of a text is a character of
its last word for the reader, and trimming cuts it off (`Mapper.map_noBreakSpace`).
-/

namespace ConnectorQuery

/-! ## Gaps around tokens -/

theorem Token.isWordChar_of_isGap {c : Char} (h : isGap c = true) : isWordChar c = false := by
  simp [isWordChar, h]

theorem Text.isQuote_of_isGap {c : Char} (h : Token.isGap c = true) : isQuote c = false := by
  refine Bool.eq_false_iff.2 fun quote => ?_
  rcases eq_of_isQuote quote with rfl | rfl <;> exact absurd h (by decide)

/-- Gaps end a word. -/
theorem endsWord_of_gaps {cs : List Char} (h : ∀ c ∈ cs, Token.isGap c = true) : EndsWord cs :=
  fun c hc => Token.isWordChar_of_isGap (h c (List.mem_of_mem_head? hc))

namespace Lexeme

variable {c : Char} {cs : List Char}

/-- A quotation mark that is not closed takes all that follows. -/
theorem first_of_open (quote : Text.isQuote c = true) (notIn : c ∉ cs) :
    first c cs = ⟨.unrecognised, c :: cs, []⟩ := by
  have notMark : Mark.ofChar? c = none := by
    rcases Text.eq_of_isQuote quote with rfl | rfl <;> rfl
  rw [first, notMark]
  simp only [quote, if_true]
  rcases literal_eq c cs with ⟨-, whole⟩ | ⟨content, rest, -, rfl⟩
  · exact whole
  · exact absurd (List.mem_append_right _ List.mem_cons_self) notIn

end Lexeme

namespace Token

/-- Gaps in front move the tokens and change nothing else about them. -/
theorem scan_gaps_append {front : List Char} (h : ∀ c ∈ front, isGap c = true) (n : Nat)
    (cs : List Char) : scan n (front ++ cs) = scan (n + Text.width front) cs := by
  induction front generalizing n with
  | nil => rfl
  | cons c front ih =>
    obtain ⟨gap, gaps⟩ := List.forall_mem_cons.1 h
    rw [List.cons_append, scan_cons_of_gap gap, ih gaps, Text.width_cons, Nat.add_assoc]

theorem scan_gaps {cs : List Char} (h : ∀ c ∈ cs, isGap c = true) (n : Nat) : scan n cs = [] := by
  have whole := scan_gaps_append h n []
  rwa [List.append_nil, scan.eq_1] at whole

end Token

/-- The tokens read alike, behind the place `n` of one text and the place `m` of
    another. -/
structure ReadAlikeBehind (n m : Nat) (ts us : List Token) : Prop where
  alike : ReadAlike ts us
  gap : ∀ t ∈ ts.head?, ∀ u ∈ us.head?, t.kind ≠ .endOfText →
    (t.span.start = n ↔ u.span.start = m)
  text : ∀ t ∈ ts.head?, ∀ u ∈ us.head?, t.kind.isKeyword = true → t.text = u.text

/-- Lists read alike with one more token in front, if these are alike and follow on what
    is before them in the same way. -/
theorem ReadAlikeBehind.cons {n m : Nat} {t u : Token} {ts us : List Token}
    (h : ReadAlikeBehind t.span.stop u.span.stop ts us) (alike : t.Alike u)
    (gap : t.span.start = n ↔ u.span.start = m)
    (text : t.kind.isKeyword = true → t.text = u.text) :
    ReadAlikeBehind n m (t :: ts) (u :: us) := by
  refine ⟨?_, ?_, ?_⟩
  · obtain ⟨tail, gap', text'⟩ := h
    match ts, us, tail with
    | _ :: _, _ :: _, tail =>
      exact .cons alike (gap' _ rfl _ rfl) (fun _ keyword _ => text' _ rfl _ rfl keyword) tail
  · rintro _ ⟨⟩ _ ⟨⟩ _
    exact gap
  · rintro _ ⟨⟩ _ ⟨⟩
    exact text

theorem readAlikeBehind_end (n m stop stop' : Nat) :
    ReadAlikeBehind n m [.endAt stop] [.endAt stop'] := by
  refine ⟨.last ⟨Token.genuine_endAt _, Token.genuine_endAt _, rfl, fun _ _ => rfl⟩ rfl, ?_, ?_⟩
  · rintro _ ⟨⟩ _ ⟨⟩ notEnd
    exact absurd rfl notEnd
  · rintro _ ⟨⟩ _ ⟨⟩ _
    rfl

/-- Gaps at the end of a text do not count, nor does the place where it begins. Only
    a literal that is open takes them up, and that is no token. -/
theorem readAlikeBehind_scan {back : List Char} (gaps : ∀ c ∈ back, Token.isGap c = true)
    (m : Nat) (cs : List Char) : ∀ n, ReadAlikeBehind n m
      (Token.scan n (cs ++ back) ++ [.endAt (n + Text.width (cs ++ back))])
      (Token.scan m cs ++ [.endAt (m + Text.width cs)]) := by
  fun_induction Token.scan m cs with
  | case1 m =>
    intro n
    rw [List.nil_append, Token.scan_gaps gaps]
    exact readAlikeBehind_end n m _ _
  | case2 m c cs gap ih =>
    intro n
    obtain ⟨alike, -, text⟩ := ih (n + c.utf8Size)
    -- the next token begins behind the gap
    have later := Token.le_start_of_mem_head?_scan (n + c.utf8Size) (cs ++ back)
    have later' := Token.le_start_of_mem_head?_scan (m + c.utf8Size) cs
    have wide := c.utf8Size_pos
    rw [List.cons_append, Token.scan_cons_of_gap gap, Text.width_cons, Text.width_cons,
      ← Nat.add_assoc, ← Nat.add_assoc]
    refine ⟨alike, fun t ht u hu _ => ?_, text⟩
    have := later t ht
    have := later' u hu
    omega
  | case3 m c cs notGap lexeme stop ih =>
    intro n
    have notGap := Bool.eq_false_iff.2 notGap
    have opening : Lexeme.Opening c cs lexeme := Lexeme.opening_first notGap
    by_cases isOpen : lexeme.kind = .unrecognised
    · -- a literal that is open takes up the gaps, and nothing is left behind it
      obtain ⟨quote, notIn, hl⟩ := opening.eq_of_unrecognised isOpen
      have notIn' : c ∉ cs ++ back := fun mem => (List.mem_append.1 mem).elim notIn fun hb =>
        Bool.false_ne_true ((Text.isQuote_of_isGap (gaps c hb)).symm.trans quote)
      rw [List.cons_append, Token.scan_cons notGap, Lexeme.first_of_open quote notIn', hl,
        Token.scan.eq_1, Token.scan.eq_1]
      exact (readAlikeBehind_end _ _ _ _).cons
        (Token.alike_of_unrecognised rfl rfl (Nat.le_add_right _ _) (Nat.le_add_right _ _))
        (iff_of_true rfl rfl) (by rintro ⟨⟩)
    · -- any other lexeme ends where it did, as a gap ends a word
      have whole : c :: cs = lexeme.text ++ lexeme.rest := (Lexeme.text_append_rest c cs).symm
      have ends : Token.isWordChar c = true → EndsWord (lexeme.rest ++ back) :=
        fun hc => (opening.endsWord_rest hc).append (endsWord_of_gaps gaps)
      have others := ih (n + Text.width lexeme.text)
      rw [whole, List.append_assoc, Token.scan_lexeme notGap opening isOpen ends,
        Text.width_append, Text.width_append lexeme.text, ← Nat.add_assoc, ← Nat.add_assoc]
      exact others.cons ⟨⟨Nat.le_add_right _ _, fun _ => opening.spelled⟩,
        ⟨Nat.le_add_right _ _, fun _ => opening.spelled⟩, rfl, fun _ _ => rfl⟩
        (iff_of_true rfl rfl) fun _ => rfl

/-! ## Texts without the blanks around them -/

namespace Text

/-- Trimming takes nothing but gaps off the text. -/
def TrimsGaps (text : String) : Prop :=
  ∃ front back, text.toList = front ++ (trim text).toList ++ back ∧
    ∀ c ∈ front ++ back, Token.isGap c = true

/-- Every terminator of the text stands in quotes. -/
def Undivided (terminator : Char) (text : String) : Prop :=
  ∀ i < text.toList.length, text.toList[i]? = some terminator →
    (text.toList.take i).foldl nextQuote none ≠ none

instance (terminator : Char) (text : String) : Decidable (Undivided terminator text) :=
  inferInstanceAs (Decidable (∀ i < _, _ → _))

/-- Nothing is left of a text of blanks, and of no other. -/
theorem isEmpty_trimEnd_trimStart (text : String) :
    (trimEnd (trimStart text.toList)).isEmpty = isAllBlank text := by
  rw [Bool.eq_iff_iff, List.isEmpty_iff, trimEnd, List.reverse_eq_nil_iff,
    List.dropWhile_eq_nil_iff, isAllBlank, List.all_eq_true]
  generalize text.toList = cs
  have split : cs.takeWhile isBlank ++ trimStart cs = cs := List.takeWhile_append_dropWhile
  refine ⟨fun h c hc => ?_, fun h c hc => h c ?_⟩
  · rw [← split] at hc
    rcases List.mem_append.1 hc with front | kept
    · exact List.mem_takeWhile_imp front
    · exact h c (List.mem_reverse.2 kept)
  · rw [← split]
    exact List.mem_append_right _ (List.mem_reverse.1 hc)

end Text

/-- A text reads as it does without the blanks around it, if they are gaps. -/
theorem readAlike_trim {text : String} (h : Text.TrimsGaps text) :
    ReadAlike (Token.tokenize text) (Token.tokenize (Text.trim text)) := by
  obtain ⟨front, back, whole, gaps⟩ := h
  obtain ⟨front_gaps, back_gaps⟩ := List.forall_mem_append.1 gaps
  have alike := (readAlikeBehind_scan back_gaps 0 (Text.trim text).toList (Text.width front)).alike
  rw [Nat.zero_add] at alike
  rw [Token.tokenize, Token.tokenize, whole, List.append_assoc,
    Token.scan_gaps_append front_gaps, Nat.zero_add, Text.width_append]
  exact alike

/-- Where quotes are open at every terminator, nothing is cut off. -/
theorem cut_snd_eq_nil {terminator : Char} {quote : Option Char} {cs : List Char}
    (h : ∀ i < cs.length, cs[i]? = some terminator → (cs.take i).foldl nextQuote quote ≠ none) :
    (cut terminator quote cs).2 = [] := by
  induction cs generalizing quote with
  | nil => rfl
  | cons c cs ih =>
    have passed : ¬isTerminator terminator quote c = true := by
      intro ends
      simp only [isTerminator, Bool.and_eq_true, Option.isNone_iff_eq_none, beq_iff_eq] at ends
      obtain ⟨⟨closed, rfl⟩, -⟩ := ends
      exact h 0 (Nat.succ_pos _) rfl closed
    rw [cut, if_neg passed]
    exact ih fun i hi found => h (i + 1) (Nat.succ_lt_succ hi) found

namespace Splitter

variable {terminator : Char} {text : String}

/-- A text that is not cut is one piece, unless it is blank. -/
theorem terminated_of_undivided (h : Text.Undivided terminator text) :
    terminated terminator text = if Text.isAllBlank text then [] else
      [⟨Text.width (text.toList.takeWhile Text.isBlank), Text.trim text⟩] := by
  have whole := cut_snd_eq_nil h
  have segment := cut_append terminator none text.toList
  rw [whole, List.flatMap_nil, List.append_nil] at segment
  simp only [terminated]
  rw [whole, segment, placePieces, Piece.ofSegment?, Text.isEmpty_trimEnd_trimStart, Nat.zero_add]
  by_cases blank : Text.isAllBlank text = true
  · rw [if_pos blank, if_pos blank]
    rfl
  · rw [if_neg blank, if_neg blank]
    rfl

end Splitter

namespace Mapper

variable {split split' : Splitter} {policy : NamePolicy} {a b text : String} {terminator : Char}

/-- What is checked of a query does not depend on its text. -/
theorem sameOutcome_mapOne (along : ReadAlike (Token.tokenize a) (Token.tokenize b))
    (sources targets : List String) :
    SameOutcome (fun r r' => r' = (r.1.withStatement b, r.2)) (fun e e' => e.bare = e'.bare)
      ((⟨split, policy⟩ : Mapper).mapOne a sources targets)
      ((⟨split', policy⟩ : Mapper).mapOne b sources targets) := by
  refine (Query.sameOutcome_parse along).bind fun q q' same => ?_
  subst same
  -- names are entered without a look at the text
  refine .bind_same (fun e => (rfl : e.bare = e.bare)) _ fun sources' => ?_
  refine .bind_same (fun e => (rfl : e.bare = e.bare)) _ fun targets' => ?_
  exact .ok rfl

/-- Two pieces that read alike map alike, whatever the splitters. -/
theorem sameOutcome_mapPieces (along : ReadAlike (Token.tokenize a) (Token.tokenize b))
    (offset offset' : Nat) :
    SameOutcome (fun qs qs' => qs' = qs.map (·.withStatement b))
      (fun e e' => e.cause.bare = e'.cause.bare)
      ((⟨split, policy⟩ : Mapper).mapPieces 0 [] [] [⟨offset, a⟩])
      ((⟨split', policy⟩ : Mapper).mapPieces 0 [] [] [⟨offset', b⟩]) := by
  have statement : SameOutcome (fun r r' => r' = (r.1.withStatement b, r.2))
      (fun e e' : BatchFailure => e.cause.bare = e'.cause.bare)
      (((⟨split, policy⟩ : Mapper).mapOne a [] []).mapError fun e => ⟨0, offset, e⟩)
      (((⟨split', policy⟩ : Mapper).mapOne b [] []).mapError fun e => ⟨0, offset', e⟩) :=
    (sameOutcome_mapOne along [] []).mapError fun _ _ cause => cause
  refine statement.bind fun r r' same => ?_
  subst same
  exact .ok rfl

/-- A text that has no terminator outside of quotes, and loses only gaps by trimming, has
    the same mapping table whether it is cut or taken as a whole: either both ways fail, or
    both tables have the same queries, but for the texts in them. -/
theorem map_single_terminated (policy : NamePolicy)
    (undivided : Text.Undivided terminator text) (trims : Text.TrimsGaps text) :
    let single : Mapper := ⟨.single, policy⟩
    let cutting : Mapper := ⟨.terminated terminator, policy⟩
    ((∃ t, single.map text = .ok t) ↔ ∃ t, cutting.map text = .ok t) ∧
    ∀ t t', single.map text = .ok t → cutting.map text = .ok t' →
      t'.queries = t.queries.map fun q => { q with statement := Text.trim text } := by
  intro single cutting
  have same : SameOutcome
      (fun t t' => t'.queries = t.queries.map fun q => { q with statement := Text.trim text })
      (fun e e' => e.cause.bare = e'.cause.bare) (single.map text) (cutting.map text) := by
    simp only [map, single, cutting]
    rw [Splitter.terminated_of_undivided undivided, Splitter.single]
    split
    · exact .ok rfl
    · exact (sameOutcome_mapPieces (readAlike_trim trims) _ _).bind fun _ _ same => .ok same
  exact ⟨same.exists_ok_iff, fun _ _ => same.of_ok⟩

/-- A statement with gaps at both ends, and a terminator in quotes. -/
theorem map_single_terminated_quoted :
    let text := " \nSELECT * FROM `s;t` "
    let single : Mapper := ⟨.single, .any⟩
    let cutting : Mapper := ⟨.terminated ';', .any⟩
    Text.Undivided ';' text ∧ Text.TrimsGaps text ∧
      ∃ t t', single.map text = .ok t ∧ cutting.map text = .ok t' ∧
        t'.queries = t.queries.map fun q => { q with statement := Text.trim text } := by
  intro text single cutting
  have undivided : Text.Undivided ';' text := by decide +kernel
  have trims : Text.TrimsGaps text :=
    ⟨[' ', '\n'], [' '], by decide +kernel, List.all_eq_true.1 rfl⟩
  obtain ⟨succeeds, same⟩ := map_single_terminated .any undivided trims
  obtain ⟨t, ht⟩ := exists_of_isOk (x := single.map text) (by decide +kernel)
  obtain ⟨t', ht'⟩ := succeeds.1 ⟨t, ht⟩
  exact ⟨undivided, trims, t, t', ht, ht', same t t' ht ht'⟩

/-- A no-break space is blank and no gap. Taken as a whole, the text names a source that
    ends with it; the piece that is cut from the text names another one. -/
theorem map_noBreakSpace :
    let text := "SELECT * FROM s\u00a0"
    let single : Mapper := ⟨.single, .any⟩
    let cutting : Mapper := ⟨.terminated ';', .any⟩
    Text.Undivided ';' text ∧
      (single.map text).map (·.sources) = .ok ["s\u00a0"] ∧
      (cutting.map text).map (·.sources) = .ok ["s"] := by
  decide +kernel

end Mapper

end ConnectorQuery
