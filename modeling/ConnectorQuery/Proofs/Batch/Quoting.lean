import ConnectorQuery.Batch.Split
import ConnectorQuery.Proofs.Token.Cutting

/-!
# Semicolons inside and outside of quotes

The splitter of a batch reads a text character by character and remembers which
quote is open, while the scanner takes whole literals. They agree on what stands
between quotes: the splitter passes every lexeme as a whole, but for a semicolon
(`cut_first`). So it cuts exactly at the semicolons that are tokens, and the
tokens of a text are those of its segments, with the semicolons between them
(`tokenize_segments`).
-/

namespace ConnectorQuery

/-! ## What the splitter passes -/

theorem nextQuote_none {c : Char} (h : Text.isQuote c = false) : nextQuote none c = none := by
  rw [nextQuote, h]
  rfl

theorem isTerminator_some {terminator q c : Char} : isTerminator terminator (some q) c = false :=
  rfl

/-- Where there is no terminator, a text is passed as a whole, and what is behind
    it is cut as if it stood alone, with the quote that is open then. -/
theorem cut_append_of_eq {terminator : Char} {quote : Option Char} {xs : List Char}
    (h : cut terminator quote xs = (xs, [])) (ys : List Char) :
    cut terminator quote (xs ++ ys) =
      (xs ++ (cut terminator (xs.foldl nextQuote quote) ys).1,
        (cut terminator (xs.foldl nextQuote quote) ys).2) := by
  induction xs generalizing quote with
  | nil => rfl
  | cons x xs ih =>
    rw [cut] at h
    split at h
    · cases h
    rename_i passed
    obtain ⟨first, others⟩ := Prod.mk.inj h
    have rest : cut terminator (nextQuote quote x) xs = (xs, []) :=
      Prod.ext (List.cons.inj first).2 others
    rw [List.cons_append, cut, if_neg passed, ih rest]
    rfl

/-- Characters that are neither quotes nor terminators are passed. -/
theorem cut_of_plain {terminator : Char} {xs : List Char}
    (h : ∀ x ∈ xs, Text.isQuote x = false ∧ x ≠ terminator) :
    cut terminator none xs = (xs, []) ∧ xs.foldl nextQuote none = none := by
  induction xs with
  | nil => exact ⟨rfl, rfl⟩
  | cons x xs ih =>
    obtain ⟨⟨notQuote, ne⟩, others⟩ := List.forall_mem_cons.1 h
    obtain ⟨whole, closed⟩ := ih others
    have passed : isTerminator terminator none x = false := by simp [isTerminator, ne]
    rw [cut, passed, List.foldl_cons, nextQuote_none notQuote, whole]
    exact ⟨rfl, closed⟩

/-- Between two quotes everything is passed, up to the second one. -/
theorem cut_of_quoted {terminator q : Char} {xs : List Char} (h : q ∉ xs) :
    cut terminator (some q) xs = (xs, []) ∧ xs.foldl nextQuote (some q) = some q := by
  induction xs with
  | nil => exact ⟨rfl, rfl⟩
  | cons x xs ih =>
    obtain ⟨ne, others⟩ := not_or.1 (mt List.mem_cons.2 h)
    obtain ⟨whole, stays⟩ := ih others
    have inside : nextQuote (some q) x = some q := if_neg (Ne.symm ne)
    rw [cut, isTerminator_some, List.foldl_cons, inside, whole]
    exact ⟨rfl, stays⟩

theorem Mark.isQuote_eq_false {c : Char} {m : Mark} (h : Mark.ofChar? c = some m) :
    Text.isQuote c = false := by
  obtain rfl := Mark.char_of_ofChar? h
  cases m <;> rfl

namespace Lexeme

variable {c : Char} {cs : List Char} {l : Lexeme}

/-- Behind the quote that opens it, a literal is passed with that quote open. -/
theorem cut_behind_quote {terminator q : Char} (hq : Text.isQuote q = true) (xs : List Char) :
    cut terminator none (q :: xs) =
      (q :: (cut terminator (some q) xs).1, (cut terminator (some q) xs).2) := by
  have passed : isTerminator terminator none q = false := by simp [isTerminator, hq]
  have opens : nextQuote none q = some q := if_pos hq
  rw [cut, passed, opens]
  rfl

/-- A lexeme other than a semicolon is passed as a whole. Only a literal that is
    open leaves its quote open. -/
theorem Opening.cut_text (h : Opening c cs l) (hc : c ≠ ';') :
    cut ';' none l.text = (l.text, []) ∧
      (l.kind = .unrecognised ∨ l.text.foldl nextQuote none = none) := by
  cases h with
  | mark hm =>
    obtain ⟨whole, closed⟩ := @cut_of_plain ';' [c] fun x hx =>
      List.mem_singleton.1 hx ▸ ⟨Mark.isQuote_eq_false hm, hc⟩
    exact ⟨whole, .inr closed⟩
  | @word run rest hword _ inside _ =>
    obtain ⟨whole, closed⟩ := @cut_of_plain ';' (c :: run) fun x hx => by
      have hx : Token.isWordChar x = true := by
        rcases List.mem_cons.1 hx with rfl | hx
        · exact hword
        · exact inside x hx
      refine ⟨(Token.isWordChar_iff.1 hx).2.1, ?_⟩
      rintro rfl
      exact nomatch hx
    exact ⟨whole, .inr closed⟩
  -- inside the marks nothing ends a segment, and the second one closes them
  | @closed content rest hq notIn _ =>
    obtain ⟨inside, stays⟩ := @cut_of_quoted ';' c content notIn
    have closes : nextQuote (some c) c = none := if_pos rfl
    refine ⟨?_, .inr ?_⟩
    · have last : cut ';' (some c) [c] = ([c], []) := rfl
      rw [cut_behind_quote hq, cut_append_of_eq inside, stays, last]
    · rw [List.foldl_cons, show nextQuote none c = some c from if_pos hq, List.foldl_append, stays,
        List.foldl_cons, closes]
      rfl
  | «open» hq notIn =>
    refine ⟨?_, .inl rfl⟩
    rw [cut_behind_quote hq, (cut_of_quoted notIn).1]

/-- A text is cut behind its first lexeme as if that were not there, unless the
    lexeme is a semicolon. -/
theorem cut_first (hgap : Token.isGap c = false) (hc : c ≠ ';') :
    cut ';' none (c :: cs) = ((first c cs).text ++ (cut ';' none (first c cs).rest).1,
      (cut ';' none (first c cs).rest).2) := by
  have opening : Opening c cs (first c cs) := opening_first hgap
  obtain ⟨whole, closed⟩ := opening.cut_text hc
  have cutBehind := cut_append_of_eq whole (first c cs).rest
  rw [text_append_rest] at cutBehind
  rw [cutBehind]
  rcases closed with isOpen | closed
  · rw [opening.rest_eq_nil isOpen]
    rfl
  · rw [closed]

end Lexeme

/-! ## Segments and their tokens -/

/-- Where the terminators stand behind the segment `s` that begins at `offset`, if
    the others follow it with a terminator in front of each. -/
def terminatorOffsets (terminator : Char) (offset : Nat) (s : List Char) :
    List (List Char) → List Nat
  | [] => []
  | s' :: ss =>
    let stop := offset + Text.width s
    stop :: terminatorOffsets terminator (stop + terminator.utf8Size) s' ss

namespace Token

/-- The tokens of a text without its end. -/
def body (text : String) : List Token :=
  (tokenize text).dropLast

/-- The token of a semicolon. -/
def semicolonAt (offset : Nat) : Token :=
  ⟨.mark .semicolon, ";", ⟨offset, offset + 1⟩⟩

/-- The tokens of segments with semicolons between them, each segment scanned by
    itself. -/
def ofSegments (offset : Nat) (s : List Char) : List (List Char) → List Token
  | [] => (body (String.ofList s)).map (·.shift offset)
  | s' :: ss =>
    let stop := offset + Text.width s
    (body (String.ofList s)).map (·.shift offset) ++
      semicolonAt stop :: ofSegments (stop + 1) s' ss

theorem body_eq_scan (text : String) : body text = scan 0 text.toList := by
  rw [body, tokenize, List.dropLast_concat]

theorem shift_body (s : List Char) (offset : Nat) :
    (body (String.ofList s)).map (·.shift offset) = scan offset s := by
  rw [body_eq_scan, String.toList_ofList, ← scan_shift, Nat.zero_add]

/-- In front of the first semicolon the tokens are those of the first segment. -/
theorem ofSegments_append {offset : Nat} {xs s : List Char} (ts : List Token)
    (h : scan offset (xs ++ s) = ts ++ scan (offset + Text.width xs) s) (ss : List (List Char)) :
    ofSegments offset (xs ++ s) ss = ts ++ ofSegments (offset + Text.width xs) s ss := by
  cases ss with
  | nil => rw [ofSegments, ofSegments, shift_body, shift_body, h]
  | cons s' ss =>
    rw [ofSegments, ofSegments, shift_body, shift_body, h, Text.width_append, List.append_assoc,
      ← Nat.add_assoc offset]

end Token

theorem terminatorOffsets_append (terminator : Char) (offset : Nat) (xs s : List Char)
    (ss : List (List Char)) : terminatorOffsets terminator offset (xs ++ s) ss =
      terminatorOffsets terminator (offset + Text.width xs) s ss := by
  cases ss with
  | nil => rfl
  | cons s' ss =>
    rw [terminatorOffsets, terminatorOffsets, Text.width_append, ← Nat.add_assoc offset]

theorem Token.isGap_cases {c : Char} (h : isGap c = true) :
    Text.isQuote c = false ∧ c ≠ ';' := by
  have gaps : c = ' ' ∨ c = '\t' ∨ c = '\r' ∨ c = '\n' ∨ c = '\x0c' := by
    simpa [isGap, or_assoc] using h
  rcases gaps with rfl | rfl | rfl | rfl | rfl <;> exact ⟨rfl, by decide⟩

/-- A gap is passed. -/
theorem cut_gap {c : Char} (h : Token.isGap c = true) (cs : List Char) :
    cut ';' none (c :: cs) = ([c] ++ (cut ';' none cs).1, (cut ';' none cs).2) := by
  obtain ⟨whole, closed⟩ := @cut_of_plain ';' [c] fun x hx =>
    List.mem_singleton.1 hx ▸ Token.isGap_cases h
  have cutBehind := cut_append_of_eq whole cs
  rwa [closed] at cutBehind

/-- The segment in front of the first semicolon opens the text. -/
theorem cut_isPrefix (terminator : Char) (quote : Option Char) (cs : List Char) :
    (cut terminator quote cs).1 <+: cs :=
  ⟨_, cut_append terminator quote cs⟩

/-- No other lexeme is a semicolon. -/
theorem Lexeme.Opening.kind_ne_semicolon {c : Char} {cs : List Char} {l : Lexeme}
    (h : Opening c cs l) (hc : c ≠ ';') : l.kind ≠ .mark .semicolon := by
  cases h with
  | mark hm =>
    rintro ⟨⟩
    exact hc (Mark.char_of_ofChar? hm).symm
  | word _ _ _ _ =>
    rw [TokenKind.ofWord]
    split <;> rintro ⟨⟩
  | closed _ _ _ =>
    rw [TokenKind.ofQuote]
    split <;> rintro ⟨⟩
  | «open» _ _ => rintro ⟨⟩

open Lexeme

/-- A text is scanned segment by segment. -/
theorem Token.scan_eq_ofSegments (n : Nat) (cs : List Char) :
    scan n cs = ofSegments n (cut ';' none cs).1 (cut ';' none cs).2 := by
  fun_induction scan n cs with
  | case1 n => exact ((shift_body [] n).trans (scan.eq_1 n)).symm
  | case2 n c cs gap ih =>
    rw [cut_gap gap, ofSegments_append [], ih]
    · rfl
    · exact scan_cons_of_gap gap n _
  | case3 n c cs notGap lexeme stop ih =>
    have notGap : isGap c = false := Bool.eq_false_iff.2 notGap
    by_cases hc : c = ';'
    · subst hc
      rw [ih]
      exact congrArg (· ++ _) ((shift_body [] n).trans (scan.eq_1 n)).symm
    · rw [cut_first notGap hc, ofSegments_append [ofLexeme n lexeme], ih]
      · rfl
      · exact scan_text_append notGap (cut_isPrefix ';' none _) n

/-- The splitter finds the semicolons that are tokens. -/
theorem terminatorOffsets_eq (n : Nat) (cs : List Char) :
    terminatorOffsets ';' n (cut ';' none cs).1 (cut ';' none cs).2 =
      ((Token.scan n cs).filter (·.kind == .mark .semicolon)).map (·.span.start) := by
  fun_induction Token.scan n cs with
  | case1 n => rfl
  | case2 n c cs gap ih =>
    rw [cut_gap gap, terminatorOffsets_append, ← ih]
    rfl
  | case3 n c cs notGap lexeme stop ih =>
    have notGap : Token.isGap c = false := Bool.eq_false_iff.2 notGap
    by_cases hc : c = ';'
    · subst hc
      exact congrArg (n :: ·) ih
    · have other := (opening_first notGap : Opening c cs lexeme).kind_ne_semicolon hc
      rw [cut_first notGap hc, terminatorOffsets_append, ih, List.filter_cons, if_neg]
      exact mt beq_iff_eq.1 other

/-! ## Where the segments stand -/

/-- Where the segments stand in a text that begins at `offset`, with a terminator between each
    two: from the character behind a terminator to the next one. -/
def rawSpans (terminator : Char) (offset : Nat) : List (List Char) → List Span
  | [] => []
  | s :: ss =>
    let stop := offset + Text.width s
    ⟨offset, stop⟩ :: rawSpans terminator (stop + terminator.utf8Size) ss

section RawSpans

variable (terminator : Char)

/-- A piece is placed for each segment of which something is left. -/
theorem placePieces_eq_filterMap (offset : Nat) (ss : List (List Char)) :
    placePieces terminator offset ss =
      (ss.zip (rawSpans terminator offset ss)).filterMap fun p =>
        Piece.ofSegment? p.2.start p.1 := by
  induction ss generalizing offset with
  | nil => rfl
  | cons s ss ih =>
    rw [placePieces, rawSpans, List.zip_cons_cons, List.filterMap_cons, ← ih]
    rcases Piece.ofSegment? offset s with _ | piece <;> rfl

/-- All segments but the last one end at a terminator. -/
theorem stops_dropLast_rawSpans (offset : Nat) (s : List Char) (ss : List (List Char)) :
    (rawSpans terminator offset (s :: ss)).dropLast.map (·.stop) =
      terminatorOffsets terminator offset s ss := by
  induction ss generalizing offset s with
  | nil => rfl
  | cons s' ss ih => exact congrArg (_ :: ·) (ih _ s')

/-- Segments stand in the text that they make up where they are said to. -/
theorem exists_of_mem_zip_rawSpans {p : List Char × Span} {s : List Char} {ss : List (List Char)}
    (front : List Char)
    (h : p ∈ (s :: ss).zip (rawSpans terminator (Text.width front) (s :: ss))) :
    ∃ before behind, front ++ s ++ ss.flatMap (terminator :: ·) = before ++ p.1 ++ behind ∧
      p.2 = ⟨Text.width before, Text.width before + Text.width p.1⟩ := by
  induction ss generalizing front s with
  | nil =>
    obtain rfl := List.mem_singleton.1 h
    exact ⟨front, [], rfl, rfl⟩
  | cons s' ss ih =>
    rcases List.mem_cons.1 h with rfl | later
    · exact ⟨front, _, rfl, rfl⟩
    · -- a later segment is placed behind this one and its terminator
      have width : Text.width (front ++ s ++ [terminator]) =
          Text.width front + Text.width s + terminator.utf8Size := by
        simp [Text.width_append, Nat.add_assoc]
      obtain ⟨before, behind, whole, place⟩ := ih (front ++ s ++ [terminator]) (width ▸ later)
      refine ⟨before, behind, ?_, place⟩
      rw [← whole]
      simp

end RawSpans
/-- The splitter of a batch and the scanner agree on what stands between quotes. The pieces
    of a text are what is left of segments with semicolons between them, each of which stands
    in the text where it is said to. The semicolons at the ends of the segments are the ones
    that are tokens, and the tokens of the text are those of the segments, each scanned by
    itself, with the semicolons between them. -/
theorem tokenize_segments (text : String) :
    let segments := cut ';' none text.toList
    let placed := (segments.1 :: segments.2).zip (rawSpans ';' 0 (segments.1 :: segments.2))
    Splitter.terminated ';' text =
        placed.filterMap (fun p => Piece.ofSegment? p.2.start p.1) ∧
      (∀ p ∈ placed, ∃ before behind, text.toList = before ++ p.1 ++ behind ∧
        p.2 = ⟨Text.width before, Text.width before + Text.width p.1⟩) ∧
      text.toList = segments.1 ++ segments.2.flatMap (';' :: ·) ∧
      (rawSpans ';' 0 (segments.1 :: segments.2)).dropLast.map (·.stop) =
        ((Token.tokenize text).filter (·.kind == .mark .semicolon)).map (·.span.start) ∧
      Token.body text = Token.ofSegments 0 segments.1 segments.2 := by
  have whole := cut_append ';' none text.toList
  refine ⟨placePieces_eq_filterMap ';' 0 _, fun p hp => ?_, whole.symm, ?_, ?_⟩
  · obtain ⟨before, behind, standing, place⟩ := exists_of_mem_zip_rawSpans ';' [] hp
    exact ⟨before, behind, whole.symm.trans standing, place⟩
  · -- the segments end at the semicolons of the scan, the last one apart
    rw [stops_dropLast_rawSpans, terminatorOffsets_eq, Token.tokenize, List.filter_append]
    exact congrArg (List.map _) (List.append_nil _).symm
  · rw [Token.body_eq_scan, Token.scan_eq_ofSegments]

end ConnectorQuery
