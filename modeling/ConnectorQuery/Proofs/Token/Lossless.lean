import ConnectorQuery.Proofs.Batch.Quoting
import ConnectorQuery.Proofs.Grammar.Tokens
import ConnectorQuery.Proofs.Text.Slice

/-!
# Tokenizing without loss

The tokens of a text hold everything that is written there but the gaps: they stand
one behind the other, and a character that is in none of them is a gap
(`Token.mem_gaps_or_covered`). What the text of a token looks like depends on its kind
(`Token.Shape`). A mark or a closed literal can be told from its own text. A word is
one as a whole only, so no character of a word may stand beside it, and a literal that
is open takes all that is left of the text.

So the characters in front of a token matter no less than those behind it, and the
scan is followed together with the text that it has passed: that text never ends
within a word (`Token.standsIn_of_mem_scan`).

* `Lexeme.Opening.shape`: the shape of one lexeme;
* `tokenize_lossless`: the tokens of a text.
-/

namespace ConnectorQuery

/-! ## Characters and words -/

namespace Token

/-- The gaps between tokens: space, tab, carriage return, line feed, form feed. -/
def gaps : List Char :=
  [' ', '\t', '\r', '\n', '\x0c']

/-- The characters that end a word: gaps, marks and quotes. -/
def separators : List Char :=
  gaps ++ [',', '(', ')', '=', '.', '*', ';', '\'', '\x60']

theorem isGap_iff_mem {c : Char} : isGap c = true ↔ c ∈ gaps := by
  simp [isGap, gaps, or_assoc]

/-- The characters of words are those that end none. -/
theorem isWordChar_iff_notMem {c : Char} : isWordChar c = true ↔ c ∉ separators := by
  rw [isWordChar_iff]
  constructor
  · rintro ⟨notGap, notQuote, notMark⟩ ends
    rcases List.mem_append.1 ends with gap | other
    · exact nomatch notGap.symm.trans (isGap_iff_mem.2 gap)
    · simp only [List.mem_cons, List.not_mem_nil, or_false] at other
      rcases other with rfl | rfl | rfl | rfl | rfl | rfl | rfl | rfl | rfl
      -- seven marks and two quotes
      iterate 7 exact nomatch notMark
      iterate 2 exact nomatch notQuote
  · intro inside
    refine ⟨Bool.eq_false_iff.2 fun gap => ?_, Bool.eq_false_iff.2 fun quote => ?_, ?_⟩
    · exact inside (List.mem_append_left _ (isGap_iff_mem.1 gap))
    · rcases Text.eq_of_isQuote quote with rfl | rfl <;> exact inside (by decide)
    · refine Option.eq_none_iff_forall_not_mem.2 fun m hm => inside ?_
      obtain rfl := Mark.char_of_ofChar? hm
      cases m <;> decide

/-- What is in no word separates. -/
theorem isWordChar_eq_false_iff {c : Char} : isWordChar c = false ↔ c ∈ separators := by
  rw [← Bool.not_eq_true, isWordChar_iff_notMem, not_not]

end Token

/-- The word spells the keyword, in any case of its ASCII letters. -/
def Keyword.SpelledBy (k : Keyword) (word : List Char) : Prop :=
  Text.foldCase (String.ofList word) = Text.foldCase k.spelling

theorem Keyword.ofText?_eq_some_iff {k : Keyword} {word : List Char} :
    ofText? (String.ofList word) = some k ↔ k.SpelledBy word := by
  constructor
  · intro h
    have spells := List.find?_some h
    exact (Text.eqIgnoringCase_iff.1 spells).symm
  · intro h
    exact ofText?_of_eqIgnoringCase (Text.eqIgnoringCase_iff.2 h.symm)

/-- The text is a whole word, between the characters in front of it and those behind
    it. It is a keyword exactly if it spells one. -/
structure Token.IsWord (front behind : List Char) (kind : TokenKind) (text : List Char) : Prop where
  ne_nil : text ≠ []
  inside : ∀ c ∈ text, c ∉ separators
  front : ∀ c ∈ front.getLast?, c ∈ separators
  behind : ∀ c ∈ behind.head?, c ∈ separators
  keyword : ∀ k, kind = .keyword k ↔ k.SpelledBy text
  word : (∀ k, kind ≠ .keyword k) → kind = .word

/-- What the text of a token of the kind looks like, between the characters in front
    of it and those behind it. -/
inductive Token.Shape (front behind : List Char) : TokenKind → List Char → Prop
  | mark (m : Mark) : Shape front behind (.mark m) [m.char]
  | backtick {content : List Char} : '\x60' ∉ content →
      Shape front behind .backtick ('\x60' :: (content ++ ['\x60']))
  | quoted {content : List Char} : '\'' ∉ content →
      Shape front behind .quoted ('\'' :: (content ++ ['\'']))
  | word {kind : TokenKind} {text : List Char} : Token.IsWord front behind kind text →
      Shape front behind kind text
  /-- A quote that does not occur again, with all that is behind it. -/
  | «open» {quote : Char} {content : List Char} : quote = '\x60' ∨ quote = '\'' →
      quote ∉ content → behind = [] → Shape front behind .unrecognised (quote :: content)

theorem Token.Shape.behind_eq_nil {front behind text : List Char}
    (h : Shape front behind .unrecognised text) : behind = [] := by
  cases h with
  | word isWord => exact nomatch isWord.word nofun
  | «open» _ _ nothing => exact nothing

/-! ## The shape of a lexeme -/

/-- The text does not end within a word that goes on with `cs`. -/
def ApartFrom (cs front : List Char) : Prop :=
  ∀ c ∈ front.getLast?, Token.isWordChar c = true → EndsWord cs

theorem apartFrom_nil (cs : List Char) : ApartFrom cs [] :=
  nofun

/-- A word is a keyword when it is spelled like one, in any letter case. -/
theorem TokenKind.ofWord_eq_keyword_iff {word : List Char} {k : Keyword} :
    ofWord (String.ofList word) = .keyword k ↔ k.SpelledBy word := by
  rw [← Keyword.ofText?_eq_some_iff, ofWord]
  cases Keyword.ofText? (String.ofList word) with
  | none => constructor <;> (rintro ⟨⟩)
  | some k' => exact (keyword.injEq k' k).to_iff.trans (Option.some.injEq k' k).to_iff.symm

theorem TokenKind.ofWord_eq_word {word : String} (h : ∀ k, ofWord word ≠ .keyword k) :
    ofWord word = .word := by
  simp only [ofWord] at h ⊢
  cases hk : Keyword.ofText? word with
  | none => rfl
  | some k => exact absurd (by rw [hk]) (h k)

/-- Characters of words are a whole word where none stands beside them. -/
theorem Token.isWord_ofWord {front behind text : List Char} (ne_nil : text ≠ [])
    (inside : ∀ c ∈ text, isWordChar c = true) (begins : ∀ c ∈ front.getLast?, isWordChar c = false)
    (ends : EndsWord behind) : IsWord front behind (.ofWord (String.ofList text)) text where
  ne_nil := ne_nil
  inside c hc := isWordChar_iff_notMem.1 (inside c hc)
  front c hc := isWordChar_eq_false_iff.1 (begins c hc)
  behind c hc := isWordChar_eq_false_iff.1 (ends c hc)
  keyword _ := TokenKind.ofWord_eq_keyword_iff
  word := TokenKind.ofWord_eq_word

namespace Lexeme.Opening

variable {c : Char} {cs front : List Char} {l : Lexeme}

/-- A lexeme has the shape of its kind, if no word goes on with it. -/
theorem shape (h : Opening c cs l) (apart : ApartFrom (c :: cs) front) :
    Token.Shape front l.rest l.kind l.text := by
  have ends := h.endsWord_rest
  cases h with
  | mark hm =>
    obtain rfl := Mark.char_of_ofChar? hm
    exact .mark _
  | @word run rest hc _ inside _ =>
    have word : Token.IsWord front rest (.ofWord (String.ofList (c :: run))) (c :: run) := by
      refine Token.isWord_ofWord (List.cons_ne_nil _ _) ?_ (fun d hd => ?_) (ends hc)
      · exact List.forall_mem_cons.2 ⟨hc, inside⟩
      · -- a word in front would go on with `c`
        exact Bool.eq_false_iff.2 fun isWord => nomatch hc.symm.trans (apart d hd isWord c rfl)
    dsimp only
    exact .word word
  -- a closed literal begins and ends with its own mark
  | closed quote notIn _ =>
    rcases Text.eq_of_isQuote quote with rfl | rfl
    · exact .backtick notIn
    · exact .quoted notIn
  | «open» quote notIn => exact .open (Text.eq_of_isQuote quote) notIn rfl

/-- What is behind a lexeme does not go on with a word that the lexeme ends with. -/
theorem apartFrom_rest (h : Opening c cs l) (front : List Char) :
    ApartFrom l.rest (front ++ l.text) := by
  have ends := h.endsWord_rest
  intro d hd isWord
  cases h with
  | mark hm =>
    rw [List.getLast?_concat] at hd
    obtain rfl := Option.some.inj hd
    exact ends isWord
  | word hc _ _ _ => exact ends hc
  | closed quote _ _ =>
    rw [← List.cons_append, ← List.append_assoc, List.getLast?_concat] at hd
    obtain rfl := Option.some.inj hd
    exact ends isWord
  | «open» _ _ => exact nofun

end Lexeme.Opening

/-! ## The tokens of a text -/

namespace Token

/-- The token stands in the text at its span, and has the shape of its kind there. -/
def StandsIn (text : List Char) (t : Token) : Prop :=
  ∃ front behind, text = front ++ t.text.toList ++ behind ∧
    t.span = ⟨Text.width front, Text.width (front ++ t.text.toList)⟩ ∧
    Shape front behind t.kind t.text.toList

/-- A token stops within its text. -/
theorem StandsIn.stop_le {text : List Char} {t : Token} (h : t.StandsIn text) :
    t.span.stop ≤ Text.width text := by
  obtain ⟨front, behind, rfl, span, -⟩ := h
  rw [span, Text.width_append _ behind]
  exact Nat.le_add_right _ _

/-- A literal that is open ends with the text. -/
theorem StandsIn.stop_eq {text : List Char} {t : Token} (h : t.StandsIn text)
    (isOpen : t.kind = .unrecognised) : t.span.stop = Text.width text := by
  obtain ⟨front, behind, rfl, span, shape⟩ := h
  rw [isOpen] at shape
  rw [span, shape.behind_eq_nil, List.append_nil]

/-- What is scanned behind the text `front` stands in the whole. -/
theorem standsIn_of_mem_scan {n : Nat} {cs : List Char} : ∀ front : List Char,
    Text.width front = n → ApartFrom cs front → ∀ t ∈ scan n cs, t.StandsIn (front ++ cs) := by
  fun_induction scan n cs with
  | case1 n => exact fun front _ _ t ht => absurd ht List.not_mem_nil
  | case2 n c cs gap ih =>
    rintro front rfl apart
    have whole : front ++ c :: cs = front ++ [c] ++ cs := by simp
    have width : Text.width (front ++ [c]) = Text.width front + c.utf8Size := by simp
    rw [whole]
    refine ih (front ++ [c]) width fun d hd isWord => ?_
    -- the gap is no character of a word
    rw [List.getLast?_concat] at hd
    obtain rfl := Option.some.inj hd
    exact absurd ((isWordChar_iff.1 isWord).1.symm.trans gap) Bool.false_ne_true
  | case3 n c cs notGap lexeme stop ih =>
    rintro front rfl apart
    have opening : Lexeme.Opening c cs lexeme := Lexeme.opening_first (Bool.eq_false_iff.2 notGap)
    have whole : front ++ c :: cs = front ++ lexeme.text ++ lexeme.rest := by
      rw [List.append_assoc, Lexeme.text_append_rest]
    rw [whole]
    refine List.forall_mem_cons.2 ⟨⟨front, lexeme.rest, ?_, ?_, ?_⟩, ?_⟩
    · rw [String.toList_ofList]
    · rw [String.toList_ofList, Text.width_append]
    · rw [String.toList_ofList]
      exact opening.shape apart
    · exact ih (front ++ lexeme.text) (Text.width_append _ _) (opening.apartFrom_rest front)

/-- A character is a gap, or a token covers it. -/
theorem mem_gaps_or_covered {n : Nat} {cs : List Char} : ∀ front c behind,
    cs = front ++ c :: behind → c ∈ gaps ∨ ∃ t ∈ scan n cs,
      t.span.start ≤ n + Text.width front ∧ n + Text.width front < t.span.stop := by
  fun_induction scan n cs with
  | case1 n =>
    intro front c behind h
    exact absurd h.symm (List.append_ne_nil_of_right_ne_nil _ (List.cons_ne_nil _ _))
  | case2 n x cs gap ih =>
    intro front c behind h
    rcases List.cons_eq_append_iff.1 h with ⟨rfl, own⟩ | ⟨front, rfl, rest⟩
    · obtain ⟨rfl, -⟩ := List.cons.inj own
      exact .inl (isGap_iff_mem.1 gap)
    · rw [Text.width_cons, ← Nat.add_assoc]
      exact ih front c behind rest
  | case3 n x cs notGap lexeme stop ih =>
    intro front c behind h
    rw [← Lexeme.text_append_rest x cs] at h
    -- the character stands behind the lexeme, or in it
    have later (front : List Char) (hrest : lexeme.rest = front ++ c :: behind) :
        c ∈ gaps ∨ ∃ t ∈ ofLexeme n lexeme :: scan stop lexeme.rest,
          t.span.start ≤ stop + Text.width front ∧ stop + Text.width front < t.span.stop := by
      rcases ih front c behind hrest with gap | ⟨t, ht, covers⟩
      · exact .inl gap
      · exact .inr ⟨t, List.mem_cons_of_mem _ ht, covers⟩
    rcases List.append_eq_append_iff.1 h with ⟨front, rfl, rest⟩ | ⟨inside, own, rest⟩
    · rw [Text.width_append, ← Nat.add_assoc]
      exact later front rest
    · cases inside with
      | nil =>
        rw [List.append_nil] at own
        rw [← own]
        exact later [] rest.symm
      | cons d inside =>
        obtain ⟨rfl, -⟩ := List.cons.inj rest
        refine .inr ⟨ofLexeme n lexeme, List.mem_cons_self, Nat.le_add_right _ _, ?_⟩
        have wide := c.utf8Size_pos
        have stop : Text.width lexeme.text =
            Text.width front + (c.utf8Size + Text.width inside) := by
          rw [own, Text.width_append, Text.width_cons]
        simp only [ofLexeme, stop]
        omega

end Token

/-- The tokens of a text hold all of it but the gaps. The end of the text is the last
    one and no other; the others are not empty, stand one behind the other without
    overlapping, and have the shape of their kinds where they stand. A character that
    none of them covers is a gap. A quote that is never closed begins the last token. -/
theorem tokenize_lossless (text : String) :
    let tokens := Token.body text
    Token.tokenize text = tokens ++ [.endAt (Text.width text.toList)] ∧
    (∀ t ∈ tokens, t.kind ≠ .endOfText ∧ t.span.start < t.span.stop) ∧
    tokens.Pairwise (fun t u => t.span.stop ≤ u.span.start) ∧
    (∀ front c behind, text.toList = front ++ c :: behind → c ∈ Token.gaps ∨
      ∃ t ∈ tokens, t.span.start ≤ Text.width front ∧ Text.width front < t.span.stop) ∧
    (∀ t ∈ tokens, t.StandsIn text.toList) ∧
    ∀ i t, tokens[i]? = some t → t.kind = .unrecognised → i + 1 = tokens.length := by
  intro tokens
  have scanned : tokens = Token.scan 0 text.toList := Token.body_eq_scan text
  have whole : Token.tokenize text = tokens ++ [.endAt (Text.width text.toList)] := by
    rw [scanned, Token.tokenize]
  have ordered := (Token.orderly_tokenize text).pairwise
  rw [whole, List.pairwise_append] at ordered
  obtain ⟨ordered, -, inFront⟩ := ordered
  have wide : ∀ t ∈ tokens, t.span.start < t.span.stop :=
    scanned ▸ Token.start_lt_stop_of_mem_scan
  have stands : ∀ t ∈ tokens, t.StandsIn text.toList :=
    scanned ▸ Token.standsIn_of_mem_scan [] rfl (apartFrom_nil _)
  refine ⟨whole, fun t ht => ⟨?_, wide t ht⟩, ordered.imp fun h => h.2.2, ?_, stands, ?_⟩
  · exact (inFront t ht _ List.mem_cons_self).1
  · intro front c behind h
    have covered := Token.mem_gaps_or_covered (n := 0) front c behind h
    rwa [Nat.zero_add, ← scanned] at covered
  · intro i t found isOpen
    obtain ⟨hi, rfl⟩ := List.getElem?_eq_some_iff.1 found
    by_contra notLast
    have hj : i + 1 < tokens.length := by omega
    -- a further token would begin where the text ends
    obtain ⟨-, -, later⟩ := List.pairwise_iff_getElem.1 ordered i (i + 1) hi hj (Nat.lt_succ_self i)
    rw [(stands _ (List.getElem_mem hi)).stop_eq isOpen] at later
    have notEmpty := wide _ (List.getElem_mem hj)
    have inside := (stands _ (List.getElem_mem hj)).stop_le
    omega

end ConnectorQuery
