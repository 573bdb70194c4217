import ConnectorQuery.Token.Scan

/-!
# Writing tokens

Tokens are written one behind the other, with a space in front of each unless it
is *glued* to the one before (`Part`). Scanning what was written gives the same
tokens back, as long as each part is a lexeme of its own (`IsLexeme`) and no
word is glued to another token, since it would be read as part of it.

* `Lexeme.first_of_isLexeme`: a lexeme is what is read first from a text that
  opens with it;
* `Part.scan_behind`: the tokens of what was written.
-/

namespace ConnectorQuery

/-- A token to be written. -/
structure Part where
  /-- No space is written in front of the token. -/
  glued : Bool
  kind : TokenKind
  text : List Char

namespace Part

/-- The characters of the parts, as they are written behind another token. -/
def behind : List Part → List Char
  | [] => []
  | p :: ps => (if p.glued then [] else [' ']) ++ (p.text ++ behind ps)

/-- Where the part starts when the text in front of it ends at `n`. -/
def startAt (p : Part) (n : Nat) : Nat :=
  if p.glued then n else n + 1

/-- The part as a token of a text, when the text in front of it ends at `n`. -/
def token (p : Part) (n : Nat) : Token :=
  ⟨p.kind, String.ofList p.text, ⟨p.startAt n, p.startAt n + Text.width p.text⟩⟩

/-- Where the parts end when the text in front of them ends at `n`. -/
def stopAt (n : Nat) : List Part → Nat
  | [] => n
  | p :: ps => stopAt (p.token n).span.stop ps

/-- The tokens of the parts, when the text in front of them ends at `n`. -/
def tokens (n : Nat) : List Part → List Token
  | [] => []
  | p :: ps => p.token n :: tokens (p.token n).span.stop ps

/-- Parts in a row are tokens in a row. -/
@[simp] theorem tokens_append (n : Nat) (ps qs : List Part) :
    tokens n (ps ++ qs) = tokens n ps ++ tokens (stopAt n ps) qs := by
  induction ps generalizing n with
  | nil => rfl
  | cons p ps ih => rw [List.cons_append, tokens, ih, tokens, stopAt, List.cons_append]

@[simp] theorem stopAt_append (n : Nat) (ps qs : List Part) :
    stopAt n (ps ++ qs) = stopAt (stopAt n ps) qs := by
  induction ps generalizing n with
  | nil => rfl
  | cons p ps ih => rw [List.cons_append, stopAt, ih, stopAt]

/-- What is written behind `n` ends as far on as it is wide. -/
theorem stopAt_eq_add_width (n : Nat) (ps : List Part) :
    stopAt n ps = n + Text.width (behind ps) := by
  induction ps generalizing n with
  | nil => rfl
  | cons p ps ih =>
    rw [stopAt, ih, behind, Text.width_append, Text.width_append, token, startAt]
    cases p.glued with
    | true => simp [Nat.add_assoc]
    | false => simp [Nat.add_assoc, show ' '.utf8Size = 1 from rfl]

end Part

/-! ## Lexemes -/

/-- The text is a whole token of the kind. -/
inductive IsLexeme : TokenKind → List Char → Prop
  | mark (m : Mark) : IsLexeme (.mark m) [m.char]
  | literal {q : Char} {cs : List Char} :
      Text.isQuote q → q ∉ cs → IsLexeme (.ofQuote q) (q :: (cs ++ [q]))
  | word {c : Char} {cs : List Char} :
      (∀ x ∈ c :: cs, Token.isWordChar x) →
      IsLexeme (.ofWord (String.ofList (c :: cs))) (c :: cs)

theorem IsLexeme.ne_nil {k : TokenKind} {text : List Char} (h : IsLexeme k text) : text ≠ [] := by
  cases h <;> exact List.cons_ne_nil _ _

/-- No character of a word stands first in the text. -/
def EndsWord (text : List Char) : Prop :=
  ∀ c ∈ text.head?, Token.isWordChar c = false

/-- What ends a word adds nothing to it. -/
theorem EndsWord.takeWhile {text : List Char} (h : EndsWord text) :
    text.takeWhile Token.isWordChar = [] ∧ text.dropWhile Token.isWordChar = text := by
  cases text with
  | nil => exact ⟨rfl, rfl⟩
  | cons c cs =>
    have hc : Token.isWordChar c = false := h c rfl
    exact ⟨List.takeWhile_cons_of_neg (Bool.eq_false_iff.1 hc),
      List.dropWhile_cons_of_neg (Bool.eq_false_iff.1 hc)⟩

/-- A word goes on until a gap, a quotation mark or a mark. -/
theorem Token.isWordChar_iff {c : Char} : isWordChar c = true ↔
    isGap c = false ∧ Text.isQuote c = false ∧ Mark.ofChar? c = none := by
  simp [isWordChar, and_assoc]

theorem Text.eq_of_isQuote {q : Char} (h : isQuote q = true) : q = '\x60' ∨ q = '\'' := by
  simpa [isQuote] using h

/-- The letters of a word may be in any case. -/
theorem Token.isWordChar_of_toLower {c : Char} (h : isWordChar c.toLower = true) :
    isWordChar c = true := by
  refine isWordChar_iff.2
    ⟨Bool.eq_false_iff.2 fun gap => ?_, Bool.eq_false_iff.2 fun quote => ?_, ?_⟩
  · have gaps : c = ' ' ∨ c = '\t' ∨ c = '\r' ∨ c = '\n' ∨ c = '\x0c' := by
      simpa [isGap, or_assoc] using gap
    rcases gaps with rfl | rfl | rfl | rfl | rfl <;> exact absurd h (by decide)
  · rcases Text.eq_of_isQuote quote with rfl | rfl <;> exact absurd h (by decide)
  · cases hm : Mark.ofChar? c with
    | none => rfl
    | some m =>
      obtain rfl := Mark.char_of_ofChar? hm
      cases m <;> exact absurd h (by decide)

namespace Lexeme

/-- A lexeme is not read together with what is behind it, unless that could be
    part of a word. -/
theorem first_of_isLexeme {k : TokenKind} {c : Char} {cs rest : List Char}
    (h : IsLexeme k (c :: cs)) (hrest : EndsWord rest) :
    Token.isGap c = false ∧ first c (cs ++ rest) = ⟨k, c :: cs, rest⟩ := by
  generalize htext : c :: cs = text at h
  cases h with
  | mark m =>
    obtain ⟨rfl, rfl⟩ := List.cons.inj htext
    cases m <;> exact ⟨rfl, rfl⟩
  | @literal q content isQuote notIn =>
    obtain ⟨rfl, rfl⟩ := List.cons.inj htext
    obtain ⟨notGap, notMark⟩ : Token.isGap c = false ∧ Mark.ofChar? c = none := by
      rcases Text.eq_of_isQuote isQuote with rfl | rfl <;> exact ⟨rfl, rfl⟩
    -- the literal goes up to its closing mark, whatever is written behind it
    have inside : ∀ x ∈ content, (x != c) = true :=
      fun x hx => bne_iff_ne.2 fun h => notIn (h ▸ hx)
    refine ⟨notGap, ?_⟩
    rw [first, notMark]
    simp only [isQuote, if_true, literal, List.append_assoc, List.takeWhile_append_of_pos inside,
      List.dropWhile_append_of_pos inside]
    simp
  | @word c' cs' allWord =>
    obtain ⟨rfl, rfl⟩ := List.cons.inj htext
    obtain ⟨hc, hcs⟩ := List.forall_mem_cons.1 allWord
    obtain ⟨notGap, notQuote, notMark⟩ := Token.isWordChar_iff.1 hc
    refine ⟨notGap, ?_⟩
    rw [first, notMark]
    simp only [notQuote, bare, List.takeWhile_append_of_pos hcs, List.dropWhile_append_of_pos hcs,
      hrest.takeWhile, List.append_nil]
    rfl

end Lexeme

/-! ## Scanning what was written -/

namespace Part

/-- The part can be written behind any other: it is a lexeme, and it is not
    read together with a word that it is glued to. -/
structure Fits (p : Part) : Prop where
  isLexeme : IsLexeme p.kind p.text
  apart : p.glued → EndsWord p.text

/-- Parts with a space in front end a word, and so do glued marks. -/
theorem endsWord_behind {ps : List Part} (h : ∀ p ∈ ps, p.Fits) : EndsWord (behind ps) := by
  cases ps with
  | nil => exact nofun
  | cons p ps =>
    obtain ⟨isLexeme, apart⟩ := h p List.mem_cons_self
    rw [behind]
    cases hg : p.glued with
    | true =>
      obtain ⟨c, cs, hcs⟩ := List.exists_cons_of_ne_nil isLexeme.ne_nil
      rw [hcs] at apart ⊢
      exact apart hg
    | false =>
      intro c hc
      obtain rfl : ' ' = c := Option.some.inj hc
      rfl

/-- What was written is scanned as its parts. -/
theorem scan_behind {ps : List Part} (n : Nat) (h : ∀ p ∈ ps, IsLexeme p.kind p.text)
    (htail : ∀ p ∈ ps.tail, p.Fits) : Token.scan n (behind ps) = tokens n ps := by
  induction ps generalizing n with
  | nil => exact Token.scan.eq_1 n
  | cons p ps ih =>
    have isLexeme := h p List.mem_cons_self
    have htail : ∀ q ∈ ps, q.Fits := htail
    have rest := ih (p.token n).span.stop (fun q hq => h q (List.mem_cons_of_mem _ hq))
      fun q hq => htail q (List.mem_of_mem_tail hq)
    -- the part alone, from where its text starts
    have one (m : Nat) : Token.scan m (p.text ++ behind ps) =
        ⟨p.kind, String.ofList p.text, ⟨m, m + Text.width p.text⟩⟩ ::
          Token.scan (m + Text.width p.text) (behind ps) := by
      obtain ⟨c, cs, hcs⟩ := List.exists_cons_of_ne_nil isLexeme.ne_nil
      rw [hcs] at isLexeme ⊢
      obtain ⟨notGap, hfirst⟩ := Lexeme.first_of_isLexeme isLexeme (endsWord_behind htail)
      rw [List.cons_append, Token.scan, notGap, if_neg Bool.false_ne_true, hfirst]
    rw [behind, tokens, ← rest]
    cases hg : p.glued with
    | true =>
      rw [if_pos rfl, List.nil_append, one, token, startAt, hg, if_pos rfl]
    | false =>
      have gap : Token.isGap ' ' = true := rfl
      rw [if_neg Bool.false_ne_true, List.singleton_append, Token.scan, if_pos gap, one, token,
        startAt, hg, if_neg Bool.false_ne_true]
      rfl

/-- The part without a space in front. -/
def glue (p : Part) : Part :=
  { p with glued := true }

/-- The text of the parts, with no space in front of the first one. -/
def written : List Part → String
  | [] => ""
  | p :: ps => String.ofList (behind (p.glue :: ps))

/-- The tokens of what was written are the parts that it was written from. -/
theorem tokenize_written {p : Part} {ps : List Part} (h : ∀ q ∈ p :: ps, q.Fits) :
    Token.tokenize (written (p :: ps)) =
      tokens 0 (p.glue :: ps) ++ [.endAt (stopAt 0 (p.glue :: ps))] := by
  obtain ⟨first, rest⟩ := List.forall_mem_cons.1 h
  have lexemes : ∀ q ∈ p.glue :: ps, IsLexeme q.kind q.text :=
    List.forall_mem_cons.2 ⟨first.isLexeme, fun q hq => (rest q hq).isLexeme⟩
  rw [Token.tokenize, written, String.toList_ofList, scan_behind 0 lexemes rest,
    stopAt_eq_add_width, Nat.zero_add]

end Part

/-! ## Keywords, marks and names -/

namespace Keyword

/-- A keyword is known by its spelling. -/
theorem ofText?_spelling (k : Keyword) : ofText? k.spelling = some k := by
  have all : ∀ k ∈ all, ofText? k.spelling = some k := by decide +kernel
  exact all k (mem_all k)

theorem spelling_ne_nil (k : Keyword) : k.spelling.toList ≠ [] := by
  have all : ∀ k ∈ all, k.spelling.toList ≠ [] := by decide +kernel
  exact all k (mem_all k)

/-- The spelling of a keyword is a word, also in lower case. -/
theorem isWordChar_toLower_spelling (k : Keyword) :
    ∀ c ∈ k.spelling.toList, Token.isWordChar c.toLower := by
  have all : (all.all fun k => k.spelling.toList.all fun c => Token.isWordChar c.toLower) = true :=
    by decide +kernel
  exact List.all_eq_true.1 (List.all_eq_true.1 all k (mem_all k))

/-- A keyword is recognised in every case of its letters. -/
theorem ofText?_of_eqIgnoringCase {k : Keyword} {word : String}
    (h : Text.eqIgnoringCase k.spelling word = true) : ofText? word = some k := by
  have same : (fun k' : Keyword => Text.eqIgnoringCase k'.spelling word) =
      fun k' => Text.eqIgnoringCase k'.spelling k.spelling := by
    funext k'
    rw [Text.eqIgnoringCase, Text.eqIgnoringCase, Text.eqIgnoringCase_iff.1 h]
  rw [← ofText?_spelling k, ofText?, ofText?, same]

end Keyword

/-- The text can be written between quotes. -/
def Text.Quotable (s : String) : Prop :=
  '\x60' ∉ s.toList ∨ '\'' ∉ s.toList

instance (s : String) : Decidable (Text.Quotable s) :=
  inferInstanceAs (Decidable (_ ∨ _))

/-- The quote that a text is written between: a backtick, unless there is one in
    the text. -/
def Text.quoteFor (s : String) : Char :=
  if '\x60' ∈ s.toList then '\'' else '\x60'

theorem Text.isQuote_quoteFor (s : String) : isQuote (quoteFor s) = true := by
  rw [quoteFor]
  split <;> rfl

/-- The quotation mark for a text is not in it. -/
theorem Text.Quotable.quoteFor_notMem {s : String} (h : Quotable s) :
    quoteFor s ∉ s.toList := by
  rw [quoteFor]
  split
  · rename_i backtick
    exact h.resolve_left (not_not_intro backtick)
  · assumption

namespace Part

/-- A keyword, in its spelling. -/
def keyword (k : Keyword) : Part :=
  ⟨false, .keyword k, k.spelling.toList⟩

/-- A mark. -/
def mark (m : Mark) : Part :=
  ⟨false, .mark m, [m.char]⟩

/-- A bare word, which may be a keyword. -/
def word (s : String) : Part :=
  ⟨false, .ofWord s, s.toList⟩

/-- A name between quotes. -/
def name (s : String) : Part :=
  ⟨false, .ofQuote (Text.quoteFor s), Text.quoteFor s :: (s.toList ++ [Text.quoteFor s])⟩

/-- A word is one lexeme. -/
theorem isLexeme_word {s : String} (hne : s.toList ≠ [])
    (hs : ∀ c ∈ s.toList, Token.isWordChar c) : IsLexeme (word s).kind (word s).text := by
  obtain ⟨c, cs, hcs⟩ := List.exists_cons_of_ne_nil hne
  rw [hcs] at hs
  have isLexeme := IsLexeme.word hs
  rw [← hcs, String.ofList_toList] at isLexeme
  exact isLexeme

/-- A keyword can be written in every case of its letters. -/
theorem fits_word {k : Keyword} {s : String} (h : Text.eqIgnoringCase k.spelling s = true) :
    (word s).Fits ∧ (word s).kind = .keyword k := by
  have folded : k.spelling.toList.map Char.toLower = s.toList.map Char.toLower :=
    String.ofList_inj.1 (Text.eqIgnoringCase_iff.1 h)
  have hne : s.toList ≠ [] := by
    intro nil
    rw [nil, List.map_nil, List.map_eq_nil_iff] at folded
    exact k.spelling_ne_nil folded
  have isWord : ∀ c ∈ s.toList, Token.isWordChar c := by
    intro c hc
    have hlower := List.mem_map_of_mem (f := Char.toLower) hc
    rw [← folded] at hlower
    obtain ⟨d, hd, hdc⟩ := List.mem_map.1 hlower
    exact Token.isWordChar_of_toLower (hdc ▸ k.isWordChar_toLower_spelling d hd)
  refine ⟨⟨isLexeme_word hne isWord, nofun⟩, ?_⟩
  rw [word, TokenKind.ofWord, Keyword.ofText?_of_eqIgnoringCase h]

/-- A keyword can be written as a word. -/
theorem fits_keyword (k : Keyword) : (keyword k).Fits := by
  obtain ⟨fits, kind⟩ := fits_word (Text.eqIgnoringCase_refl k.spelling)
  have same : keyword k = word k.spelling := by rw [keyword, ← kind, word]
  exact same ▸ fits

theorem fits_mark (m : Mark) : (mark m).Fits :=
  ⟨.mark m, nofun⟩

/-- A text that can be quoted can be written as a name. -/
theorem fits_name {s : String} (h : Text.Quotable s) : (name s).Fits :=
  ⟨.literal (Text.isQuote_quoteFor s) h.quoteFor_notMem, nofun⟩

theorem fits_glue_mark (m : Mark) : (mark m).glue.Fits := by
  refine ⟨.mark m, fun _ c hc => ?_⟩
  obtain rfl : m.char = c := Option.some.inj hc
  cases m <;> rfl

/-- A name can be glued to what is in front: it begins with its quotation mark. -/
theorem fits_glue_name {s : String} (h : Text.Quotable s) : (name s).glue.Fits := by
  refine ⟨(fits_name h).isLexeme, fun _ c hc => ?_⟩
  obtain rfl : Text.quoteFor s = c := Option.some.inj hc
  rcases Text.eq_of_isQuote (Text.isQuote_quoteFor s) with h | h <;> rw [h] <;> rfl

theorem kind_name (s : String) : (name s).kind = .quoted ∨ (name s).kind = .backtick := by
  change TokenKind.ofQuote (Text.quoteFor s) = _ ∨ TokenKind.ofQuote (Text.quoteFor s) = _
  rw [TokenKind.ofQuote]
  split
  · exact .inl rfl
  · exact .inr rfl

/-- A name in quotation marks is a value. -/
theorem isValue_name (s : String) : (name s).kind.isValue = true := by
  rcases kind_name s with h | h <;> rw [h] <;> rfl

/-- A name in quotes stands for the text that was written. -/
theorem value_name {t : Token} {s : String} (hk : t.kind = (name s).kind)
    (ht : t.text = String.ofList (name s).text) : t.value = s := by
  have value : t.value = Text.unquote t.text := by
    rcases kind_name s with h | h <;> rw [Token.value, hk, h]
  rw [value, ht, name, Text.unquote_quoted (Text.isQuote_quoteFor s), String.ofList_toList]

end Part

end ConnectorQuery
