import ConnectorQuery.Token

/-!
# Scanning

A text is cut into tokens from the left: blanks of the gap are passed over, and
at any other character the longest *lexeme* is taken. Which one it is shows at
that character: a mark is a lexeme alone, a quote takes all up to the next quote
of its kind, and any other character opens a word, which ends before the next
gap, mark or quote. A whole word that spells a keyword is one.

* `Lexeme.text_append_rest`: a lexeme and what is behind it make up the text;
* `Lexeme.rest_length_le`: so scanning comes to an end;
* `tokenize`: the tokens of a text, closed by its end.
-/

namespace ConnectorQuery

/-- A gap between tokens: space, tab, carriage return, line feed, form feed. -/
def Token.isGap (c : Char) : Bool :=
  c == ' ' || c == '\t' || c == '\r' || c == '\n' || c == '\x0c'

/-- A character that may stand in a bare word. -/
def Token.isWordChar (c : Char) : Bool :=
  !Token.isGap c && !Text.isQuote c && (Mark.ofChar? c).isNone

/-- The kind of a bare word. -/
def TokenKind.ofWord (word : String) : TokenKind :=
  match Keyword.ofText? word with
  | some k => .keyword k
  | none => .word

/-- The kind of a closed literal with the quote `q`. -/
def TokenKind.ofQuote (q : Char) : TokenKind :=
  if q = '\'' then .quoted else .backtick

/-- The first token of a text, and the text behind it. -/
structure Lexeme where
  kind : TokenKind
  text : List Char
  rest : List Char

namespace Lexeme

/-- A literal opened by the quote `q`, up to the next `q`, or up to the end of
    the text where there is none. -/
def literal (q : Char) (cs : List Char) : Lexeme :=
  match cs.dropWhile (· != q) with
  | [] => ⟨.unrecognised, q :: cs, []⟩
  | close :: rest => ⟨.ofQuote q, q :: (cs.takeWhile (· != q) ++ [close]), rest⟩

/-- A bare word opened by the character `c`. -/
def bare (c : Char) (cs : List Char) : Lexeme :=
  let word := c :: cs.takeWhile Token.isWordChar
  ⟨.ofWord (String.ofList word), word, cs.dropWhile Token.isWordChar⟩

/-- The lexeme that a text opens with, whose first character `c` is no gap. -/
def first (c : Char) (cs : List Char) : Lexeme :=
  match Mark.ofChar? c with
  | some m => ⟨.mark m, [c], cs⟩
  | none => if Text.isQuote c then literal c cs else bare c cs

theorem literal_text_append_rest (q : Char) (cs : List Char) :
    (literal q cs).text ++ (literal q cs).rest = q :: cs := by
  have split := List.takeWhile_append_dropWhile (p := (· != q)) (l := cs)
  unfold literal
  cases h : cs.dropWhile (· != q) with
  | nil => simp
  | cons close rest => rw [h] at split; simpa using split

theorem text_append_rest (c : Char) (cs : List Char) :
    (first c cs).text ++ (first c cs).rest = c :: cs := by
  unfold first
  cases Mark.ofChar? c with
  | some m => simp
  | none =>
    by_cases h : Text.isQuote c = true
    · simp [h, literal_text_append_rest]
    · simp [h, bare, List.takeWhile_append_dropWhile]

theorem text_ne_nil (c : Char) (cs : List Char) : (first c cs).text ≠ [] := by
  unfold first
  cases Mark.ofChar? c with
  | some m => simp
  | none =>
    by_cases h : Text.isQuote c = true
    · simp only [h, if_true]
      unfold literal
      split <;> simp
    · simp [h, bare]

theorem rest_length_le (c : Char) (cs : List Char) :
    (first c cs).rest.length ≤ cs.length := by
  have total := congrArg List.length (text_append_rest c cs)
  have one : 0 < (first c cs).text.length := List.length_pos_iff.2 (text_ne_nil c cs)
  simp only [List.length_append, List.length_cons] at total
  omega

end Lexeme

namespace Token

/-- The tokens of the characters, the first of which stands at the byte offset
    `n`. -/
def scan (n : Nat) : List Char → List Token
  | [] => []
  | c :: cs =>
    if isGap c then scan (n + c.utf8Size) cs
    else
      let lexeme := Lexeme.first c cs
      let stop := n + Text.width lexeme.text
      ⟨lexeme.kind, String.ofList lexeme.text, ⟨n, stop⟩⟩ :: scan stop lexeme.rest
termination_by cs => cs.length
decreasing_by
  · simp
  · have := Lexeme.rest_length_le c cs
    simp only [List.length_cons]
    omega

/-- The tokens of a text, closed by the end of the text. -/
def tokenize (text : String) : List Token :=
  scan 0 text.toList ++ [endAt (Text.width text.toList)]

end Token

end ConnectorQuery
