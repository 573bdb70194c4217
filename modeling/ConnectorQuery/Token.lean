import ConnectorQuery.Keyword
import ConnectorQuery.Span
import ConnectorQuery.Text.Quote
import ConnectorQuery.Text.Width

/-!
# Tokens

A statement is read as a list of tokens: keywords, punctuation marks, bare words
and quoted names. A token keeps its text and the span of it, and ends of texts
are tokens too, so a complaint about a missing word has a place to point at.
-/

namespace ConnectorQuery

/-- A punctuation mark. -/
inductive Mark
  | equals
  | comma
  | openParen
  | closeParen
  | dot
  | star
  | semicolon
  deriving DecidableEq, Repr

namespace Mark

/-- Every mark. -/
def all : List Mark :=
  [equals, comma, openParen, closeParen, dot, star, semicolon]

/-- The character of a mark. -/
def char : Mark → Char
  | equals => '='
  | comma => ','
  | openParen => '('
  | closeParen => ')'
  | dot => '.'
  | star => '*'
  | semicolon => ';'

/-- The mark that a character stands for. -/
def ofChar? (c : Char) : Option Mark :=
  all.find? fun m => m.char == c

theorem char_of_ofChar? {c : Char} {m : Mark} (h : ofChar? c = some m) : m.char = c := by
  simpa [ofChar?] using List.find?_some h

end Mark

/-- What sort of token a piece of text is. -/
inductive TokenKind
  | keyword (k : Keyword)
  | mark (m : Mark)
  /-- A bare name, number or value. -/
  | word
  /-- A name between backticks. -/
  | backtick
  /-- A name between single quotes. -/
  | quoted
  /-- A quote that is never closed, with all that follows it. -/
  | unrecognised
  | endOfText
  deriving DecidableEq, Repr

namespace TokenKind

/-- The token stands for a name or a value. -/
def isValue : TokenKind → Bool
  | word | backtick | quoted => true
  | _ => false

def isKeyword : TokenKind → Bool
  | keyword _ => true
  | _ => false

/-- How a complaint calls a token of this kind. -/
def describe : TokenKind → String
  | keyword k => "'" ++ k.spelling ++ "'"
  | mark m => "'" ++ m.char.toString ++ "'"
  | word => "identifier"
  | backtick => "backtick-quoted name"
  | quoted => "quoted string"
  | unrecognised => "unrecognised input"
  | endOfText => "end of statement"

end TokenKind

/-- A piece of a statement's text. -/
structure Token where
  kind : TokenKind
  /-- The characters of the token, quotes included. -/
  text : String
  span : Span
  deriving DecidableEq, Repr

namespace Token

/-- The name or value that the token stands for: its text without quotes. -/
def value (t : Token) : String :=
  match t.kind with
  | .backtick | .quoted => Text.unquote t.text
  | _ => t.text

/-- The end of a text of `n` bytes. -/
def endAt (n : Nat) : Token :=
  ⟨.endOfText, "", ⟨n, n⟩⟩

/-- There is no gap between the place `n` and the token. -/
def startsAt (t : Token) (n : Nat) : Bool :=
  t.span.start == n

end Token

end ConnectorQuery
