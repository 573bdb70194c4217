import ConnectorQuery.Token

/-!
# Cursors

Reading a statement goes through its tokens from left to right, one token at a
time. A *cursor* is a place on that way: the token at hand, the tokens ahead of
it, and the end of the last token that was passed.

There is always a token at hand. The last one is never passed, so whoever reads
on sees it again; on a whole text it is the end of the text.

* `advance_tokens_suffix`: advancing never goes back;
* `advance_eq_self`: at the last token it stays in place.
-/

namespace ConnectorQuery

/-- A place in a list of tokens. -/
structure Cursor where
  /-- The token at hand. -/
  here : Token
  ahead : List Token
  /-- Where the last token that was passed ends; 0 before the first one. -/
  passed : Nat

namespace Cursor

/-- The place before the first token. Where there are no tokens, the end of a
    text of `width` bytes is at hand. -/
def ofTokens (width : Nat) : List Token → Cursor
  | [] => ⟨.endAt width, [], 0⟩
  | t :: ts => ⟨t, ts, 0⟩

/-- The tokens from the one at hand on. -/
def tokens (c : Cursor) : List Token :=
  c.here :: c.ahead

/-- The place behind the token at hand, unless it is the last one. -/
def advance (c : Cursor) : Cursor :=
  match c.ahead with
  | [] => c
  | t :: ts => ⟨t, ts, c.here.span.stop⟩

/-- The kind of the token behind the one at hand; behind the last one the text
    ends. -/
def nextKind (c : Cursor) : TokenKind :=
  match c.ahead with
  | [] => .endOfText
  | t :: _ => t.kind

theorem advance_eq_self {c : Cursor} (h : c.ahead = []) : c.advance = c := by
  simp [advance, h]

theorem advance_tokens_suffix (c : Cursor) : c.advance.tokens <:+ c.tokens := by
  obtain ⟨here, ahead, passed⟩ := c
  cases ahead with
  | nil => exact List.suffix_refl _
  | cons t ts => exact List.suffix_cons _ _

theorem advance_ahead_length (c : Cursor) :
    c.advance.ahead.length = c.ahead.length - 1 := by
  obtain ⟨here, ahead, passed⟩ := c
  cases ahead <;> rfl

end Cursor

end ConnectorQuery
