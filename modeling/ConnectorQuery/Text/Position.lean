import ConnectorQuery.Text.Width

/-!
# Lines and columns

A *position* is a line and a column, both counted from 1. A line feed ends a
line, every other character takes one column, whatever its width in bytes.

* `after_append`: positions compose, so the position in a text of many
  statements follows from the one in its own statement.
-/

namespace ConnectorQuery

/-- A line and a column, counted from 1. -/
structure Position where
  line : Nat
  column : Nat
  deriving DecidableEq, Repr, Inhabited

namespace Position

/-- The position of the first character of a text. -/
def start : Position := ⟨1, 1⟩

/-- The position behind the character `c` at `p`. -/
def step (p : Position) (c : Char) : Position :=
  if c = '\n' then ⟨p.line + 1, 1⟩ else ⟨p.line, p.column + 1⟩

/-- The position behind the characters that begin at `p`. -/
def after (p : Position) (cs : List Char) : Position :=
  cs.foldl step p

theorem after_append (p : Position) (xs ys : List Char) :
    p.after (xs ++ ys) = (p.after xs).after ys :=
  List.foldl_append

/-- The position of the byte offset `n` of a text: that of the first character
    that does not end within `n` bytes. -/
def ofOffset (text : String) (n : Nat) : Position :=
  start.after (Text.within text.toList n)

/-- The position of a byte offset, or nothing when the offset cuts a
    character. -/
def ofBoundary? (text : String) (n : Nat) : Option Position :=
  if Text.IsBoundary text.toList n then some (ofOffset text n) else none

end Position

end ConnectorQuery
