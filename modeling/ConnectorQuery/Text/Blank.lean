/-!
# Blanks

A character is *blank* when it has the Unicode property `White_Space`. Blanks
are cut from both ends of the pieces of a batch, of numbers and of the names of
a vocabulary (`trim`), and a text of nothing but blanks counts as no name.

The property is wider than the gaps between tokens (`Token.isGap`): a
no-break space is blank, but it does not separate two tokens.
-/

namespace ConnectorQuery.Text

/-- A blank: a character with the Unicode property `White_Space`. -/
def isBlank (c : Char) : Bool :=
  let n := c.toNat
  (9 ≤ n && n ≤ 13) || n == 0x20 || n == 0x85 || n == 0xA0 || n == 0x1680 ||
    (0x2000 ≤ n && n ≤ 0x200A) || n == 0x2028 || n == 0x2029 || n == 0x202F ||
    n == 0x205F || n == 0x3000

/-- The characters without their blanks in front. -/
def trimStart (cs : List Char) : List Char :=
  cs.dropWhile isBlank

/-- The characters without their blanks at the end. -/
def trimEnd (cs : List Char) : List Char :=
  (cs.reverse.dropWhile isBlank).reverse

/-- The text without the blanks at its two ends. -/
def trim (s : String) : String :=
  String.ofList (trimEnd (trimStart s.toList))

/-- The text holds nothing but blanks. -/
def isAllBlank (s : String) : Bool :=
  s.toList.all isBlank

end ConnectorQuery.Text
