import ConnectorQuery.Json

/-!
# JSON text

A value is written either compactly, without any gaps, or with a line for each
item and member, indented by two spaces per level. Empty arrays and objects take
no lines. In a string, quotes, backslashes and control characters are escaped,
and every other character stands for itself.
-/

namespace ConnectorQuery.Json

/-- The hexadecimal digit of a number below 16. -/
def hexDigit (n : Nat) : Char :=
  if n < 10 then Char.ofNat ('0'.toNat + n) else Char.ofNat ('a'.toNat + (n - 10))

/-- How a character is written inside of a string. -/
def escapeChar (c : Char) : List Char :=
  if c = '"' then ['\\', '"']
  else if c = '\\' then ['\\', '\\']
  else if c = '\n' then ['\\', 'n']
  else if c = '\r' then ['\\', 'r']
  else if c = '\t' then ['\\', 't']
  else if c = '\x08' then ['\\', 'b']
  else if c = '\x0c' then ['\\', 'f']
  else if c.toNat < 0x20 then
    ['\\', 'u', '0', '0', hexDigit (c.toNat / 16), hexDigit (c.toNat % 16)]
  else [c]

/-- A string in quotes. -/
def quote (s : String) : String :=
  "\"" ++ String.ofList (s.toList.flatMap escapeChar) ++ "\""

/-- A number with its decimal point in place. -/
def numberText (mantissa : Int) (scale : Nat) : String :=
  if scale = 0 then toString mantissa
  else
    let digits := (Nat.toDigits 10 mantissa.natAbs).leftpad (scale + 1) '0'
    let whole := digits.length - scale
    (if mantissa < 0 then "-" else "") ++ String.ofList (digits.take whole) ++ "." ++
      String.ofList (digits.drop whole)

/-- The text of a value that holds no others. -/
def scalarText : Json → String
  | .null => "null"
  | .bool b => if b then "true" else "false"
  | .number mantissa scale => numberText mantissa scale
  | .string s => quote s
  | .array _ => "[]"
  | .object _ => "\x7b\x7d"

mutual

/-- The text of a value without gaps. -/
def compact : Json → String
  | .array items => "[" ++ compactItems items ++ "]"
  | .object members => "\x7b" ++ compactMembers members ++ "\x7d"
  | j => scalarText j

/-- Items with commas between them. -/
def compactItems : List Json → String
  | [] => ""
  | [j] => compact j
  | j :: js => compact j ++ "," ++ compactItems js

/-- Members with commas between them. -/
def compactMembers : List (String × Json) → String
  | [] => ""
  | [(name, j)] => quote name ++ ":" ++ compact j
  | (name, j) :: ms => quote name ++ ":" ++ compact j ++ "," ++ compactMembers ms

end

/-- A new line, indented to the given level. -/
def newLine (level : Nat) : String :=
  "\n" ++ String.ofList (List.replicate (2 * level) ' ')

mutual

/-- The text of a value over several lines, inside of `level` others. -/
def indented (level : Nat) : Json → String
  | .array (j :: js) => "[" ++ indentedItems (level + 1) (j :: js) ++ newLine level ++ "]"
  | .object (m :: ms) =>
    "\x7b" ++ indentedMembers (level + 1) (m :: ms) ++ newLine level ++ "\x7d"
  | j => scalarText j

/-- Items on a line each. -/
def indentedItems (level : Nat) : List Json → String
  | [] => ""
  | [j] => newLine level ++ indented level j
  | j :: js => newLine level ++ indented level j ++ "," ++ indentedItems level js

/-- Members on a line each. -/
def indentedMembers (level : Nat) : List (String × Json) → String
  | [] => ""
  | [(name, j)] => newLine level ++ quote name ++ ": " ++ indented level j
  | (name, j) :: ms =>
    newLine level ++ quote name ++ ": " ++ indented level j ++ "," ++ indentedMembers level ms

end

/-- The text of a value, over several lines or not. -/
def toText (j : Json) (pretty : Bool) : String :=
  if pretty then indented 0 j else compact j

end ConnectorQuery.Json
