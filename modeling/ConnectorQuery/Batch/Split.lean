import ConnectorQuery.Text.Blank
import ConnectorQuery.Text.Quote
import ConnectorQuery.Text.Width

/-!
# Splitting batches

A configuration holds several statements in one text. A *splitter* cuts it into
pieces, each with the byte offset at which it begins, so an error in a piece can
be shown in the whole text.

`Splitter.terminated c` cuts at each `c` outside of quotes. A piece loses the
blanks around it, and one of nothing but blanks is left out. `Splitter.single`
takes the whole text for one statement.

* `cut_append`: the segments and the terminators between them make up the text.
-/

namespace ConnectorQuery

/-- A statement's text within a batch. -/
structure Piece where
  /-- The byte offset of the first character within the batch. -/
  offset : Nat
  text : String
  deriving DecidableEq, Repr

/-- A way to cut a text into statements. -/
abbrev Splitter := String → List Piece

/-- The quote that is open behind the character `c`, where `quote` was open in
    front of it. -/
def nextQuote (quote : Option Char) (c : Char) : Option Char :=
  match quote with
  | some q => if c = q then none else some q
  | none => if Text.isQuote c then some c else none

/-- The character `c` ends a statement, where `quote` is open in front of it. A
    quote never does. -/
def isTerminator (terminator : Char) (quote : Option Char) (c : Char) : Bool :=
  quote.isNone && c == terminator && !Text.isQuote c

/-- The segment up to the first terminator, and the segments behind it. -/
def cut (terminator : Char) (quote : Option Char) : List Char → List Char × List (List Char)
  | [] => ([], [])
  | c :: cs =>
    if isTerminator terminator quote c then
      let r := cut terminator none cs
      ([], r.1 :: r.2)
    else
      let r := cut terminator (nextQuote quote c) cs
      (c :: r.1, r.2)

theorem cut_append (terminator : Char) (quote : Option Char) (cs : List Char) :
    (cut terminator quote cs).1 ++ (cut terminator quote cs).2.flatMap (terminator :: ·) = cs := by
  induction cs generalizing quote with
  | nil => rfl
  | cons c cs ih =>
    unfold cut
    split
    · rename_i h
      simp only [isTerminator, Bool.and_eq_true, beq_iff_eq] at h
      simp [h.1.2, ih none]
    · simp [ih (nextQuote quote c)]

/-- The piece in a segment that begins at `offset`: the segment without the
    blanks around it, unless nothing is left. -/
def Piece.ofSegment? (offset : Nat) (segment : List Char) : Option Piece :=
  let kept := Text.trimEnd (Text.trimStart segment)
  if kept.isEmpty then none
  else some ⟨offset + Text.width (segment.takeWhile Text.isBlank), String.ofList kept⟩

/-- The pieces in a list of segments that begins at `offset`, with a terminator
    between each two. -/
def placePieces (terminator : Char) (offset : Nat) : List (List Char) → List Piece
  | [] => []
  | s :: ss =>
    let rest := placePieces terminator (offset + Text.width s + terminator.utf8Size) ss
    match Piece.ofSegment? offset s with
    | some p => p :: rest
    | none => rest

namespace Splitter

/-- Cut at each terminator outside of quotes. -/
def terminated (terminator : Char) : Splitter := fun text =>
  let segments := cut terminator none text.toList
  placePieces terminator 0 (segments.1 :: segments.2)

/-- Take the whole text for one statement, unless it is blank. -/
def single : Splitter := fun text =>
  if Text.isAllBlank text then [] else [⟨0, text⟩]

/-- Cut at semicolons. -/
def standard : Splitter := terminated ';'

end Splitter

end ConnectorQuery
