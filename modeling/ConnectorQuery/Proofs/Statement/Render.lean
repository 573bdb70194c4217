import ConnectorQuery.Proofs.Grammar
import ConnectorQuery.Proofs.Token.Writing

/-!
# Writing statements

The text of a statement: its keywords and marks, and every name in quotes, with
single spaces between them. Only a column is written without spaces, its
segments joined by dots, and a path that dangles, whose last dot stands behind
the quotes.

Some things may be written in two ways (`Manner`): an equals sign in front of a
value may be left out, two clauses have two keywords each, and a statement may
end with a semicolon.
-/

namespace ConnectorQuery

/-- How a clause is written where there are two ways. -/
structure Manner where
  /-- With an equals sign in front of its value. -/
  equals : Bool
  /-- With the other one of two keywords. -/
  other : Bool

namespace Part

/-- A dot behind a name. -/
def dot : Part :=
  (mark .dot).glue

/-- Items with commas between them. -/
def list {α : Type} (item : α → List Part) : List α → List Part
  | [] => []
  | [a] => item a
  | a :: as => item a ++ mark .comma :: list item as

/-- Something in parentheses. -/
def enclosed (ps : List Part) : List Part :=
  mark .openParen :: (ps ++ [mark .closeParen])

end Part

open ConnectorQuery.Part

/-- The equals sign in front of a value. -/
def Manner.equalsSign (m : Manner) : List Part :=
  if m.equals then [mark .equals] else []

/-- The text without its last character. -/
def Text.dropLast (s : String) : String :=
  String.ofList s.toList.dropLast

/-- A path in quotes; if it dangles, its last dot stands behind them. -/
def FieldPath.parts (p : FieldPath) : List Part :=
  if p.dangling then [Part.name (Text.dropLast p.name.val), dot] else [Part.name p.name.val]

/-- The segments of a column behind its first one. -/
def Column.furtherParts (segments : List String) : List Part :=
  segments.flatMap fun s => [dot, (Part.name s).glue]

/-- A column. -/
def Column.parts (c : Column) : List Part :=
  match c.segments with
  | [] => []
  | s :: ss => Part.name s :: (furtherParts ss ++ (if c.dangling then [dot] else []) ++
      c.rename.elim [] fun name => [keyword .as, Part.name name])

/-- The token between the key and the value of a tag. -/
def TagEntry.markerPart (marker : String) : Part :=
  if marker = "=" then mark .equals else word marker

/-- A tag. -/
def TagEntry.parts (e : TagEntry) : List Part :=
  match e.marker, e.value with
  | some marker, some value =>
    [Part.name e.key.val, markerPart marker.val, Part.name value.val]
  | _, _ => [Part.name e.key.val]

/-- A pair. -/
def Assignment.parts (a : Assignment) : List Part :=
  [Part.name a.name.val, mark .equals, Part.name a.value.val]

namespace Clause

/-- The keyword that a clause is written with. -/
def writtenKeyword (m : Manner) : Clause → Keyword
  | .bucketing _ _ => if m.other then .distributeBy else .clusterBy
  | .tags _ => if m.other then .withTags else .withTag
  | c => c.keyword

/-- What stands behind the keyword of a clause. -/
def bodyParts (m : Manner) : Clause → List Part
  | .flag _ => []
  | .setting _ value => m.equalsSign ++ [Part.name value.val]
  | .primaryKey columns | .ignore columns => Part.list Column.parts columns
  | .partitionBy names => Part.list FieldPath.parts names
  | .bucketing names count => Part.list FieldPath.parts names ++
      count.elim [] fun n => [Part.keyword .into, Part.name n.val, Part.keyword .buckets]
  | .storeAs type parameters => m.equalsSign ++ Part.name type.val ::
      (if parameters.isEmpty then [] else enclosed (Part.list Assignment.parts parameters))
  | .timestamp path call => m.equalsSign ++ (path.parts ++ if call then enclosed [] else [])
  | .tags entries => enclosed (Part.list TagEntry.parts entries)
  | .withKeys keys => m.equalsSign ++ enclosed (Part.list (fun k => [Part.name k.val]) keys)
  | .properties entries => m.equalsSign ++ enclosed (Part.list Assignment.parts entries)

/-- A clause. -/
def parts (m : Manner) (c : Clause) : List Part :=
  Part.keyword (c.writtenKeyword m) :: c.bodyParts m

end Clause

namespace Statement

/-- The verb and the target of a statement that has both. -/
def intoParts (st : Statement) : List Part :=
  match st.verb, st.target with
  | some verb, some target =>
    [keyword (Grammar.verbKeyword verb.val), keyword .into, Part.name target.val]
  | _, _ => []

/-- The clauses, the first one in the manner `manner 0`, and so on. -/
def clauseParts (manner : Nat → Manner) : List (Located Clause) → List Part
  | [] => []
  | c :: cs => c.val.parts (manner 0) ++ clauseParts (fun i => manner (i + 1)) cs

/-- What stands behind `SELECT`. -/
def selectionParts (manner : Nat → Manner) (semicolon : Bool) (st : Statement) : List Part :=
  Part.list Column.parts st.columns ++ keyword .from :: Part.name st.source.val ::
    (clauseParts manner st.clauses ++ if semicolon then [mark .semicolon] else [])

/-- A statement. -/
def parts (manner : Nat → Manner) (semicolon : Bool) (st : Statement) : List Part :=
  st.intoParts ++ keyword .select :: st.selectionParts manner semicolon

/-- The text of a statement whose clauses are written in the given manners. -/
def render (manner : Nat → Manner) (semicolon : Bool) (st : Statement) : String :=
  Part.written (st.parts manner semicolon)

end Statement

end ConnectorQuery
