import ConnectorQuery.Keyword
import ConnectorQuery.Span
import ConnectorQuery.Vocabulary

/-!
# Statements

A *statement* says which columns of a source go to which target, and under which
clauses:

    INSERT INTO target SELECT a, b.c AS d FROM source PK a LIMIT 10

It is kept as it was written: values are texts with their spans, whether or not
a clause accepts them, and the clauses stand in the order of the text. What a
statement means is the matter of `Query`.
-/

namespace ConnectorQuery

/-- A column of the select list or of a clause: `a`, `a.b.c`, `*`, `a.b AS c`. -/
structure Column where
  /-- The segments of the path in order; a wildcard is the segment `*`. -/
  segments : List String
  /-- The path ends with a dot and no segment after it. -/
  dangling : Bool
  /-- The name behind `AS`. -/
  rename : Option String
  span : Span
  deriving DecidableEq, Repr

/-- A dotted name outside of a select list, such as that of a partition. -/
structure FieldPath where
  name : Located String
  /-- The name ends with a dot and no segment after it. -/
  dangling : Bool
  deriving DecidableEq, Repr

/-- An entry of a tag list: a key, and maybe a value with the text between them:
    `=`, `as`, or anything else that was written there. -/
structure TagEntry where
  key : Located String
  marker : Option (Located String)
  value : Option (Located String)
  span : Span
  deriving DecidableEq, Repr

/-- A pair `name = value` of a parameter list. -/
structure Assignment where
  name : Located String
  value : Located String
  deriving DecidableEq, Repr

/-- A clause behind the source of a statement. -/
inductive Clause
  | flag (f : Flag)
  | setting (s : Setting) (value : Located String)
  | primaryKey (columns : List Column)
  | ignore (columns : List Column)
  | partitionBy (names : List FieldPath)
  | bucketing (names : List FieldPath) (count : Option (Located String))
  | storeAs (type : Located String) (parameters : List Assignment)
  /-- A field, or a call such as `sys_time()`. -/
  | timestamp (value : FieldPath) (call : Bool)
  | tags (entries : List TagEntry)
  | withKeys (keys : List (Located String))
  | properties (entries : List Assignment)
  deriving DecidableEq, Repr

/-- The keyword that a clause is known by: the same one for both spellings of
    bucketing and of tags. -/
def Clause.keyword : Clause → Keyword
  | .flag f => .flag f
  | .setting s _ => .setting s
  | .primaryKey _ => .primaryKey
  | .ignore _ => .ignore
  | .partitionBy _ => .partitionBy
  | .bucketing _ _ => .clusterBy
  | .storeAs _ _ => .storeAs
  | .timestamp _ _ => .withTimestamp
  | .tags _ => .withTag
  | .withKeys _ => .withKey
  | .properties _ => .properties

/-- A statement as it was written. -/
structure Statement where
  /-- The verb, absent where the statement only selects. -/
  verb : Option (Located WriteMode)
  target : Option (Located String)
  columns : List Column
  source : Located String
  clauses : List (Located Clause)
  span : Span
  deriving DecidableEq, Repr

end ConnectorQuery
