import ConnectorQuery.Mapping

/-!
# The log

While a text is parsed and a batch is mapped, *records* tell how it goes: which statement
was read, which clause is applied, which statement was mapped or rejected. How a record is
written, and whether it is, depends on how the log is set up.

* `Query.parseLog`: the records of one statement;
* `Mapper.mapLog`: the records of a batch.
-/

namespace ConnectorQuery

/-- How much a record matters. -/
inductive LogLevel
  | warn
  | info
  | debug
  | trace
  deriving DecidableEq, Repr

/-- The value of a field of a record. -/
inductive LogValue
  | number (n : Nat)
  /-- A text to be quoted. -/
  | text (s : String)
  /-- What shows of another value. -/
  | shown (s : String)
  deriving DecidableEq, Repr

/-- A record of the log. -/
structure LogRecord where
  level : LogLevel
  /-- The part of the program that it comes from. -/
  target : String
  message : String
  fields : List (String × LogValue)
  deriving DecidableEq, Repr

namespace LogRecord

/-- A text was read as a statement. -/
def parsed (st : Statement) : LogRecord where
  level := .debug
  target := "kcql_parser"
  message := "parsed statement"
  fields := [("source", .shown st.source.val), ("clauses", .number st.clauses.length)]

/-- A clause is about to be applied. -/
def applying (c : Clause) : LogRecord where
  level := .trace
  target := "kcql_parser::builder"
  message := "applying clause"
  fields := [("clause", .text c.keyword.spelling)]

/-- A statement of a batch is rejected. -/
def rejected (index : Nat) (e : Failure) : LogRecord where
  level := .warn
  target := "kcql_mapper::mapper"
  message := "rejected statement"
  fields := [("index", .number index), ("error", .shown e.message)]

/-- A statement of a batch is mapped. -/
def mapped (index : Nat) (q : Query) : LogRecord where
  level := .debug
  target := "kcql_mapper::mapper"
  message := "mapped statement"
  fields := [("index", .number index), ("source", .shown q.source)]

/-- All statements of a batch are mapped. -/
def complete (count : Nat) : LogRecord where
  level := .info
  target := "kcql_mapper::mapper"
  message := "mapping complete"
  fields := [("statements", .number count)]

end LogRecord

/-! ## Statements -/

namespace Builder

/-- The records of clauses, up to the first one that breaks a rule. -/
def clausesLog (b : Builder) : List (Located Clause) → List LogRecord
  | [] => []
  | c :: cs =>
    .applying c.val ::
      match (apply c).run b with
      | .ok (_, b) => clausesLog b cs
      | .error _ => []

/-- The records of building the query of a statement. -/
def buildLog (text : String) (st : Statement) : List LogRecord :=
  match (select st).run (ofText text) with
  | .ok (_, b) => b.clausesLog st.clauses
  | .error _ => []

end Builder

/-- The records of parsing a text. -/
def Query.parseLog (text : String) : List LogRecord :=
  match Statement.parse text with
  | .ok st => .parsed st :: Builder.buildLog text st
  | .error _ => []

/-! ## Batches -/

/-- The records of parsing pieces, up to the first one that fails. -/
def Query.piecesLog : List Piece → List LogRecord
  | [] => []
  | p :: ps =>
    parseLog p.text ++
      match parse p.text with
      | .ok _ => piecesLog ps
      | .error _ => []

/-- The records of parsing all statements of a text. -/
def Query.parseAllLog (text : String) : List LogRecord :=
  piecesLog (Splitter.standard text)

namespace Mapper

/-- The records of mapping the pieces from the one with the given index on. -/
def piecesLog (m : Mapper) (index : Nat) (sources targets : List String) :
    List Piece → List LogRecord
  | [] => [.complete index]
  | p :: ps =>
    Query.parseLog p.text ++
      match m.mapOne p.text sources targets with
      | .ok (q, sources, targets) =>
        .mapped index q :: m.piecesLog (index + 1) sources targets ps
      | .error e => [.rejected index e]

/-- The records of mapping a batch. -/
def mapLog (m : Mapper) (text : String) : List LogRecord :=
  m.piecesLog 0 [] [] (m.split text)

end Mapper

end ConnectorQuery
