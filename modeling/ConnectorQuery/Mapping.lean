import ConnectorQuery.Batch.Split
import ConnectorQuery.NamePolicy
import ConnectorQuery.Query.Parse

/-!
# Mapping tables

The statements of a batch together say which source goes to which target: a
*mapping table*. Every source and every target is checked against a policy, and
neither may be mapped twice; a name may be a source and a target at once.

The first statement that fails stops the batch, with its place in the text.

* `Mapper.map`: the table of a batch;
* `Query.parseAll`: its statements without a look at each other.
-/

namespace ConnectorQuery

/-- A failure in one statement of a batch. -/
structure BatchFailure where
  /-- The place of the statement among those of the batch, from 0 on. -/
  index : Nat
  /-- Where its text begins within the batch. -/
  offset : Nat
  cause : Failure
  deriving DecidableEq, Repr

namespace BatchFailure

/-- The place of the failure within the batch. -/
def span? (e : BatchFailure) : Option Span :=
  e.cause.span?.map (·.shift e.offset)

/-- The wording of the complaint; statements are counted from 1. -/
def message (e : BatchFailure) : String :=
  "statement " ++ toString (e.index + 1) ++ ": " ++ e.cause.message

/-- The wording of what is wrong, whichever statement it is wrong in. -/
def label (e : BatchFailure) : String :=
  e.cause.label

end BatchFailure

/-- The queries of the pieces from the one with the given index on. -/
def Query.parsePieces (index : Nat) : List Piece → Except BatchFailure (List Query)
  | [] => .ok []
  | p :: ps => do
    let q ← (Query.parse p.text).mapError fun e => ⟨index, p.offset, e⟩
    return q :: (← parsePieces (index + 1) ps)

/-- The queries of all statements of a text, each by itself. -/
def Query.parseAll (text : String) : Except BatchFailure (List Query) :=
  parsePieces 0 (Splitter.standard text)

/-- The statements of a batch, in order. -/
structure MappingTable where
  queries : List Query
  deriving DecidableEq

namespace MappingTable

/-- The number of statements. -/
def size (t : MappingTable) : Nat :=
  t.queries.length

def isEmpty (t : MappingTable) : Bool :=
  t.queries.isEmpty

def sources (t : MappingTable) : List String :=
  t.queries.map (·.source)

/-- The sources with their targets, without the statements that only select. -/
def pairs (t : MappingTable) : List (String × String) :=
  t.queries.filterMap fun q => q.target.map fun target => (q.source, target)

/-- The query that reads from the source. -/
def query? (t : MappingTable) (source : String) : Option Query :=
  t.queries.find? (·.source == source)

/-- The target of the source. -/
def target? (t : MappingTable) (source : String) : Option String :=
  (t.query? source).bind (·.target)

end MappingTable

/-- A way to read batches: how to cut them, and which names to accept. -/
structure Mapper where
  split : Splitter := Splitter.standard
  policy : NamePolicy := NamePolicy.any

namespace Mapper

/-- The names of a role that were mapped so far, and now `name`. -/
def enter (m : Mapper) (role : Role) (name : String) (seen : List String) :
    Except RuleError (List String) :=
  match m.policy.rejection? role name with
  | some reason => .error (.invalidName role name reason)
  | none =>
    if name ∈ seen then .error (.duplicateMapping role name) else .ok (name :: seen)

/-- The targets that were mapped so far, and now that of the query. -/
def enterTarget (m : Mapper) (q : Query) (targets : List String) :
    Except RuleError (List String) :=
  match q.target with
  | some target => m.enter .target target targets
  | none => .ok targets

/-- The query of a statement's text, with the sources and targets that are mapped
    then. -/
def mapOne (m : Mapper) (text : String) (sources targets : List String) :
    Except Failure (Query × List String × List String) := do
  let q ← Query.parse text
  let sources ← (m.enter .source q.source sources).mapError .rule
  let targets ← (m.enterTarget q targets).mapError .rule
  return (q, sources, targets)

/-- The queries of the pieces from the one with the given index on, behind the
    sources and targets that are mapped already. -/
def mapPieces (m : Mapper) (index : Nat) (sources targets : List String) :
    List Piece → Except BatchFailure (List Query)
  | [] => .ok []
  | p :: ps => do
    let (q, sources, targets) ←
      (m.mapOne p.text sources targets).mapError fun e => ⟨index, p.offset, e⟩
    return q :: (← m.mapPieces (index + 1) sources targets ps)

/-- The mapping table of a batch. -/
def map (m : Mapper) (text : String) : Except BatchFailure MappingTable := do
  return ⟨← m.mapPieces 0 [] [] (m.split text)⟩

end Mapper

/-- Refuse properties whose names are not among the allowed ones. -/
def Query.checkProperties (q : Query) (allowed : List String) : Except RuleError Unit :=
  let names := q.properties.names.filter (· ∉ allowed)
  if names.isEmpty then .ok () else .error (.unsupportedProperties names allowed)

end ConnectorQuery
