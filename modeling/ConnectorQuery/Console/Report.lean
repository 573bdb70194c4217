import ConnectorQuery.Console.Command
import ConnectorQuery.Console.Surroundings
import ConnectorQuery.Json.Text
import ConnectorQuery.Query.Json

/-!
# Reports on statements and files

The first two commands of the console. One shows queries as JSON, the other tells
for each file which source goes to which target. Files are checked in one loop, with one
mapper: whether all of them were accepted so far is all that it keeps from one file to the
next, and it does not stop at a bad one.

* `parse`: the queries of a statement or a file;
* `check`: the mappings of files.
-/

namespace ConnectorQuery.Console

variable (w : Surroundings)

/-! ## Errors, files and the log -/

/-- Write a record to the log. -/
def log (r : LogRecord) : Writing Unit :=
  eprint (w.log r)

/-- Write records to the log. -/
def logAll (rs : List LogRecord) : Writing Unit := do
  for r in rs do
    log w r

/-- Report an error in the text that goes by the name. One that has no place in the text, or
    whose report cannot be drawn, is told in a line. -/
def reportError (name text : String) (span? : Option Span) (message label : String) :
    Writing Unit :=
  match span? with
  | none => eprintln ("  " ++ message)
  | some span =>
    match w.draw ⟨name, text, span, message, label⟩ with
    | some drawn => eprint drawn
    | none => eprintln ("  " ++ message)

/-- The text of a file; one that cannot be read is complained about. -/
def readFile (name : String) : Writing (Option String) :=
  match w.files name with
  | .ok text => return some text
  | .error e => do
    eprintln ("Error reading " ++ name ++ ": " ++ e.message)
    return none

/-! ## Parsing -/

/-- Show a value as JSON, over several lines or on one. -/
def printJson (j : Json) (pretty : Bool) : Writing Bool := do
  println (j.toText pretty)
  return true

/-- The query of a statement. -/
def parseLogged (text : String) : Writing (Except Failure Query) := do
  logAll w (Query.parseLog text)
  return Query.parse text

/-- Show the queries of the given source. -/
def parse (source : Option Source) (pretty : Bool) : Writing Bool := do
  match source with
  | some (.statement text) =>
    match ← parseLogged w text with
    | .ok q => printJson (Serial.toJson q) pretty
    | .error e =>
      reportError w "<statement>" text e.span? e.message e.label
      return false
  | some (.file name) =>
    let some text ← readFile w name | return false
    logAll w (Query.parseAllLog text)
    match Query.parseAll text with
    | .ok qs => printJson (Serial.toJson qs) pretty
    | .error e =>
      reportError w name text e.span? e.message e.label
      return false
  | none =>
    eprintln "Nothing to parse: pass a statement or --file"
    return false

/-! ## Checking -/

/-- Where a query reads and writes. -/
def describe (q : Query) : String :=
  match q.writeMode, q.target with
  | some mode, some target =>
    q.source ++ " -> " ++ target ++ " (" ++ Vocabulary.spelling mode ++ ")"
  | _, _ => q.source ++ " (select)"

/-- A file has a mapping table. -/
def checkedRecord (name : String) (table : MappingTable) : LogRecord where
  level := .info
  target := "kcql"
  message := "checked"
  fields := [("file", .shown name), ("statements", .number table.size)]

/-- The mapping table of a file's text. -/
def mapLogged (mapper : Mapper) (text : String) :
    Writing (Except BatchFailure MappingTable) := do
  logAll w (mapper.mapLog text)
  return mapper.map text

/-- One round of a check: whether all files up to this one are accepted, if those before it
    are `allOk`. A file that cannot be read is left at that. -/
def checkFile (mapper : Mapper) (name : String) (allOk : Bool) : Writing Bool := do
  let some text ← readFile w name | return false
  match ← mapLogged w mapper text with
  | .ok table =>
    log w (checkedRecord name table)
    println ("✓ " ++ name ++ " - " ++ toString table.size ++ " statements")
    for q in table.queries do
      println ("  " ++ describe q)
    return allOk
  | .error e =>
    eprintln ("✗ " ++ name)
    reportError w name text e.span? e.message e.label
    return false

/-- Check files under a rule on names, which is read before them, and tell whether all are
    accepted. -/
def check (names : List String) (rule : NameRule) : Writing Bool := do
  let mut mapper : Mapper := {}
  match rule with
  | .any => pure ()
  | .topicNames => mapper := { mapper with policy := .matching (.topicNames w.engine) }
  | .pattern text =>
    match NamePattern.ofText w.engine text with
    | .ok p => mapper := { mapper with policy := .matching p }
    | .error e =>
      eprintln ("Invalid name pattern: " ++ e)
      return false
  let mut allOk := true
  for name in names do
    allOk ← checkFile w mapper name allOk
  return allOk

end ConnectorQuery.Console
