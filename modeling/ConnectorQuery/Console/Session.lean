import ConnectorQuery.Console.Report
import ConnectorQuery.Text.Blank

/-!
# Sessions

In a session the user enters line after line: statements to be shown as JSON, and
commands, which begin with a colon. All that a session keeps from one line to the
next is whether JSON is written over several lines. Lines are read without the blanks
around them.

* `Request.ofLine`: what a line asks for;
* `answer`: one round of a session;
* `session`: the rounds for all lines up to the one that quits.
-/

namespace ConnectorQuery.Console

/-- What a line of a session asks for. -/
inductive Request
  | nothing
  | quit
  | help
  | switchCompact
  | load (name : String)
  | unknown
  | statement (text : String)
  deriving DecidableEq, Repr

namespace Request

/-- The command of the given name, which stands behind a colon. -/
def ofCommand (name : String) : Request :=
  if name = "quit" ∨ name = "q" then quit
  else if name = "help" ∨ name = "h" then help
  else if name = "compact" then switchCompact
  else if "load ".toList <+: name.toList then
    load (Text.trim (String.ofList (name.toList.drop 5)))
  else unknown

/-- What a line asks for that has no blanks around it. -/
def ofTrimmed (text : String) : Request :=
  match text.toList with
  | [] => nothing
  | ':' :: name => ofCommand (String.ofList name)
  | _ => statement text

def ofLine (line : String) : Request :=
  ofTrimmed (Text.trim line)

/-- The files that have to be read for the answer. -/
def files : Request → List String
  | load name => [name]
  | _ => []

end Request

variable (w : Surroundings)

/-- A statement was entered. -/
def enteredRecord (text : String) : LogRecord where
  level := .debug
  target := "kcql"
  message := "repl input"
  fields := [("statement", .text text)]

/-- Show the commands of a session. -/
def printHelp : Writing Unit := do
  println "Commands:"
  println "  <statement>   - Parse a statement and show the query"
  println "  :load <file>  - Check a configuration file"
  println "  :compact      - Toggle compact JSON output"
  println "  :quit         - Exit REPL"

/-- One round of a session: the answer to a request, where JSON is written over several
    lines or on one, and how it is written from then on. There is no such thing behind the
    request to quit. -/
def answer (pretty : Bool) (r : Request) : Writing (Option Bool) := do
  match r with
  | .nothing => return pretty
  | .quit => return none
  | .help =>
    printHelp
    return pretty
  | .switchCompact =>
    let pretty := !pretty
    println ("Compact output " ++ if pretty then "off" else "on")
    return pretty
  | .load name =>
    let _ ← check w [name] .any
    return pretty
  | .unknown =>
    println "Unknown command. Type :help for help."
    return pretty
  | .statement text =>
    log w (enteredRecord text)
    match ← parseLogged w text with
    | .ok q =>
      let _ ← printJson (Serial.toJson q) pretty
      return pretty
    | .error e =>
      reportError w "<repl>" text e.span? e.message e.label
      return pretty

/-- Greet the user. -/
def greet : Writing Unit := do
  println "KCQL REPL v0.1.0"
  println "Type :help for help, :quit to exit"
  println ""

/-- Take leave of the user. -/
def takeLeave : Writing Unit :=
  println "Goodbye!"

/-- A whole session; JSON is written over several lines at first. -/
def session : Writing Bool := do
  greet
  match w.lines with
  | .error e =>
    eprintln ("Failed to create REPL: " ++ e)
    return false
  | .ok lines =>
    let mut pretty := true
    for line in lines do
      match ← answer w pretty (Request.ofLine line) with
      | some next => pretty := next
      | none => break
    takeLeave
    return true

end ConnectorQuery.Console
