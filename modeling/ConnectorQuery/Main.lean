import ConnectorQuery.Console

/-!
# The program

The console, with the files and streams of the system. What is written is decided
in `ConnectorQuery.Console`; here it is only moved. Which engine reads regular expressions
is left to whoever runs it.

* `answerArguments`: the whole program.
-/

namespace ConnectorQuery

/-- A value of a field as it is logged. -/
def LogValue.toText : LogValue → String
  | .number n => toString n
  | .text s => s.quote
  | .shown s => s

/-- A record as a line of the log, in which only warnings are kept. -/
def LogRecord.toText (r : LogRecord) : String :=
  if r.level = .warn then
    " WARN " ++ r.target ++ ": " ++
      " ".intercalate (r.message :: r.fields.map fun f => f.1 ++ "=" ++ f.2.toText) ++ "\n"
  else ""

namespace Console

/-- A report as plain lines: the message, the place and the label. -/
def Report.toText (r : Report) : String :=
  let place := Position.ofOffset r.text r.span.start
  "Error: " ++ r.message ++ "\n  at " ++ r.name ++ ":" ++ toString place.line ++ ":" ++
    toString place.column ++ ": " ++ r.label ++ "\n"

/-- The text of a file. -/
def readSystemFile (name : String) : IO (Except FileError String) := do
  try
    match String.fromUTF8? (← IO.FS.readBinFile name) with
    | some text => return .ok text
    | none => return .error .notUtf8
  catch
    | .noFileOrDirectory .. => return .error .missing
    -- Opening fails on a path through a file; a folder opens, but cannot be read.
    | .inappropriateType (some _) .. => return .error .belowFile
    | .inappropriateType none .. => return .error .isFolder
    | e => return .error (.other (toString e))

/-- The texts of the named files; all other names are missing. -/
def readFiles (names : List String) : IO Files := do
  let texts ← names.mapM fun name => return (name, ← readSystemFile name)
  return fun name => (texts.lookup name).getD (.error .missing)

variable (engine : PatternEngine)

/-- The surroundings of the program, with the texts of the named files. -/
def surroundings (names : List String) : IO Surroundings :=
  return {
    files := ← readFiles names
    lines := .ok []
    engine := engine
    draw := fun r => some r.toText
    log := LogRecord.toText }

/-- Write an output to the streams. -/
def Output.write (o : Output) : IO Unit := do
  IO.print o.out
  (← IO.getStdout).flush
  IO.eprint o.err

/-- Answer the lines that the user enters, as they come. -/
partial def converse (input : IO.FS.Stream) (pretty : Bool) : IO Unit := do
  let line ← try input.getLine catch _ => pure ""
  if line.isEmpty then return
  let request := Request.ofLine line
  let round := answer (← surroundings engine request.files) pretty request
  round.output.write
  if let some next := round.value then
    converse input next

/-- How to call the program. -/
def usage : String :=
  "Usage: kcql [--log-level L] parse [-p] [STATEMENT | -f FILE]\n" ++
  "       kcql [--log-level L] check [--name-pattern RE | --topic-names] [FILE]...\n" ++
  "       kcql [--log-level L] repl"

/-- Answer a command line and tell the exit code. -/
def answerArguments (args : List String) : IO UInt32 := do
  match Command.ofArguments? args with
  | none =>
    IO.eprintln usage
    return Outcome.unusable.exitCode.toUInt32
  | some .repl =>
    greet.output.write
    converse engine (← IO.getStdin) true
    takeLeave.output.write
    return 0
  | some command =>
    let outcome := Outcome.ofWriting (command.perform (← surroundings engine command.files))
    outcome.output.write
    return outcome.exitCode.toUInt32

end Console

end ConnectorQuery
