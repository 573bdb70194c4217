import ConnectorQuery.Console.Files
import ConnectorQuery.Console.Output
import ConnectorQuery.Log

/-!
# The surroundings of the console

What the console finds where it runs: files, the lines that the user enters, an engine for
regular expressions, a way to draw reports on errors, and a log. None of it is part of the
console, and nothing is said about it here.
-/

namespace ConnectorQuery.Console

/-- A report on an error: its place in a text that goes by a name, the message at the head
    of the report and the label at the place. -/
structure Report where
  name : String
  text : String
  span : Span
  message : String
  label : String
  deriving DecidableEq, Repr

/-- Where the console runs. -/
structure Surroundings where
  files : Files
  /-- The lines that the user enters, or why they cannot be asked for. -/
  lines : Except String (List String)
  engine : PatternEngine
  /-- What a report looks like, if it can be drawn. -/
  draw : Report → Option String
  /-- What the log writes for a record, the time aside: nothing for one that it leaves
      out. -/
  log : LogRecord → String

end ConnectorQuery.Console
