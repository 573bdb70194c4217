import ConnectorQuery.Console.Arguments

/-!
# Commands

A command line names one of three commands: to parse a statement or the statements
of a file, to check files, or to talk with the user line by line. Options that
exclude each other, names of files that are empty and operands in excess make it
unusable.

* `Command.ofArguments?`: the command that a command line asks for.
-/

namespace ConnectorQuery.Console

/-- Where statements are taken from. -/
inductive Source
  | statement (text : String)
  | file (name : String)
  deriving DecidableEq, Repr

/-- Which names a check accepts. -/
inductive NameRule
  | any
  | topicNames
  | pattern (text : String)
  deriving DecidableEq, Repr

/-- What the console is asked to do. -/
inductive Command
  | parse (source : Option Source) (pretty : Bool)
  | check (files : List String) (names : NameRule)
  | repl
  deriving DecidableEq, Repr

namespace Command

/-- To parse an operand or a file, but not both. -/
def ofParse? (a : Arguments) : Option Command := do
  let source ← match a.value? .file, a.operands with
    | none, [] => some none
    | none, [text] => some (some (.statement text))
    | some name, [] => if name.isEmpty then none else some (some (.file name))
    | _, _ => none
  return .parse source (a.has .pretty)

/-- To check the files that the operands name, with at most one rule on names. -/
def ofCheck? (a : Arguments) : Option Command := do
  guard (a.operands.all (!·.isEmpty))
  let names ← match a.value? .namePattern, a.has .topicNames with
    | none, false => some .any
    | none, true => some .topicNames
    | some text, false => some (.pattern text)
    | some _, true => none
  return .check a.operands names

/-- To talk with the user; there are no operands. -/
def ofRepl? (a : Arguments) : Option Command :=
  if a.operands.isEmpty then some .repl else none

/-- The command line from the command's name on; the log level may stand ahead of
    it. -/
def afterLogLevel? : List String → Option (List String)
  | [] => some []
  | arg :: rest =>
    if !Arguments.isDashed arg then some (arg :: rest)
    else
      match OptionGroup.ofText? [.logLevel] arg, rest with
      | some ⟨_, none⟩, _ => some rest
      | some ⟨_, some _⟩, level :: rest => if Arguments.isDashed level then none else some rest
      | _, _ => none

/-- The command that a command line asks for. -/
def ofArguments? (args : List String) : Option Command := do
  match ← afterLogLevel? args with
  | "parse" :: rest => ofParse? (← Arguments.read? [.logLevel, .file, .pretty] rest)
  | "check" :: rest => ofCheck? (← Arguments.read? [.logLevel, .namePattern, .topicNames] rest)
  | "repl" :: rest => ofRepl? (← Arguments.read? [.logLevel] rest)
  | _ => none

/-- The files that have to be read for a command. -/
def files : Command → List String
  | .parse (some (.file name)) _ => [name]
  | .check names _ => names
  | _ => []

end Command

end ConnectorQuery.Console
