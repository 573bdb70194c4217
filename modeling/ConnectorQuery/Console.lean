import ConnectorQuery.Console.Session

/-!
# The console

A command line is answered by its command, in the surroundings of the console. The exit
code tells how it went: 0 if all is good, 1 if not, and 2 if the command line asks for
nothing that the console knows.
-/

namespace ConnectorQuery.Console

/-- How the console answers a command line. -/
structure Outcome where
  output : Output
  exitCode : Nat
  deriving DecidableEq, Repr

namespace Outcome

/-- What a command that succeeds or fails comes to. -/
def ofWriting (x : Writing Bool) : Outcome :=
  ⟨x.output, if x.value then 0 else 1⟩

/-- The answer to a command line that is unusable. -/
def unusable : Outcome :=
  ⟨{}, 2⟩

end Outcome

variable (w : Surroundings)

/-- Do what a command asks for. -/
def Command.perform : Command → Writing Bool
  | .parse source pretty => Console.parse w source pretty
  | .check names rule => Console.check w names rule
  | .repl => session w

/-- The answer to a command line. -/
def run (args : List String) : Outcome :=
  match Command.ofArguments? args with
  | some command => .ofWriting (command.perform w)
  | none => .unusable

end ConnectorQuery.Console
