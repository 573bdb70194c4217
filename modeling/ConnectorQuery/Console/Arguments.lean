/-!
# Arguments of a command line

The arguments after a command's name are options and operands, in any order. An
option is written with its long name behind two dashes or with its letter behind
one; letters may be joined, as long as only the last takes a value. A value is the
next argument, or stands in the same one: after an equals sign, or directly after
the letter. What begins with a dash is never a value or an operand, except for a
dash alone and for all that comes after two dashes alone.

* `Arguments.read?`: the options and operands of an argument list.
-/

namespace ConnectorQuery.Console

/-- An option of the command line. -/
inductive OptionName
  | logLevel
  | file
  | pretty
  | namePattern
  | topicNames
  deriving DecidableEq, Repr

namespace OptionName

/-- The long name. -/
def long : OptionName → String
  | logLevel => "log-level"
  | file => "file"
  | pretty => "pretty"
  | namePattern => "name-pattern"
  | topicNames => "topic-names"

/-- The letter, where there is one. -/
def letter? : OptionName → Option Char
  | file => some 'f'
  | pretty => some 'p'
  | _ => none

def takesValue : OptionName → Bool
  | logLevel | file | namePattern => true
  | pretty | topicNames => false

end OptionName

/-- The options of an argument with their values, and the one among them whose value
    is still to come. -/
structure OptionGroup where
  given : List (OptionName × String) := []
  waiting : Option OptionName := none
  deriving DecidableEq, Repr

namespace OptionGroup

/-- An option behind two dashes. -/
def ofLong? (known : List OptionName) (text : List Char) : Option OptionGroup := do
  let name := String.ofList (text.takeWhile (· ≠ '='))
  let option ← known.find? (·.long == name)
  match text.dropWhile (· ≠ '='), option.takesValue with
  | [], true => some { waiting := some option }
  | [], false => some { given := [(option, "")] }
  | _ :: value, true => some { given := [(option, String.ofList value)] }
  | _ :: _, false => none

/-- The letters behind one dash. -/
def ofLetters? (known : List OptionName) : List Char → Option OptionGroup
  | [] => some {}
  | c :: rest => do
    let option ← known.find? (·.letter? == some c)
    match rest, option.takesValue with
    | _, false => (ofLetters? known rest).map fun g => { g with given := (option, "") :: g.given }
    | [], true => some { waiting := some option }
    | '=' :: value, true => some { given := [(option, String.ofList value)] }
    | value, true => some { given := [(option, String.ofList value)] }

/-- The options of an argument that begins with a dash. -/
def ofText? (known : List OptionName) (text : String) : Option OptionGroup :=
  match text.toList with
  | '-' :: '-' :: rest => ofLong? known rest
  | '-' :: rest => ofLetters? known rest
  | _ => none

end OptionGroup

/-- The options and operands of a command. -/
structure Arguments where
  given : List (OptionName × String) := []
  operands : List String := []
  deriving DecidableEq, Repr

namespace Arguments

/-- Whether an argument is neither a value nor an operand. -/
def isDashed (text : String) : Bool :=
  text.toList.head? == some '-' && text != "-"

/-- One more option ahead of the others; none may be given twice. -/
def give? (a : Arguments) (option : OptionName × String) : Option Arguments :=
  if a.given.any (·.1 == option.1) then none else some { a with given := option :: a.given }

/-- The options and operands of an argument list, of which the first may be the value
    of the option that waits for one. -/
def readFrom? (known : List OptionName) :
    Option OptionName → List String → Option Arguments
  | none, [] => some {}
  | some _, [] => none
  | some option, value :: rest => do
    guard (!isDashed value)
    (← readFrom? known none rest).give? (option, value)
  | none, arg :: rest => do
    if arg = "--" then
      return { operands := rest }
    else if isDashed arg then
      let group ← OptionGroup.ofText? known arg
      group.given.foldrM (fun option a => a.give? option) (← readFrom? known group.waiting rest)
    else
      let a ← readFrom? known none rest
      return { a with operands := arg :: a.operands }

/-- The options and operands of an argument list. -/
def read? (known : List OptionName) (args : List String) : Option Arguments :=
  readFrom? known none args

/-- The value of an option, if it is given. -/
def value? (a : Arguments) (option : OptionName) : Option String :=
  (a.given.find? (·.1 == option)).map (·.2)

/-- Whether an option is given. -/
def has (a : Arguments) (option : OptionName) : Bool :=
  (a.value? option).isSome

end Arguments

end ConnectorQuery.Console
