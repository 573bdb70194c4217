/-!
# Files

A command reads whole files as text. Reading may fail, and the reason is told to
the user.
-/

namespace ConnectorQuery.Console

/-- Why a file cannot be read as text. -/
inductive FileError
  | missing
  | isFolder
  | belowFile
  | notUtf8
  | other (reason : String)
  deriving DecidableEq, Repr

namespace FileError

/-- The wording of the reason. -/
def message : FileError → String
  | missing => "No such file or directory (os error 2)"
  | isFolder => "Is a directory (os error 21)"
  | belowFile => "Not a directory (os error 20)"
  | notUtf8 => "stream did not contain valid UTF-8"
  | other reason => reason

end FileError

/-- What reading the file of a name gives. -/
abbrev Files := String → Except FileError String

end ConnectorQuery.Console
