import ConnectorQuery.Text.AsciiCase
import ConnectorQuery.Text.Blank

/-!
# Vocabularies

Some clauses take a word from a closed list. Such a list is a *vocabulary*: a
type with a title, its members in order and a spelling for each. A word is
looked up without the blanks around it and in any ASCII letter case; one that is
not in the list is answered with all that are.
-/

namespace ConnectorQuery

/-- A closed list of words. -/
class Vocabulary (α : Type) where
  /-- What the list is called in a complaint. -/
  title : String
  /-- Every member, in the order of a complaint. -/
  members : List α
  spelling : α → String

/-- A word that is not in its vocabulary. -/
structure UnknownValue where
  vocabulary : String
  /-- The word, without the blanks around it. -/
  value : String
  /-- The spellings of the members. -/
  valid : List String
  deriving DecidableEq, Repr

/-- The wording of the complaint about an unknown word. -/
def UnknownValue.message (e : UnknownValue) : String :=
  "invalid " ++ e.vocabulary ++ " '" ++ e.value ++ "'. Valid values are: " ++
    ", ".intercalate e.valid

/-- The member of a vocabulary that a text names. -/
def Vocabulary.lookup (α : Type) [Vocabulary α] (text : String) : Except UnknownValue α :=
  let word := Text.trim text
  match (members (α := α)).find? fun v => Text.eqIgnoringCase (spelling v) word with
  | some v => .ok v
  | none => .error ⟨title α, word, members.map (spelling (α := α))⟩

/-- How records are written to the target. -/
inductive WriteMode
  | insert
  | upsert
  | update
  deriving DecidableEq, Repr

instance : Vocabulary WriteMode where
  title := "write mode"
  members := [.insert, .upsert, .update]
  spelling
    | .insert => "INSERT"
    | .upsert => "UPSERT"
    | .update => "UPDATE"

/-- The format of a payload. -/
inductive Format
  | avro
  | json
  | map
  | object
  | protobuf
  deriving DecidableEq, Repr

instance : Vocabulary Format where
  title := "FORMAT"
  members := [.avro, .json, .map, .object, .protobuf]
  spelling
    | .avro => "AVRO"
    | .json => "JSON"
    | .map => "MAP"
    | .object => "OBJECT"
    | .protobuf => "PROTOBUF"

/-- How payloads are compressed. -/
inductive Compression
  | none
  | lz4
  | zlib
  | zstd
  | snappy
  deriving DecidableEq, Repr

instance : Vocabulary Compression where
  title := "WITHCOMPRESSION"
  members := [.none, .lz4, .zlib, .zstd, .snappy]
  spelling
    | .none => "NONE"
    | .lz4 => "LZ4"
    | .zlib => "ZLIB"
    | .zstd => "ZSTD"
    | .snappy => "SNAPPY"

/-- What happens when the schema of a record differs from that of its table. -/
inductive SchemaEvolution
  | add
  | matching
  deriving DecidableEq, Repr

instance : Vocabulary SchemaEvolution where
  title := "WITH_SCHEMA_EVOLUTION"
  members := [.add, .matching]
  spelling
    | .add => "ADD"
    | .matching => "MATCH"

/-- How the partitions of a table are laid out. -/
inductive Partitioning
  | static
  | dynamic
  deriving DecidableEq, Repr

instance : Vocabulary Partitioning where
  title := "WITH_PARTITIONING"
  members := [.static, .dynamic]
  spelling
    | .static => "STATIC"
    | .dynamic => "DYNAMIC"

/-- The unit of a timestamp. -/
inductive TimeUnit
  | nanoseconds
  | microseconds
  | milliseconds
  | seconds
  | minutes
  | hours
  | days
  deriving DecidableEq, Repr

instance : Vocabulary TimeUnit where
  title := "TIMESTAMPUNIT"
  members := [.nanoseconds, .microseconds, .milliseconds, .seconds, .minutes, .hours, .days]
  spelling
    | .nanoseconds => "NANOSECONDS"
    | .microseconds => "MICROSECONDS"
    | .milliseconds => "MILLISECONDS"
    | .seconds => "SECONDS"
    | .minutes => "MINUTES"
    | .hours => "HOURS"
    | .days => "DAYS"

end ConnectorQuery
