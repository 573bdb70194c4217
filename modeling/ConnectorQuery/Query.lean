import ConnectorQuery.Dictionary
import ConnectorQuery.Field
import ConnectorQuery.Text.AsciiCase
import ConnectorQuery.Vocabulary

/-!
# Queries

A *query* is what a statement means: where its records come from and go to,
which fields they carry, and everything that its clauses lay down, each in a
member of its own and with its value checked. A member that no clause lays down
has its default.
-/

namespace ConnectorQuery

/-- How the value of a tag is found. -/
inductive TagType
  /-- In the field that the tag is named after. -/
  | default
  /-- It is given. -/
  | constant
  /-- In the field with the path of the tag, for a tag with another name. -/
  | alias
  deriving DecidableEq, Repr

/-- A tag of the records. -/
structure Tag where
  key : String
  value : Option String
  type : TagType
  deriving DecidableEq, Repr

/-- A distribution of the records over a number of buckets. -/
structure Bucketing where
  names : List String
  count : UInt32
  deriving DecidableEq, Repr

/-- Where the timestamp of a record comes from. -/
inductive Timestamp
  /-- The field with this path. -/
  | field (path : String)
  /-- The clock. -/
  | systemTime
  deriving DecidableEq, Repr

/-- How the current time is written where the path of a field could be. -/
def Timestamp.systemTimeText : String := "sys_time()"

/-- The text of a timestamp. -/
def Timestamp.toText : Timestamp → String
  | .field path => path
  | .systemTime => systemTimeText

/-- The meaning of a statement. -/
structure Query where
  /-- The text of the statement. -/
  statement : String := ""
  source : String := ""
  /-- Absent where the statement only selects. -/
  target : Option String := none
  writeMode : Option WriteMode := none
  fields : List Field := []
  keyFields : List Field := []
  headerFields : List Field := []
  ignoredFields : List Field := []
  primaryKeys : List Field := []
  partitionBy : List String := []
  bucketing : Option Bucketing := none
  tags : Option (List Tag) := none
  timestamp : Option Timestamp := none
  timestampUnit : TimeUnit := .milliseconds
  format : Option Format := none
  storedAs : Option String := none
  storedAsParameters : Dictionary := .empty
  limit : Option UInt32 := none
  batchSize : Option UInt32 := none
  ttl : Option UInt64 := none
  flushInterval : Option UInt64 := none
  flushSize : Option UInt64 := none
  flushCount : Option UInt64 := none
  autoCreate : Bool := false
  autoEvolve : Bool := false
  capitalize : Bool := false
  retainStructure : Bool := false
  unwrapping : Bool := false
  initialised : Bool := false
  overwrite : Bool := false
  ack : Bool := false
  encodeBase64 : Bool := false
  withType : Option String := none
  converter : Option String := none
  jmsSelector : Option String := none
  regex : Option String := none
  compression : Option Compression := none
  partitioner : Option String := none
  subscription : Option String := none
  delay : Option UInt32 := none
  session : Option String := none
  lockTime : Option UInt32 := none
  dynamicTarget : Option String := none
  pipeline : Option String := none
  tableLocation : Option String := none
  schemaEvolution : Option SchemaEvolution := none
  partitioning : Option Partitioning := none
  withKeys : Option (List String) := none
  keyDelimiter : String := "."
  projectTo : Option UInt32 := none
  docType : Option String := none
  indexSuffix : Option String := none
  incrementalMode : Option String := none
  properties : Dictionary := .empty
  deriving DecidableEq

namespace Query

/-- All fields of the value are selected, by a `*` that stands alone. -/
def selectsAll (q : Query) : Bool :=
  q.fields.any fun f => f.isWildcard && !f.hasParents

/-- The value of a property. -/
def property (q : Query) (name : String) : Option String :=
  q.properties.get? name

/-- The value of a storage parameter, whose name is found in any ASCII letter
    case. -/
def storedAsParameter (q : Query) (name : String) : Option String :=
  q.storedAsParameters.findBy? (Text.eqIgnoringCase · name)

end Query

end ConnectorQuery
