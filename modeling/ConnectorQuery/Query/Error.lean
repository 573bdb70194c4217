import ConnectorQuery.Keyword
import ConnectorQuery.Span
import ConnectorQuery.Vocabulary

/-!
# Broken rules

A statement that follows the grammar may still break a rule: name a field twice,
count to zero, ask for a format that does not exist. Most rules concern one
place of the statement, which the error keeps. A name that is mapped twice, a
name that a policy rejects and properties that are not allowed have none: they
concern the statement as a whole, or a batch of them.
-/

namespace ConnectorQuery

/-- A side of a mapping. -/
inductive Role
  | source
  | target
  deriving DecidableEq, Repr

/-- What a complaint calls the side. -/
def Role.word : Role → String
  | .source => "source"
  | .target => "target"

/-- A list of fields in a query, in which each field stands once. -/
inductive FieldList
  | fields
  | keyFields
  | headerFields
  | ignoredFields
  deriving DecidableEq, Repr

/-- What a complaint calls a field of the list. -/
def FieldList.label : FieldList → String
  | .fields => "Field"
  | .keyFields => "Key field"
  | .headerFields => "Header field"
  | .ignoredFields => "Ignored field"

/-- A broken rule. Clauses are named as a complaint names them. -/
inductive RuleError
  | duplicateField (list : FieldList) (field : String) (span : Span)
  | duplicateName (clause name : String) (span : Span)
  | blankName (clause : String) (span : Span)
  | duplicateParameter (name : String) (span : Span)
  | duplicateProperty (name : String) (span : Span)
  | repeatedClause (clause : String) (span : Span)
  | invalidNumber (clause value expected : String) (span : Span)
  | unknownValue (cause : UnknownValue) (span : Span)
  | invalidTag (text : String) (span : Span)
  | tagEndsWithDot (key : String) (span : Span)
  | missingBucketNames (clause : String) (span : Span)
  | missingBucketCount (clause : String) (span : Span)
  | unterminatedPath (path : String) (span : Span)
  | blankKeyDelimiter (span : Span)
  | unsupportedTimestampFunction (name : String) (span : Span)
  | duplicateMapping (role : Role) (name : String)
  | invalidName (role : Role) (name reason : String)
  | unsupportedProperties (names allowed : List String)
  deriving DecidableEq, Repr

namespace RuleError

/-- The place that the rule concerns, where it concerns one. -/
def span? : RuleError → Option Span
  | .duplicateField _ _ s => some s
  | .duplicateName _ _ s => some s
  | .blankName _ s => some s
  | .duplicateParameter _ s => some s
  | .duplicateProperty _ s => some s
  | .repeatedClause _ s => some s
  | .invalidNumber _ _ _ s => some s
  | .unknownValue _ s => some s
  | .invalidTag _ s => some s
  | .tagEndsWithDot _ s => some s
  | .missingBucketNames _ s => some s
  | .missingBucketCount _ s => some s
  | .unterminatedPath _ s => some s
  | .blankKeyDelimiter s => some s
  | .unsupportedTimestampFunction _ s => some s
  | .duplicateMapping _ _ => none
  | .invalidName _ _ _ => none
  | .unsupportedProperties _ _ => none

/-- The wording of the complaint. -/
def message : RuleError → String
  | .duplicateField list field _ => list.label ++ " " ++ field ++ " has already been defined"
  | .duplicateName clause name _ => "the field " ++ name ++ " appears twice in " ++ clause
  | .blankName clause _ => clause ++ " requires a non-empty name"
  | .duplicateParameter name _ =>
    name ++ " is a duplicated entry in the STOREAS parameters list"
  | .duplicateProperty name _ => "property " ++ name ++ " is defined more than once"
  | .repeatedClause clause _ => clause ++ " is specified more than once"
  | .invalidNumber clause value expected _ =>
    "invalid value '" ++ value ++ "' for " ++ clause ++ ": expecting " ++ expected ++
      " greater than zero"
  | .unknownValue cause _ => cause.message
  | .invalidTag text _ =>
    "invalid syntax for tag '" ++ text ++
      "'. Needs to be 'tag1 [as x]' or 'tag1' or 'tag1 = constant'"
  | .tagEndsWithDot key _ =>
    "invalid syntax for tag '" ++ key ++ "'. Field selection can not end with '.'"
  | .missingBucketNames clause _ => clause ++ " requires at least one bucket name"
  | .missingBucketCount clause _ =>
    clause ++ " requires the number of buckets: 'INTO <n> BUCKETS'"
  | .unterminatedPath path _ => "field selection '" ++ path ++ "' can not end with '.'"
  | .blankKeyDelimiter _ => "invalid key delimiter. Needs to be a non empty string"
  | .unsupportedTimestampFunction name _ =>
    "unsupported timestamp function " ++ name ++ "; only sys_time() is available"
  | .duplicateMapping role name => role.word ++ " " ++ name ++ " cannot be mapped twice"
  | .invalidName role name reason =>
    role.word ++ " name '" ++ name ++ "' is not valid: " ++ reason
  | .unsupportedProperties names allowed =>
    "unsupported properties: " ++ ", ".intercalate names ++ ". Allowed properties are: " ++
      ", ".intercalate allowed

end RuleError

end ConnectorQuery
