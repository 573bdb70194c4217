import ConnectorQuery.Text.AsciiCase

/-!
# Keywords

The reserved words of the language. Most of them introduce a clause, and most
clauses are of two plain kinds: a *flag* stands alone, a *setting* is followed
by one value. Both are types of their own, so what holds of all flags or of all
settings is said once.

A keyword has one spelling and is recognised in any ASCII letter case
(`ofText?`).
-/

namespace ConnectorQuery

/-- A clause that is complete with its keyword. -/
inductive Flag
  | autoCreate
  | autoEvolve
  | capitalize
  | initialised
  | withStructure
  | unwrap
  | overwrite
  | ack
  | encodeBase64
  deriving DecidableEq, Repr

namespace Flag

/-- Every flag. -/
def all : List Flag :=
  [autoCreate, autoEvolve, capitalize, initialised, withStructure, unwrap, overwrite, ack,
    encodeBase64]

/-- The spelling of the keyword of a flag. -/
def spelling : Flag → String
  | autoCreate => "AUTOCREATE"
  | autoEvolve => "AUTOEVOLVE"
  | capitalize => "CAPITALIZE"
  | initialised => "INITIALIZE"
  | withStructure => "WITH_STRUCTURE"
  | unwrap => "WITHUNWRAP"
  | overwrite => "WITH_OVERWRITE"
  | ack => "WITH_ACK"
  | encodeBase64 => "WITH_ENCODE_BASE64"

end Flag

/-- A clause whose keyword is followed by one value. -/
inductive Setting
  | batch
  | limit
  | ttl
  | projectTo
  | delay
  | lockTime
  | flushInterval
  | flushSize
  | flushCount
  | format
  | timestampUnit
  | compression
  | schemaEvolution
  | partitioning
  | tableLocation
  | keyDelimiter
  | withType
  | converter
  | jmsSelector
  | regex
  | dynamicTarget
  | pipeline
  | partitioner
  | subscription
  | session
  | docType
  | indexSuffix
  | incrementalMode
  deriving DecidableEq, Repr

namespace Setting

/-- Every setting. -/
def all : List Setting :=
  [batch, limit, ttl, projectTo, delay, lockTime, flushInterval, flushSize, flushCount, format,
    timestampUnit, compression, schemaEvolution, partitioning, tableLocation, keyDelimiter,
    withType, converter, jmsSelector, regex, dynamicTarget, pipeline, partitioner, subscription,
    session, docType, indexSuffix, incrementalMode]

/-- The spelling of the keyword of a setting. -/
def spelling : Setting → String
  | batch => "BATCH"
  | limit => "LIMIT"
  | ttl => "TTL"
  | projectTo => "PROJECTTO"
  | delay => "WITHDELAY"
  | lockTime => "WITH_LOCK_TIME"
  | flushInterval => "WITH_FLUSH_INTERVAL"
  | flushSize => "WITH_FLUSH_SIZE"
  | flushCount => "WITH_FLUSH_COUNT"
  | format => "WITHFORMAT"
  | timestampUnit => "TIMESTAMPUNIT"
  | compression => "WITHCOMPRESSION"
  | schemaEvolution => "WITH_SCHEMA_EVOLUTION"
  | partitioning => "WITH_PARTITIONING"
  | tableLocation => "WITH_TABLE_LOCATION"
  | keyDelimiter => "KEYDELIMITER"
  | withType => "WITHTYPE"
  | converter => "WITHCONVERTER"
  | jmsSelector => "WITHJMSSELECTOR"
  | regex => "WITHREGEX"
  | dynamicTarget => "WITHTARGET"
  | pipeline => "WITHPIPELINE"
  | partitioner => "WITHPARTITIONER"
  | subscription => "WITHSUBSCRIPTION"
  | session => "WITH_SESSION"
  | docType => "WITHDOCTYPE"
  | indexSuffix => "WITHINDEXSUFFIX"
  | incrementalMode => "INCREMENTALMODE"

/-- What the value of a setting is called where one is missing. -/
def valueName : Setting → String
  | batch => "a batch size"
  | limit => "a limit"
  | ttl => "a TTL"
  | projectTo => "a version"
  | delay => "a delay"
  | lockTime => "a lock time"
  | flushInterval => "a flush interval"
  | flushSize => "a flush size"
  | flushCount => "a flush count"
  | format => "a format"
  | timestampUnit => "a time unit"
  | compression => "a compression type"
  | schemaEvolution => "a schema evolution mode"
  | partitioning => "a partitioning strategy"
  | tableLocation => "a table location"
  | keyDelimiter => "a delimiter"
  | withType => "a type"
  | converter => "a converter"
  | jmsSelector => "a selector"
  | regex => "a regex"
  | dynamicTarget => "a target path"
  | pipeline => "a pipeline"
  | partitioner => "a partitioner"
  | subscription => "a subscription"
  | session => "a session name"
  | docType => "a document type"
  | indexSuffix => "an index suffix"
  | incrementalMode => "an incremental mode"

end Setting

/-- A reserved word. -/
inductive Keyword
  | insert
  | upsert
  | update
  | into
  | select
  | «from»
  | «as»
  | primaryKey
  | ignore
  | partitionBy
  | distributeBy
  | clusterBy
  | buckets
  | withKey
  | withTag
  | withTags
  | storeAs
  | withTimestamp
  | properties
  | flag (f : Flag)
  | setting (s : Setting)
  deriving DecidableEq, Repr

namespace Keyword

/-- Every keyword. -/
def all : List Keyword :=
  [insert, upsert, update, into, select, «from», «as», primaryKey, ignore, partitionBy,
    distributeBy, clusterBy, buckets, withKey, withTag, withTags, storeAs, withTimestamp,
    properties] ++ Flag.all.map flag ++ Setting.all.map setting

/-- The spelling of a keyword, in capitals. -/
def spelling : Keyword → String
  | insert => "INSERT"
  | upsert => "UPSERT"
  | update => "UPDATE"
  | into => "INTO"
  | select => "SELECT"
  | «from» => "FROM"
  | «as» => "AS"
  | primaryKey => "PK"
  | ignore => "IGNORE"
  | partitionBy => "PARTITIONBY"
  | distributeBy => "DISTRIBUTEBY"
  | clusterBy => "CLUSTERBY"
  | buckets => "BUCKETS"
  | withKey => "WITHKEY"
  | withTag => "WITHTAG"
  | withTags => "WITHTAGS"
  | storeAs => "STOREAS"
  | withTimestamp => "WITHTIMESTAMP"
  | properties => "PROPERTIES"
  | flag f => f.spelling
  | setting s => s.spelling

/-- The keyword that a word spells, in any letter case. -/
def ofText? (word : String) : Option Keyword :=
  all.find? fun k => Text.eqIgnoringCase k.spelling word

theorem mem_all (k : Keyword) : k ∈ all := by
  cases k with
  | flag f => cases f <;> decide
  | setting s => cases s <;> decide
  | _ => decide

end Keyword

end ConnectorQuery
