import ConnectorQuery.Query
import ConnectorQuery.Statement.Json

/-!
# Queries as JSON

The JSON form of a query: a record with a member for each of its own, in a fixed
order that shows in the text.
-/

namespace ConnectorQuery

open Serial

instance : Serial FieldType :=
  ofNames [.value, .key, .header] fun
    | .value => "Value"
    | .key => "Key"
    | .header => "Header"

instance : Serial TagType :=
  ofNames [.default, .constant, .alias] fun
    | .default => "Default"
    | .constant => "Constant"
    | .alias => "Alias"

instance : Serial TimeUnit :=
  ofNames [.nanoseconds, .microseconds, .milliseconds, .seconds, .minutes, .hours, .days] fun
    | .nanoseconds => "Nanoseconds"
    | .microseconds => "Microseconds"
    | .milliseconds => "Milliseconds"
    | .seconds => "Seconds"
    | .minutes => "Minutes"
    | .hours => "Hours"
    | .days => "Days"

instance : Serial Format :=
  ofNames [.avro, .json, .map, .object, .protobuf] fun
    | .avro => "Avro"
    | .json => "Json"
    | .map => "Map"
    | .object => "Object"
    | .protobuf => "Protobuf"

instance : Serial Compression :=
  ofNames [.none, .lz4, .zlib, .zstd, .snappy] fun
    | .none => "None"
    | .lz4 => "Lz4"
    | .zlib => "Zlib"
    | .zstd => "Zstd"
    | .snappy => "Snappy"

instance : Serial SchemaEvolution :=
  ofNames [.add, .matching] fun
    | .add => "Add"
    | .matching => "Match"

instance : Serial Partitioning :=
  ofNames [.static, .dynamic] fun
    | .static => "Static"
    | .dynamic => "Dynamic"

instance : Serial Field where
  toJson f := .object
    [("name", toJson f.name), ("alias", toJson f.outputName), ("field_type", toJson f.type),
      ("parents", toJson f.parents)]
  ofJson? j := do
    let ms ← j.record? ["name", "alias", "field_type", "parents"]
    return ⟨← required ms "name", ← required ms "alias", ← required ms "field_type",
      ← required ms "parents"⟩

instance : Serial Tag where
  toJson t := .object
    [("key", toJson t.key), ("value", toJson t.value), ("tag_type", toJson t.type)]
  ofJson? j := do
    let ms ← j.record? ["key", "value", "tag_type"]
    return ⟨← required ms "key", ← optional ms "value", ← required ms "tag_type"⟩

instance : Serial Bucketing where
  toJson b := .object [("bucket_names", toJson b.names), ("bucket_count", toJson b.count)]
  ofJson? j := do
    let ms ← j.record? ["bucket_names", "bucket_count"]
    return ⟨← required ms "bucket_names", ← required ms "bucket_count"⟩

instance : Serial Timestamp where
  toJson
    | .field path => .object [("Field", toJson path)]
    | .systemTime => .string "SystemTime"
  ofJson? j := do
    let (name, payload) ← choice? j
    match name with
    | "Field" => (ofJson? (← payload)).map .field
    | "SystemTime" => do
      let _ ← plainChoice? j
      return .systemTime
    | _ => none

namespace Query

/-- The members of a query's JSON form, in order. -/
def members (q : Query) : List (String × Json) :=
  [("statement", toJson q.statement),
    ("source", toJson q.source),
    ("target", toJson q.target),
    ("write_mode", toJson q.writeMode),
    ("fields", toJson q.fields),
    ("key_fields", toJson q.keyFields),
    ("header_fields", toJson q.headerFields),
    ("ignored_fields", toJson q.ignoredFields),
    ("primary_keys", toJson q.primaryKeys),
    ("partition_by", toJson q.partitionBy),
    ("bucketing", toJson q.bucketing),
    ("tags", toJson q.tags),
    ("timestamp", toJson q.timestamp),
    ("timestamp_unit", toJson q.timestampUnit),
    ("format_type", toJson q.format),
    ("stored_as", toJson q.storedAs),
    ("stored_as_parameters", toJson q.storedAsParameters),
    ("limit", toJson q.limit),
    ("batch_size", toJson q.batchSize),
    ("ttl", toJson q.ttl),
    ("flush_interval", toJson q.flushInterval),
    ("flush_size", toJson q.flushSize),
    ("flush_count", toJson q.flushCount),
    ("auto_create", toJson q.autoCreate),
    ("auto_evolve", toJson q.autoEvolve),
    ("capitalize", toJson q.capitalize),
    ("retain_structure", toJson q.retainStructure),
    ("unwrapping", toJson q.unwrapping),
    ("initialize", toJson q.initialised),
    ("with_overwrite", toJson q.overwrite),
    ("with_ack", toJson q.ack),
    ("with_encode_base64", toJson q.encodeBase64),
    ("with_type", toJson q.withType),
    ("with_converter", toJson q.converter),
    ("with_jms_selector", toJson q.jmsSelector),
    ("with_regex", toJson q.regex),
    ("with_compression", toJson q.compression),
    ("with_partitioner", toJson q.partitioner),
    ("with_subscription", toJson q.subscription),
    ("with_delay", toJson q.delay),
    ("with_session", toJson q.session),
    ("with_lock_time", toJson q.lockTime),
    ("dynamic_target", toJson q.dynamicTarget),
    ("pipeline", toJson q.pipeline),
    ("with_table_location", toJson q.tableLocation),
    ("with_schema_evolution", toJson q.schemaEvolution),
    ("with_partitioning", toJson q.partitioning),
    ("with_keys", toJson q.withKeys),
    ("key_delimiter", toJson q.keyDelimiter),
    ("project_to", toJson q.projectTo),
    ("doc_type", toJson q.docType),
    ("index_suffix", toJson q.indexSuffix),
    ("incremental_mode", toJson q.incrementalMode),
    ("properties", toJson q.properties)]

/-- The names of the members, in order. -/
def memberNames : List String :=
  (members {}).map (·.1)

/-- The query that a JSON value is the form of. -/
def ofJson? (j : Json) : Option Query := do
  let ms ← j.record? memberNames
  return {
    statement := ← required ms "statement"
    source := ← required ms "source"
    target := ← optional ms "target"
    writeMode := ← optional ms "write_mode"
    fields := ← required ms "fields"
    keyFields := ← required ms "key_fields"
    headerFields := ← required ms "header_fields"
    ignoredFields := ← required ms "ignored_fields"
    primaryKeys := ← required ms "primary_keys"
    partitionBy := ← required ms "partition_by"
    bucketing := ← optional ms "bucketing"
    tags := ← optional ms "tags"
    timestamp := ← optional ms "timestamp"
    timestampUnit := ← required ms "timestamp_unit"
    format := ← optional ms "format_type"
    storedAs := ← optional ms "stored_as"
    storedAsParameters := ← required ms "stored_as_parameters"
    limit := ← optional ms "limit"
    batchSize := ← optional ms "batch_size"
    ttl := ← optional ms "ttl"
    flushInterval := ← optional ms "flush_interval"
    flushSize := ← optional ms "flush_size"
    flushCount := ← optional ms "flush_count"
    autoCreate := ← required ms "auto_create"
    autoEvolve := ← required ms "auto_evolve"
    capitalize := ← required ms "capitalize"
    retainStructure := ← required ms "retain_structure"
    unwrapping := ← required ms "unwrapping"
    initialised := ← required ms "initialize"
    overwrite := ← required ms "with_overwrite"
    ack := ← required ms "with_ack"
    encodeBase64 := ← required ms "with_encode_base64"
    withType := ← optional ms "with_type"
    converter := ← optional ms "with_converter"
    jmsSelector := ← optional ms "with_jms_selector"
    regex := ← optional ms "with_regex"
    compression := ← optional ms "with_compression"
    partitioner := ← optional ms "with_partitioner"
    subscription := ← optional ms "with_subscription"
    delay := ← optional ms "with_delay"
    session := ← optional ms "with_session"
    lockTime := ← optional ms "with_lock_time"
    dynamicTarget := ← optional ms "dynamic_target"
    pipeline := ← optional ms "pipeline"
    tableLocation := ← optional ms "with_table_location"
    schemaEvolution := ← optional ms "with_schema_evolution"
    partitioning := ← optional ms "with_partitioning"
    withKeys := ← optional ms "with_keys"
    keyDelimiter := ← required ms "key_delimiter"
    projectTo := ← optional ms "project_to"
    docType := ← optional ms "doc_type"
    indexSuffix := ← optional ms "index_suffix"
    incrementalMode := ← optional ms "incremental_mode"
    properties := ← required ms "properties" }

end Query

instance : Serial Query where
  toJson q := .object q.members
  ofJson? := Query.ofJson?

end ConnectorQuery
