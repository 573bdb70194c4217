import ConnectorQuery.Json.Serial
import ConnectorQuery.Statement

/-!
# Statements as JSON

The JSON form of a statement: a record for each of its parts, spans included,
and a choice for each clause, by a name of its own.
-/

namespace ConnectorQuery

open Serial

instance : Serial WriteMode :=
  ofNames [.insert, .upsert, .update] fun
    | .insert => "Insert"
    | .upsert => "Upsert"
    | .update => "Update"

instance : Serial Column where
  toJson c := .object
    [("segments", toJson c.segments), ("dangling", toJson c.dangling), ("alias", toJson c.rename),
      ("span", toJson c.span)]
  ofJson? j := do
    let ms ← j.record? ["segments", "dangling", "alias", "span"]
    return ⟨← required ms "segments", ← required ms "dangling", ← optional ms "alias",
      ← required ms "span"⟩

instance : Serial FieldPath where
  toJson p := .object [("name", toJson p.name), ("dangling", toJson p.dangling)]
  ofJson? j := do
    let ms ← j.record? ["name", "dangling"]
    return ⟨← required ms "name", ← required ms "dangling"⟩

instance : Serial TagEntry where
  toJson e := .object
    [("key", toJson e.key), ("marker", toJson e.marker), ("value", toJson e.value),
      ("span", toJson e.span)]
  ofJson? j := do
    let ms ← j.record? ["key", "marker", "value", "span"]
    return ⟨← required ms "key", ← optional ms "marker", ← optional ms "value",
      ← required ms "span"⟩

instance : Serial Assignment where
  toJson e := .object [("name", toJson e.name), ("value", toJson e.value)]
  ofJson? j := do
    let ms ← j.record? ["name", "value"]
    return ⟨← required ms "name", ← required ms "value"⟩

/-- The name of a flag among the clauses. -/
def Flag.jsonName : Flag → String
  | autoCreate => "AutoCreate"
  | autoEvolve => "AutoEvolve"
  | capitalize => "Capitalize"
  | initialised => "Initialize"
  | withStructure => "WithStructure"
  | unwrap => "Unwrap"
  | overwrite => "Overwrite"
  | ack => "Ack"
  | encodeBase64 => "EncodeBase64"

/-- The name of a setting among the clauses. -/
def Setting.jsonName : Setting → String
  | batch => "Batch"
  | limit => "Limit"
  | ttl => "Ttl"
  | projectTo => "ProjectTo"
  | delay => "Delay"
  | lockTime => "LockTime"
  | flushInterval => "FlushInterval"
  | flushSize => "FlushSize"
  | flushCount => "FlushCount"
  | format => "Format"
  | timestampUnit => "TimestampUnit"
  | compression => "Compression"
  | schemaEvolution => "SchemaEvolution"
  | partitioning => "Partitioning"
  | tableLocation => "TableLocation"
  | keyDelimiter => "KeyDelimiter"
  | withType => "WithType"
  | converter => "Converter"
  | jmsSelector => "JmsSelector"
  | regex => "Regex"
  | dynamicTarget => "Target"
  | pipeline => "Pipeline"
  | partitioner => "Partitioner"
  | subscription => "Subscription"
  | session => "Session"
  | docType => "DocType"
  | indexSuffix => "IndexSuffix"
  | incrementalMode => "IncrementalMode"

namespace Clause

/-- The JSON form of a clause. -/
def toJson : Clause → Json
  | flag f => .string f.jsonName
  | setting s v => .object [(s.jsonName, Serial.toJson v)]
  | primaryKey columns => .object [("PrimaryKey", Serial.toJson columns)]
  | ignore columns => .object [("Ignore", Serial.toJson columns)]
  | partitionBy names => .object [("PartitionBy", Serial.toJson names)]
  | bucketing names count => .object
    [("Bucketing", .object [("names", Serial.toJson names), ("count", Serial.toJson count)])]
  | storeAs type parameters => .object
    [("StoreAs",
      .object [("type_name", Serial.toJson type), ("parameters", Serial.toJson parameters)])]
  | timestamp value call => .object
    [("Timestamp", .object [("value", Serial.toJson value), ("call", Serial.toJson call)])]
  | tags entries => .object [("Tags", Serial.toJson entries)]
  | withKeys keys => .object [("WithKeys", Serial.toJson keys)]
  | properties entries => .object [("Properties", Serial.toJson entries)]

/-- The clause of the given name that carries the value `j`, where it is one that
    carries a value. -/
def ofPayload? (name : String) (j : Json) : Option Clause :=
  match name with
  | "PrimaryKey" => (ofJson? j).map primaryKey
  | "Ignore" => (ofJson? j).map ignore
  | "PartitionBy" => (ofJson? j).map partitionBy
  | "Bucketing" => do
    let ms ← j.record? ["names", "count"]
    return bucketing (← required ms "names") (← optional ms "count")
  | "StoreAs" => do
    let ms ← j.record? ["type_name", "parameters"]
    return storeAs (← required ms "type_name") (← required ms "parameters")
  | "Timestamp" => do
    let ms ← j.record? ["value", "call"]
    return timestamp (← required ms "value") (← required ms "call")
  | "Tags" => (ofJson? j).map tags
  | "WithKeys" => (ofJson? j).map withKeys
  | "Properties" => (ofJson? j).map properties
  | name => do
    let s ← Setting.all.find? (·.jsonName == name)
    return setting s (← ofJson? j)

/-- The clause that a JSON value is the form of. -/
def ofJson? (j : Json) : Option Clause := do
  let (name, payload) ← choice? j
  match Flag.all.find? (·.jsonName == name) with
  | some f => do
    let _ ← plainChoice? j
    return flag f
  | none => do ofPayload? name (← payload)

end Clause

instance : Serial Clause where
  toJson := Clause.toJson
  ofJson? := Clause.ofJson?

instance : Serial Statement where
  toJson st := .object
    [("verb", toJson st.verb), ("target", toJson st.target), ("columns", toJson st.columns),
      ("source", toJson st.source), ("clauses", toJson st.clauses), ("span", toJson st.span)]
  ofJson? j := do
    let ms ← j.record? ["verb", "target", "columns", "source", "clauses", "span"]
    return ⟨← optional ms "verb", ← optional ms "target", ← required ms "columns",
      ← required ms "source", ← required ms "clauses", ← required ms "span"⟩

end ConnectorQuery
