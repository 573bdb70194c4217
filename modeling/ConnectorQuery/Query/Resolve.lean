import ConnectorQuery.Query
import ConnectorQuery.Query.Error
import ConnectorQuery.Statement
import ConnectorQuery.Text.Decimal

/-!
# Resolving values

What the parts of a statement come to, each by itself: names that must not be blank or
stand twice, numbers in a range, words of a vocabulary, timestamps, tags and buckets.

A clause that is only on, or that has one value, changes one member of the query
(`Flag.update`, `Setting.update`).
-/

namespace ConnectorQuery

/-- The segment in front of the columns that are read from the key. -/
def keyMarker : String := "_key"

/-- The segment in front of the columns that are read from the headers. -/
def headerMarker : String := "_header"

/-- The largest number of a count, `2 ^ 31 - 1`. -/
def maxCount : Nat := 0x7FFFFFFF

/-- The largest number of a size or a time, `2 ^ 63 - 1`. -/
def maxLong : Nat := 0x7FFFFFFFFFFFFFFF

/-! ## Values -/

/-- The list with a further field, which must not be in it already. -/
def addField (list : FieldList) (fs : List Field) (f : Field) (span : Span) :
    Except RuleError (List Field) :=
  if fs.any (·.isDuplicateOf f) then .error (.duplicateField list f.path span)
  else .ok (fs ++ [f])

/-- A name that does not end with a dot. -/
def FieldPath.resolve (p : FieldPath) : Except RuleError (Located String) :=
  if p.dangling then .error (.unterminatedPath p.name.val p.name.span) else .ok p.name

/-- The names of a list, none of them blank, all of them different whatever the
    case of their letters. -/
def uniqueNames (clause : String) (names : List (Located String)) :
    Except RuleError (List String) :=
  names.foldlM (fun seen name =>
    if Text.isAllBlank name.val then .error (.blankName clause name.span)
    else if seen.any (Text.eqIgnoringCase · name.val) then
      .error (.duplicateName clause name.val name.span)
    else .ok (seen ++ [name.val])) []

/-- The names that a list of paths resolves to. -/
def resolveNames (clause : String) (paths : List FieldPath) : Except RuleError (List String) := do
  uniqueNames clause (← paths.mapM FieldPath.resolve)

/-- A count from 1 to `maxCount`. -/
def countOf (clause : String) (value : Located String) : Except RuleError UInt32 :=
  match Text.positive? maxCount value.val with
  | some n => .ok (.ofNat n)
  | none => .error (.invalidNumber clause value.val "an integer" value.span)

/-- A number from 1 to `maxLong`. -/
def longOf (clause : String) (value : Located String) : Except RuleError UInt64 :=
  match Text.positive? maxLong value.val with
  | some n => .ok (.ofNat n)
  | none => .error (.invalidNumber clause value.val "a long" value.span)

/-- A member of a vocabulary. -/
def memberOf (α : Type) [Vocabulary α] (value : Located String) : Except RuleError α :=
  match Vocabulary.lookup α value.val with
  | .ok v => .ok v
  | .error cause => .error (.unknownValue cause value.span)

/-- The source of a timestamp: the clock for `sys_time()`, in any letter case,
    and a field for a name that is no call. -/
def Timestamp.ofPath (value : Located String) (call : Bool) : Except RuleError Timestamp :=
  if call then
    if Text.eqIgnoringCase value.val "sys_time" then .ok .systemTime
    else .error (.unsupportedTimestampFunction (value.val ++ "()") value.span)
  else if Text.eqIgnoringCase value.val systemTimeText then .ok .systemTime
  else .ok (.field value.val)

/-- The tag of an entry: its type shows in the text between key and value. -/
def Tag.ofEntry (e : TagEntry) : Except RuleError Tag :=
  let key := e.key.val
  if (Text.trim key).toList.getLast? = some '.' then .error (.tagEndsWithDot key e.key.span)
  else
    match e.marker, e.value with
    | none, value => .ok ⟨key, value.map (·.val), .default⟩
    | some marker, some value =>
      if marker.val = "=" then .ok ⟨key, some value.val, .constant⟩
      else if Text.eqIgnoringCase marker.val "as" then .ok ⟨key, some value.val, .alias⟩
      else .error (.invalidTag (key ++ " " ++ marker.val ++ " " ++ value.val) e.span)
    | some marker, none => .error (.invalidTag (key ++ " " ++ marker.val) e.span)

/-- A delimiter, which must not be blank. -/
def delimiterOf (value : Located String) : Except RuleError String :=
  if Text.isAllBlank value.val then .error (.blankKeyDelimiter value.span) else .ok value.val

/-- The fields and the number of a bucketing clause. -/
def Bucketing.resolve (clause : String) (span : Span) (names : List FieldPath)
    (number : Option (Located String)) : Except RuleError Bucketing :=
  if names.isEmpty then .error (.missingBucketNames clause span)
  else
    match number with
    | none => .error (.missingBucketCount clause span)
    | some n => do return ⟨← resolveNames clause names, ← countOf "BUCKETS" n⟩

/-! ## Flags and settings -/

/-- A change of the members of a query. -/
abbrev Update := Query → Query

/-- What a flag lays down. -/
def Flag.update : Flag → Update
  | autoCreate => fun q => { q with autoCreate := true }
  | autoEvolve => fun q => { q with autoEvolve := true }
  | capitalize => fun q => { q with capitalize := true }
  | initialised => fun q => { q with initialised := true }
  | withStructure => fun q => { q with retainStructure := true }
  | unwrap => fun q => { q with unwrapping := true }
  | overwrite => fun q => { q with overwrite := true }
  | ack => fun q => { q with ack := true }
  | encodeBase64 => fun q => { q with encodeBase64 := true }

/-- What a setting lays down with the value `v`. -/
def Setting.update (s : Setting) (v : Located String) : Except RuleError Update :=
  match s with
  | batch => do
    let n ← countOf s.spelling v
    return fun q => { q with batchSize := some n }
  | limit => do
    let n ← countOf s.spelling v
    return fun q => { q with limit := some n }
  | projectTo => do
    let n ← countOf s.spelling v
    return fun q => { q with projectTo := some n }
  | delay => do
    let n ← countOf s.spelling v
    return fun q => { q with delay := some n }
  | lockTime => do
    let n ← countOf s.spelling v
    return fun q => { q with lockTime := some n }
  | ttl => do
    let n ← longOf s.spelling v
    return fun q => { q with ttl := some n }
  | flushInterval => do
    let n ← longOf s.spelling v
    return fun q => { q with flushInterval := some n }
  | flushSize => do
    let n ← longOf s.spelling v
    return fun q => { q with flushSize := some n }
  | flushCount => do
    let n ← longOf s.spelling v
    return fun q => { q with flushCount := some n }
  | format => do
    let m ← memberOf Format v
    return fun q => { q with format := some m }
  | timestampUnit => do
    let m ← memberOf TimeUnit v
    return fun q => { q with timestampUnit := m }
  | compression => do
    let m ← memberOf Compression v
    return fun q => { q with compression := some m }
  | schemaEvolution => do
    let m ← memberOf SchemaEvolution v
    return fun q => { q with schemaEvolution := some m }
  | partitioning => do
    let m ← memberOf Partitioning v
    return fun q => { q with partitioning := some m }
  | keyDelimiter => do
    let d ← delimiterOf v
    return fun q => { q with keyDelimiter := d }
  | tableLocation => return fun q => { q with tableLocation := some v.val }
  | withType => return fun q => { q with withType := some v.val }
  | converter => return fun q => { q with converter := some v.val }
  | jmsSelector => return fun q => { q with jmsSelector := some v.val }
  | regex => return fun q => { q with regex := some v.val }
  | dynamicTarget => return fun q => { q with dynamicTarget := some v.val }
  | pipeline => return fun q => { q with pipeline := some v.val }
  | partitioner => return fun q => { q with partitioner := some v.val }
  | subscription => return fun q => { q with subscription := some v.val }
  | session => return fun q => { q with session := some v.val }
  | docType => return fun q => { q with docType := some v.val }
  | indexSuffix => return fun q => { q with indexSuffix := some v.val }
  | incrementalMode => return fun q => { q with incrementalMode := some v.val }

end ConnectorQuery
