import ConnectorQuery.Statement.Parser

/-!
# Reading without guards

The parsers of `Statement.Parser` end by construction: a list breaks off where an item
does not get ahead, and a path is joined along the tokens that are left. Whether that is
needed is a question about reading *without guards*: each loop goes on as long as the
token at hand says so, and a loop that goes on for ever has no outcome. This is the reader
here, with a parser for each phrase of the grammar, under the same name.

A run has a state: the place that it has reached, and a record of the tokens that were
consumed. The last token is not passed when it is consumed, so only the record tells.

There is one loop, `Step.loop`, and four steps that are repeated: `nextItem`, `joinNext`,
`nextSegment` and `nextClause`.
-/

namespace ConnectorQuery.Unguarded

/-- Where a run has come to. -/
structure State where
  place : Cursor
  /-- The tokens that were consumed, the last one first. -/
  consumed : List Token

/-- The token at hand is consumed. -/
def State.pass (s : State) : State :=
  ⟨s.place.advance, s.place.here :: s.consumed⟩

/-- A parser without guards. It need not end, and then it has no outcome. -/
abbrev Run (α : Type) := ExceptT GrammarError (StateT State Option) α

variable {α β : Type}

/-- The token at hand. -/
def peek : Run Token :=
  fun s => some (.ok s.place.here, s)

/-- Consume the token at hand. -/
def next : Run Token :=
  fun s => some (.ok s.place.here, s.pass)

/-- Refuse the token `found` where `expected` should stand. -/
def refuse (expected : String) (found : Token) : Run α :=
  fun s => some (.error (.unexpected expected found), s)

/-- Read on with `p` where the token at hand is as `wanted`. -/
def whenAt (wanted : Token → Bool) (p : Run α) (otherwise : α) : Run α := do
  let t ← peek
  if wanted t then p else return otherwise

/-- Consume a token of the kind `k`. -/
def expect (k : TokenKind) : Run Unit := do
  let t ← peek
  if t.kind == k then discard next else refuse k.describe t

/-- Consume a token of the kind `k`, if there is one. -/
def skip (k : TokenKind) : Run Unit :=
  whenAt (·.kind == k) (discard next) ()

/-- The span from `start` to the end of the last token passed. -/
def spanFrom (start : Span) : Run Span :=
  fun s => some (.ok ⟨start.start, max s.place.passed start.start⟩, s)

/-! ## Loops -/

/-- One time round a loop: it goes on with something new, or comes to its result. -/
abbrev Step (β γ : Type) := β → Run (β ⊕ γ)

/-- Take the step again and again, until it comes to a result. -/
def Step.loop {β γ : Type} (step : Step β γ) (b : β) (s : State) :
    Option (Except GrammarError γ × State) :=
  match step b s with
  | none => none
  | some (.error e, s') => some (.error e, s')
  | some (.ok (.inl b'), s') => step |>.loop b' s'
  | some (.ok (.inr c), s') => some (.ok c, s')
partial_fixpoint

/-- One more item behind the items `as`, if a comma is at hand. -/
def nextItem (item : Run α) : Step (List α) (List α) := fun as => do
  let t ← peek
  if t.kind == .mark .comma then
    discard next
    let a ← item
    return .inl (as ++ [a])
  else return .inr as

/-- One or more items with commas between them. -/
def commaList (item : Run α) : Run (List α) := do
  let a ← item
  (nextItem item).loop [a]

/-! ## Names and values -/

/-- One more token for the name `p`, if the one at hand sticks to it. -/
def joinNext : Step FieldPath FieldPath := fun p => do
  let t ← peek
  if Parser.sticksTo t p then
    discard next
    return .inl (Parser.join p t)
  else return .inr p

/-- A name or value, which may dangle. -/
def path (expected : String) : Run FieldPath := do
  let t ← peek
  if t.kind.isValue then
    discard next
    joinNext.loop ⟨⟨t.value, t.span⟩, false⟩
  else refuse expected t

/-- A name or value as a text, dangling or not. -/
def text (expected : String) : Run (Located String) := do
  return (← path expected).name

/-- The name of a source or a target, which must not dangle. -/
def name (expected : String) : Run (Located String) := do
  let p ← path expected
  let behind ← peek
  if p.dangling then refuse "a name segment after '.'" behind else return p.name

/-- The value of a setting, behind an equals sign or not. -/
def value (expected : String) : Run (Located String) := do
  skip (.mark .equals)
  text expected

/-- A pair `name = value`. -/
def assignment : Run Assignment := do
  let name ← text "a parameter name"
  expect (.mark .equals)
  let value ← text "a parameter value"
  return ⟨name, value⟩

/-- One or more pairs in parentheses. -/
def assignments : Run (List Assignment) := do
  expect (.mark .openParen)
  let entries ← commaList assignment
  expect (.mark .closeParen)
  return entries

/-! ## Columns -/

/-- One more segment of a column behind those in `front`, if a dot is at hand. A wildcard is
    the last segment, and a dot without a segment dangles. -/
def nextSegment : Step (List String) (List String × Bool) := fun front => do
  let dot ← peek
  if dot.kind == .mark .dot then
    discard next
    let t ← peek
    if t.kind == .mark .star then
      discard next
      return .inr (front ++ ["*"], false)
    else if Parser.continuesBehind t dot then
      discard next
      return .inl (front ++ [t.value])
    else return .inr (front, true)
  else return .inr (front, false)

/-- `AS` and the name behind it. -/
def rename : Run (Option String) := do
  discard next
  let name ← text "an alias"
  return some name.val

/-- A column, with `AS` and a name behind it where `mayRename` allows it. -/
def column (mayRename : Bool) : Run Column := do
  let first ← peek
  if first.kind == .mark .star then
    discard next
    return ⟨["*"], false, none, first.span⟩
  else if first.kind.isValue then
    discard next
    let segments ← nextSegment.loop [first.value]
    let rename ← whenAt (fun t => mayRename && t.kind == .keyword .as) rename none
    let span ← spanFrom first.span
    return ⟨segments.1, segments.2, rename, span⟩
  else refuse "a field name or '*'" first

/-! ## Clauses -/

/-- `INTO` and a number of buckets. -/
def bucketCount : Run (Option (Located String)) := do
  discard next
  let count ← text "a bucket count"
  expect (.keyword .buckets)
  return some count

/-- Fields to bucket by, and a number of buckets; either may be missing. -/
def bucketing : Run Clause := do
  let names ← whenAt (·.kind.isValue) (commaList (path "a bucket field")) []
  let count ← whenAt (·.kind == .keyword .into) bucketCount none
  return .bucketing names count

/-- A name with an opening and a closing parenthesis behind it is a call. -/
def emptyCall : Run Bool := fun s =>
  if s.place.here.kind == .mark .openParen && s.place.nextKind == .mark .closeParen then
    (do discard next; discard next; return true : Run Bool) s
  else some (.ok false, s)

/-- The token at hand, consumed, as the text between the key and the value of a tag. -/
def marker : Run (Located String) := do
  let t ← next
  return ⟨t.text, t.span⟩

/-- What follows the key of a tag. -/
def tagValue : Run (Option (Located String) × Option (Located String)) := do
  let t ← peek
  if t.kind == .mark .comma || t.kind == .mark .closeParen then return (none, none)
  else if t.kind == .mark .equals || t.kind == .keyword .as then
    let between ← marker
    let value ← text "a tag value"
    return (some between, some value)
  else if t.kind.isValue then
    let between ← marker
    let value ← whenAt (·.kind.isValue) (some <$> text "a tag value") none
    return (some between, value)
  else refuse "',' or ')'" t

/-- A tag: a key, and maybe a value. -/
def tagEntry : Run TagEntry := do
  let first ← peek
  let key ← text "a tag"
  let behind ← tagValue
  let span ← spanFrom first.span
  return ⟨key, behind.1, behind.2, span⟩

/-- Tags in parentheses, maybe none. -/
def tagEntries : Run (List TagEntry) := do
  expect (.mark .openParen)
  let entries ← whenAt (·.kind != .mark .closeParen) (commaList tagEntry) []
  expect (.mark .closeParen)
  return entries

/-- What follows the keyword `k` of a clause that begins with the token `first`. -/
def ofKeyword (first : Token) : Keyword → Run Clause
  | .flag f => return .flag f
  | .setting s => return .setting s (← value s.valueName)
  | .primaryKey => return .primaryKey (← commaList (column false))
  | .ignore => return .ignore (← commaList (column true))
  | .partitionBy => return .partitionBy (← commaList (path "a partition field"))
  | .distributeBy | .clusterBy => bucketing
  | .storeAs => do
    let type ← value "a storage type"
    let parameters ← whenAt (·.kind == .mark .openParen) assignments []
    return .storeAs type parameters
  | .withTimestamp => do
    skip (.mark .equals)
    let field ← path "a timestamp field or sys_time()"
    let call ← emptyCall
    return .timestamp field call
  | .withTag | .withTags => return .tags (← tagEntries)
  | .withKey => do
    skip (.mark .equals)
    expect (.mark .openParen)
    let keys ← commaList (text "a key name")
    expect (.mark .closeParen)
    return .withKeys keys
  | .properties => do
    skip (.mark .equals)
    return .properties (← assignments)
  | _ => refuse "a clause keyword" first

/-- What follows the first token of a clause. -/
def clauseBody (first : Token) : Run Clause :=
  match first.kind with
  | .keyword k => ofKeyword first k
  | _ => refuse "a clause keyword" first

/-- A clause, with the span from its keyword to its last token. -/
def clause : Run (Located Clause) := do
  let first ← next
  let body ← clauseBody first
  let span ← spanFrom first.span
  return ⟨body, span⟩

/-- One more clause behind the clauses `as`, unless a semicolon or the end is at hand. -/
def nextClause : Step (List (Located Clause)) (List (Located Clause)) := fun as => do
  let t ← peek
  if t.kind == .mark .semicolon || t.kind == .endOfText then return .inr as
  else
    let a ← clause
    return .inl (as ++ [a])

/-! ## Statements -/

/-- The verb and the target of a statement, missing where it only selects. -/
def verbAndTarget : Run (Option (Located WriteMode) × Option (Located String)) := do
  let first ← peek
  match first.kind with
  | .keyword .insert => intoTarget .insert
  | .keyword .upsert => intoTarget .upsert
  | .keyword .update => intoTarget .update
  | .keyword .select => return (none, none)
  | _ => refuse "'INSERT', 'UPSERT', 'UPDATE' or 'SELECT'" first
where
  /-- The verb that means `mode`, and the target behind it. -/
  intoTarget (mode : WriteMode) :
      Run (Option (Located WriteMode) × Option (Located String)) := do
    let verb ← next
    expect (.keyword .into)
    let target ← name "a target name"
    return (some ⟨mode, verb.span⟩, some target)

/-- A statement up to its source, without clauses; the span is still open. -/
def opening : Run Statement := do
  let first ← peek
  let into ← verbAndTarget
  expect (.keyword .select)
  let columns ← commaList (column true)
  expect (.keyword .from)
  let source ← name "a source name"
  return ⟨into.1, into.2, columns, source, [], first.span⟩

/-- The end of a statement, with the whole span of one that began at `start`. -/
def ending (start : Span) : Run Span := do
  skip (.mark .semicolon)
  let t ← peek
  if t.kind == .endOfText then spanFrom start else refuse TokenKind.endOfText.describe t

/-- A whole statement. -/
def statement : Run Statement := do
  let opened ← opening
  let clauses ← nextClause.loop []
  let span ← ending opened.span
  return { opened with clauses, span }

/-- Before the first token. -/
def State.start (width : Nat) (tokens : List Token) : State :=
  ⟨.ofTokens width tokens, []⟩

end ConnectorQuery.Unguarded
