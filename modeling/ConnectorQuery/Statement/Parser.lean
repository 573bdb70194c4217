import ConnectorQuery.Statement
import ConnectorQuery.Statement.Cursor
import ConnectorQuery.Statement.Error

/-!
# Reading statements

The grammar, one parser for each of its phrases:

    statement := [(INSERT | UPSERT | UPDATE) INTO name] SELECT columns FROM name
                 clause* [;]
    columns   := column (, column)*
    column    := * | value (. segment)* [.] [AS text]

A name, or the text of a value, is a value token together with the tokens that
stick to it without a gap: a dot, and after a dot a value or a keyword. So
`a.from` and `a.'b c'` are one name each. A dot at the end makes the name
*dangle*; a source or a target must not, and elsewhere the fact is recorded for
those who resolve the name.

* `Forward`: no parser goes back, so each list in the grammar comes to an end;
* `clauses`: the one loop that need not end, when a list of tokens breaks off
  behind a keyword that is a clause by itself;
* `ofTokens?_tokenize_isSome`: on the tokens of a text it ends.
-/

namespace ConnectorQuery

/-- A parser reads a phrase at a cursor, or refuses the token at hand. -/
abbrev Parser (α : Type) := StateT Cursor (Except GrammarError) α

namespace Parser

/-- The token at hand. -/
def peek : Parser Token :=
  fun c => .ok (c.here, c)

/-- Pass the token at hand. -/
def next : Parser Token :=
  fun c => .ok (c.here, c.advance)

/-- Refuse the token `found` where `expected` should stand. -/
def refuse {α : Type} (expected : String) (found : Token) : Parser α :=
  fun _ => .error (.unexpected expected found)

/-- Read on with `p` where the token at hand is as `wanted`; elsewhere stay and
    answer `otherwise`. -/
def whenAt {α : Type} (wanted : Token → Bool) (p : Parser α) (otherwise : α) : Parser α :=
  fun c => if wanted c.here then p c else .ok (otherwise, c)

/-- Pass a token of the kind `k`. -/
def expect (k : TokenKind) : Parser Unit := do
  let t ← peek
  if t.kind == k then discard next else refuse k.describe t

/-- Pass a token of the kind `k`, if there is one. -/
def skip (k : TokenKind) : Parser Unit :=
  whenAt (·.kind == k) (discard next) ()

/-- The span from `start` to the end of the last token passed. -/
def spanFrom (start : Span) : Parser Span :=
  fun c => .ok (⟨start.start, max c.passed start.start⟩, c)

/-- Further items of a list, each behind a comma. An item that does not get past
    the comma in front of it ends the list. -/
def moreItems {α : Type} (item : Parser α) (c : Cursor) : Except GrammarError (List α × Cursor) :=
  if c.here.kind = .mark .comma then
    match item c.advance with
    | .error e => .error e
    | .ok (a, c') =>
      if c'.ahead.length < c.ahead.length then
        match moreItems item c' with
        | .error e => .error e
        | .ok (as, c'') => .ok (a :: as, c'')
      else .ok ([a], c')
  else .ok ([], c)
termination_by c.ahead.length

/-- One or more items with commas between them. -/
def commaList {α : Type} (item : Parser α) : Parser (List α) := do
  let a ← item
  let as ← moreItems item
  return a :: as

/-! ## Names and values -/

/-- The token `t` sticks to the name `p`: it follows without a gap, and it is a
    dot, or a value or keyword behind a dot. -/
def sticksTo (t : Token) (p : FieldPath) : Bool :=
  t.startsAt p.name.span.stop &&
    (t.kind == .mark .dot || (p.dangling && (t.kind.isValue || t.kind.isKeyword)))

/-- The name `p` together with the token `t` that sticks to it. -/
def join (p : FieldPath) (t : Token) : FieldPath :=
  ⟨⟨p.name.val ++ t.value, p.name.span.merge t.span⟩, t.kind == .mark .dot⟩

/-- The name `p` with all tokens that stick to it, from the token `here` on. -/
def joinAll (p : FieldPath) (here : Token) (passed : Nat) : List Token → FieldPath × Cursor
  | [] => (if sticksTo here p then join p here else p, ⟨here, [], passed⟩)
  | t :: ts =>
    if sticksTo here p then joinAll (join p here) t here.span.stop ts
    else (p, ⟨here, t :: ts, passed⟩)

/-- The name `p` with all tokens that stick to it. -/
def joinRest (p : FieldPath) : Parser FieldPath :=
  fun c => .ok (joinAll p c.here c.passed c.ahead)

/-- A name or value, which may dangle. -/
def path (expected : String) : Parser FieldPath := do
  let t ← peek
  if t.kind.isValue then
    discard next
    joinRest ⟨⟨t.value, t.span⟩, false⟩
  else refuse expected t

/-- A name or value as a text, dangling or not. -/
def text (expected : String) : Parser (Located String) := do
  return (← path expected).name

/-- The name of a source or a target, which must not dangle. -/
def name (expected : String) : Parser (Located String) := do
  let p ← path expected
  let behind ← peek
  if p.dangling then refuse "a name segment after '.'" behind else return p.name

/-- The value of a setting, behind an equals sign or not. -/
def value (expected : String) : Parser (Located String) := do
  skip (.mark .equals)
  text expected

/-- A pair `name = value`. -/
def assignment : Parser Assignment := do
  let name ← text "a parameter name"
  expect (.mark .equals)
  let value ← text "a parameter value"
  return ⟨name, value⟩

/-- One or more pairs in parentheses. -/
def assignments : Parser (List Assignment) := do
  expect (.mark .openParen)
  let entries ← commaList assignment
  expect (.mark .closeParen)
  return entries

/-! ## Columns -/

/-- The token `t` continues a column behind the dot `dot`: a value at any
    distance, a keyword only without a gap. -/
def continuesBehind (t dot : Token) : Bool :=
  t.kind.isValue || (t.kind.isKeyword && t.startsAt dot.span.stop)

/-- The segments of a column behind its first one, and whether the last dot
    dangles. A wildcard is the last segment. -/
def moreSegments (c : Cursor) : (List String × Bool) × Cursor :=
  if c.here.kind = .mark .dot then
    let behind := c.advance
    if behind.here.kind = .mark .star then ((["*"], false), behind.advance)
    else if continuesBehind behind.here c.here then
      let ((segments, dangling), c') := moreSegments behind.advance
      ((behind.here.value :: segments, dangling), c')
    else (([], true), behind)
  else (([], false), c)
termination_by c.ahead.length
decreasing_by
  rename_i atDot _ continues
  have moved : c.ahead ≠ [] := by
    intro stuck
    simp [behind, Cursor.advance_eq_self stuck, continuesBehind, atDot, TokenKind.isValue,
      TokenKind.isKeyword] at continues
  have := List.length_pos_iff.2 moved
  simp only [Cursor.advance_ahead_length]
  omega

/-- The segments of a column behind its first one. -/
def segments : Parser (List String × Bool) :=
  fun c => .ok (moreSegments c)

/-- `AS` and the name behind it. -/
def rename : Parser (Option String) := do
  discard next
  let name ← text "an alias"
  return some name.val

/-- A column, with `AS` and a name behind it where `mayRename` allows it. -/
def column (mayRename : Bool) : Parser Column := do
  let first ← peek
  if first.kind == .mark .star then
    discard next
    return ⟨["*"], false, none, first.span⟩
  else if first.kind.isValue then
    discard next
    let behind ← segments
    let rename ← whenAt (fun t => mayRename && t.kind == .keyword .as) rename none
    let span ← spanFrom first.span
    return ⟨first.value :: behind.1, behind.2, rename, span⟩
  else refuse "a field name or '*'" first

/-! ## Clauses -/

/-- `INTO` and a number of buckets. -/
def bucketCount : Parser (Option (Located String)) := do
  discard next
  let count ← text "a bucket count"
  expect (.keyword .buckets)
  return some count

/-- Fields to bucket by, and a number of buckets; either may be missing. -/
def bucketing : Parser Clause := do
  let names ← whenAt (·.kind.isValue) (commaList (path "a bucket field")) []
  let count ← whenAt (·.kind == .keyword .into) bucketCount none
  return .bucketing names count

/-- A name with an opening and a closing parenthesis behind it is a call. -/
def emptyCall : Parser Bool :=
  fun c =>
    if c.here.kind == .mark .openParen && c.nextKind == .mark .closeParen then
      .ok (true, c.advance.advance)
    else .ok (false, c)

/-- The token at hand, passed, as the text between the key and the value of a
    tag. -/
def marker : Parser (Located String) := do
  let t ← next
  return ⟨t.text, t.span⟩

/-- What follows the key of a tag: nothing, a value behind `=` or `AS`, or any
    other text, which is recorded as it was written. -/
def tagValue : Parser (Option (Located String) × Option (Located String)) := do
  let t ← peek
  if t.kind == .mark .comma || t.kind == .mark .closeParen then return (none, none)
  else if t.kind == .mark .equals || t.kind == .keyword .as then
    let between ← marker
    let value ← text "a tag value"
    return (some between, some value)
  else if t.kind.isValue then
    let between ← marker
    let value ← whenAt (·.kind.isValue) (some <$> text "a tag value") none
    return (some between, value)
  else refuse "',' or ')'" t

/-- A tag: a key, and maybe a value. -/
def tagEntry : Parser TagEntry := do
  let first ← peek
  let key ← text "a tag"
  let behind ← tagValue
  let span ← spanFrom first.span
  return ⟨key, behind.1, behind.2, span⟩

/-- Tags in parentheses, maybe none. -/
def tagEntries : Parser (List TagEntry) := do
  expect (.mark .openParen)
  let entries ← whenAt (·.kind != .mark .closeParen) (commaList tagEntry) []
  expect (.mark .closeParen)
  return entries

/-- What follows the keyword of a clause. -/
def clauseBody (first : Token) : Parser Clause :=
  match first.kind with
  | .keyword k => ofKeyword k
  | _ => refuse "a clause keyword" first
where
  /-- What follows the keyword `k`. -/
  ofKeyword : Keyword → Parser Clause
  | .flag f => return .flag f
  | .setting s => return .setting s (← value s.valueName)
  | .primaryKey => return .primaryKey (← commaList (column false))
  | .ignore => return .ignore (← commaList (column true))
  | .partitionBy => return .partitionBy (← commaList (path "a partition field"))
  | .distributeBy | .clusterBy => bucketing
  | .storeAs => do
    let type ← value "a storage type"
    let parameters ← whenAt (·.kind == .mark .openParen) assignments []
    return .storeAs type parameters
  | .withTimestamp => do
    skip (.mark .equals)
    let field ← path "a timestamp field or sys_time()"
    let call ← emptyCall
    return .timestamp field call
  | .withTag | .withTags => return .tags (← tagEntries)
  | .withKey => do
    skip (.mark .equals)
    expect (.mark .openParen)
    let keys ← commaList (text "a key name")
    expect (.mark .closeParen)
    return .withKeys keys
  | .properties => do
    skip (.mark .equals)
    return .properties (← assignments)
  | _ => refuse "a clause keyword" first

/-- A clause, with the span from its keyword to its last token. -/
def clause : Parser (Located Clause) := do
  let first ← next
  let body ← clauseBody first
  let span ← spanFrom first.span
  return ⟨body, span⟩

/-- The clauses up to a semicolon or the end. There is no answer when a clause
    is read that does not get past its own keyword: the keyword is the last
    token then, it is at hand again, and reading it would go on for ever. -/
def clauses (c : Cursor) : Option (Except GrammarError (List (Located Clause) × Cursor)) :=
  if c.here.kind = .mark .semicolon ∨ c.here.kind = .endOfText then some (.ok ([], c))
  else
    match clause c with
    | .error e => some (.error e)
    | .ok (a, c') =>
      if c'.ahead.length < c.ahead.length then
        (clauses c').map fun r => r.map fun (as, c'') => (a :: as, c'')
      else none
termination_by c.ahead.length

/-! ## Statements -/

/-- The verb and the target of a statement, missing where it only selects. -/
def verbAndTarget : Parser (Option (Located WriteMode) × Option (Located String)) := do
  let first ← peek
  match first.kind with
  | .keyword .insert => intoTarget .insert
  | .keyword .upsert => intoTarget .upsert
  | .keyword .update => intoTarget .update
  | .keyword .select => return (none, none)
  | _ => refuse "'INSERT', 'UPSERT', 'UPDATE' or 'SELECT'" first
where
  /-- The verb that means `mode`, and the target behind it. -/
  intoTarget (mode : WriteMode) :
      Parser (Option (Located WriteMode) × Option (Located String)) := do
    let verb ← next
    expect (.keyword .into)
    let target ← name "a target name"
    return (some ⟨mode, verb.span⟩, some target)

/-- A statement up to its source, without clauses; the span is still open. -/
def opening : Parser Statement := do
  let first ← peek
  let into ← verbAndTarget
  expect (.keyword .select)
  let columns ← commaList (column true)
  expect (.keyword .from)
  let source ← name "a source name"
  return ⟨into.1, into.2, columns, source, [], first.span⟩

/-- The end of a statement, with the whole span of one that began at `start`. -/
def ending (start : Span) : Parser Span := do
  skip (.mark .semicolon)
  let t ← peek
  if t.kind == .endOfText then spanFrom start else refuse TokenKind.endOfText.describe t

end Parser

/-- The statement that the tokens of a text of `width` bytes spell. There is no
    answer when the tokens break off behind a flag or behind the keyword of an
    empty bucketing, where reading does not end. -/
def Statement.ofTokens? (width : Nat) (tokens : List Token) :
    Option (Except GrammarError Statement) :=
  match Parser.opening (Cursor.ofTokens width tokens) with
  | .error e => some (.error e)
  | .ok (opened, c) =>
    (Parser.clauses c).map fun r => do
      let (clauses, c) ← r
      let (span, _) ← Parser.ending opened.span c
      return { opened with clauses, span }

end ConnectorQuery
