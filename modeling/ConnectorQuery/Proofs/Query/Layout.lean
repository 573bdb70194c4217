import ConnectorQuery.Proofs.Query.Places
import ConnectorQuery.Proofs.Statement.Layout
import ConnectorQuery.Proofs.Token.Spacing

/-!
# Meaning whatever the layout

A statement is resolved without a look at its places: without them it comes to
the same query, or breaks the same rule (`Query.ofStatement_plain`). Together with
the reading of tokens that read alike this says what of a text counts for its
meaning (`Query.sameOutcome_parse`): neither the gaps between its tokens nor the
letter case of its keywords. So one space will do for a gap
(`Query.sameOutcome_parse_respace`).
-/

namespace ConnectorQuery

/-! ## Complaints without places -/

/-- The broken rule without its place. -/
def RuleError.bare : RuleError → RuleError
  | .duplicateField list field _ => .duplicateField list field .nowhere
  | .duplicateName clause name _ => .duplicateName clause name .nowhere
  | .blankName clause _ => .blankName clause .nowhere
  | .duplicateParameter name _ => .duplicateParameter name .nowhere
  | .duplicateProperty name _ => .duplicateProperty name .nowhere
  | .repeatedClause clause _ => .repeatedClause clause .nowhere
  | .invalidNumber clause value expected _ => .invalidNumber clause value expected .nowhere
  | .unknownValue cause _ => .unknownValue cause .nowhere
  | .invalidTag text _ => .invalidTag text .nowhere
  | .tagEndsWithDot key _ => .tagEndsWithDot key .nowhere
  | .missingBucketNames clause _ => .missingBucketNames clause .nowhere
  | .missingBucketCount clause _ => .missingBucketCount clause .nowhere
  | .unterminatedPath path _ => .unterminatedPath path .nowhere
  | .blankKeyDelimiter _ => .blankKeyDelimiter .nowhere
  | .unsupportedTimestampFunction name _ => .unsupportedTimestampFunction name .nowhere
  | .duplicateMapping role name => .duplicateMapping role name
  | .invalidName role name reason => .invalidName role name reason
  | .unsupportedProperties names allowed => .unsupportedProperties names allowed

/-- The failure without its place. -/
def Failure.bare : Failure → Failure
  | .grammar _ e => .grammar .start e.bare
  | .rule e => .rule e.bare

/-! ## Columns -/

namespace Column

variable (c : Column)

/-- The name of a column does not hang on its place, and only the place of a complaint does. -/
theorem resolve_bare : c.bare.resolve = c.resolve.mapError RuleError.bare := by
  dsimp only [resolve, bare]
  split
  · rfl
  · cases c.segments.getLast? <;> rfl

theorem plainField_bare : c.bare.plainField = c.plainField.mapError RuleError.bare :=
  bind_eq_mapError c.resolve_bare fun _ => rfl

theorem routedField_bare : c.bare.routedField = c.routedField.mapError RuleError.bare :=
  bind_eq_mapError c.plainField_bare fun _ => rfl

theorem keyColumn_bare : c.bare.keyColumn = c.keyColumn.mapError RuleError.bare :=
  bind_eq_mapError c.resolve_bare fun _ => rfl

end Column

/-- Whether a field is there already does not hang on its place. -/
theorem addField_nowhere (list : FieldList) (fs : List Field) (f : Field) (span : Span) :
    addField list fs f .nowhere = (addField list fs f span).mapError RuleError.bare := by
  unfold addField
  split <;> rfl

/-- A column without its place is added as the column is. -/
theorem Query.addColumn_bare (q : Query) (c : Column) :
    q.addColumn c.bare = (q.addColumn c).mapError RuleError.bare := by
  refine bind_eq_mapError c.routedField_bare fun f => ?_
  have added (list : FieldList) (fs : List Field) := addField_nowhere list fs f c.span
  split <;> exact bind_eq_mapError (added _ _) fun _ => rfl

theorem ignoredFields_bare (columns : List Column) : ignoredFields (columns.map Column.bare) =
    (ignoredFields columns).mapError RuleError.bare := by
  refine foldlM_map_mapError (fun fs c => ?_) columns []
  exact bind_eq_mapError c.plainField_bare fun f => addField_nowhere .ignoredFields fs f c.span

/-! ## Values -/

namespace FieldPath

theorem resolve_bare (p : FieldPath) :
    p.bare.resolve = (p.resolve.map Located.bare).mapError RuleError.bare := by
  dsimp only [resolve, bare]
  split <;> rfl

end FieldPath

/-- Whether names differ does not hang on their places. -/
theorem uniqueNames_bare (clause : String) (names : List (Located String)) :
    uniqueNames clause (names.map Located.bare) =
      (uniqueNames clause names).mapError RuleError.bare := by
  refine foldlM_map_mapError (fun seen name => ?_) names []
  dsimp only [Located.bare, Located.nowhere]
  split
  · rfl
  · split <;> rfl

theorem resolveNames_bare (clause : String) (paths : List FieldPath) :
    resolveNames clause (paths.map FieldPath.bare) =
      (resolveNames clause paths).mapError RuleError.bare := by
  have resolved : (paths.map FieldPath.bare).mapM FieldPath.resolve =
      ((paths.mapM FieldPath.resolve).map (List.map Located.bare)).mapError RuleError.bare := by
    induction paths with
    | nil => rfl
    | cons p ps ih =>
      rw [List.map_cons, List.mapM_cons, List.mapM_cons, ih, p.resolve_bare]
      cases p.resolve with
      | error e => rfl
      | ok name => cases ps.mapM FieldPath.resolve <;> rfl
  exact bind_eq_mapError_of_map resolved (uniqueNames_bare clause)

section

variable (value : Located String)

/-- A number is read off its text alone. -/
theorem countOf_bare (clause : String) :
    countOf clause value.bare = (countOf clause value).mapError RuleError.bare := by
  dsimp only [countOf, Located.bare, Located.nowhere]
  split <;> rfl

theorem longOf_bare (clause : String) :
    longOf clause value.bare = (longOf clause value).mapError RuleError.bare := by
  dsimp only [longOf, Located.bare, Located.nowhere]
  split <;> rfl

/-- A word of a vocabulary is read off its text alone. -/
theorem memberOf_bare (α : Type) [Vocabulary α] :
    memberOf α value.bare = (memberOf α value).mapError RuleError.bare := by
  dsimp only [memberOf, Located.bare, Located.nowhere]
  split <;> rfl

theorem delimiterOf_bare :
    delimiterOf value.bare = (delimiterOf value).mapError RuleError.bare := by
  dsimp only [delimiterOf, Located.bare, Located.nowhere]
  split <;> rfl

/-- Whether a path is the system time does not hang on its place. -/
theorem Timestamp.ofPath_bare (call : Bool) :
    ofPath value.bare call = (ofPath value call).mapError RuleError.bare := by
  dsimp only [ofPath, Located.bare, Located.nowhere]
  split
  · split <;> rfl
  · split <;> rfl

end

/-- Parameters without their places are collected as they are. -/
theorem storageParameters_bare (entries : List Assignment) :
    storageParameters (entries.map Assignment.bare) =
      (storageParameters entries).mapError RuleError.bare := by
  refine foldlM_map_mapError (fun d e => ?_) entries _
  dsimp only [addStorageParameter, Assignment.bare, Located.bare, Located.nowhere]
  split <;> rfl

theorem propertyEntries_bare (entries : List Assignment) :
    propertyEntries (entries.map Assignment.bare) =
      (propertyEntries entries).mapError RuleError.bare := by
  refine foldlM_map_mapError (fun d e => ?_) entries _
  dsimp only [addPropertyEntry, Assignment.bare, Located.bare, Located.nowhere]
  split <;> rfl

/-- The spelling of `AS` in front of a value does not count. -/
theorem Tag.ofEntry_plain (e : TagEntry) :
    ofEntry e.plain = (ofEntry e).mapError RuleError.bare := by
  obtain ⟨key, marker, value, span⟩ := e
  dsimp only [ofEntry, TagEntry.plain, Located.bare, Located.nowhere]
  split
  · cases marker <;> cases value <;> rfl
  match marker, value with
  | none, none => rfl
  | none, some value => rfl
  | some marker, none => rfl
  | some marker, some value =>
    dsimp only [TagEntry.plainBehind, TagEntry.plainBehind.plainMarker, Option.map_some,
      Located.bare, Located.nowhere]
    -- all spellings of `AS` mean the same, and none of them is an equals sign
    by_cases isAs : Text.eqIgnoringCase marker.val "as" = true
    · have notEquals : marker.val ≠ "=" := fun h => absurd isAs (by rw [h]; decide)
      rw [if_pos isAs, if_neg notEquals, if_pos isAs]
      rfl
    · rw [if_neg isAs, if_neg isAs]
      split <;> rfl

/-- A bucketing clause without places is resolved as it is. -/
theorem Bucketing.resolve_bare (clause : String) (span : Span) (names : List FieldPath)
    (number : Option (Located String)) :
    resolve clause .nowhere (names.map FieldPath.bare) (number.map Located.bare) =
      (resolve clause span names number).mapError RuleError.bare := by
  simp only [resolve, List.isEmpty_map]
  split
  · rfl
  · cases number with
    | none => rfl
    | some n =>
      exact bind_eq_mapError (resolveNames_bare clause names) fun _ =>
        bind_eq_mapError (countOf_bare n "BUCKETS") fun _ => rfl

/-! ## Clauses -/

/-- A setting without its place sets what it does with it. -/
theorem Setting.update_bare (s : Setting) (value : Located String) :
    s.update value.bare = (s.update value).mapError RuleError.bare := by
  cases s with
  | batch | limit | projectTo | delay | lockTime =>
    exact bind_eq_mapError (countOf_bare value _) fun _ => rfl
  | ttl | flushInterval | flushSize | flushCount =>
    exact bind_eq_mapError (longOf_bare value _) fun _ => rfl
  | format | timestampUnit | compression | schemaEvolution | partitioning =>
    exact bind_eq_mapError (memberOf_bare value _) fun _ => rfl
  | keyDelimiter => exact bind_eq_mapError (delimiterOf_bare value) fun _ => rfl
  | _ => rfl

/-- A clause comes to the same wherever it stands. -/
theorem Clause.update_plain (c : Clause) (span : Span) :
    c.plain.update .nowhere = (c.update span).mapError RuleError.bare := by
  cases c with
  | flag f => rfl
  | setting s value => exact s.update_bare value
  | primaryKey columns =>
    exact bind_eq_mapError (mapM_map_mapError Column.keyColumn_bare columns) fun _ => rfl
  | ignore columns => exact bind_eq_mapError (ignoredFields_bare columns) fun _ => rfl
  | partitionBy names => exact bind_eq_mapError (resolveNames_bare _ names) fun _ => rfl
  | bucketing names number =>
    exact bind_eq_mapError (Bucketing.resolve_bare _ span names number) fun _ => rfl
  | storeAs type parameters =>
    exact bind_eq_mapError (storageParameters_bare parameters) fun _ => rfl
  | timestamp value call =>
    exact bind_eq_mapError_of_map value.resolve_bare fun name =>
      bind_eq_mapError (Timestamp.ofPath_bare name call) fun _ => rfl
  | tags entries =>
    exact bind_eq_mapError (mapM_map_mapError Tag.ofEntry_plain entries) fun _ => rfl
  | withKeys keys =>
    change Except.ok (fun q : Query =>
      { q with withKeys := some ((keys.map Located.bare).map Located.val) }) = _
    rw [List.map_map]
    rfl
  | properties entries => exact bind_eq_mapError (propertyEntries_bare entries) fun _ => rfl

/-- A clause keeps its keyword when it is made plain. -/
theorem Clause.keyword_plain (c : Clause) : c.plain.keyword = c.keyword := by
  cases c <;> rfl

namespace Query

/-- Plain clauses are applied as they are. The induction is on the clauses, for any
    keywords seen before. -/
theorem applyClauses_plain (q : Query) (seen : List Keyword) (cs : List (Located Clause)) :
    q.applyClauses seen (cs.map Located.plain) =
      (q.applyClauses seen cs).mapError RuleError.bare := by
  induction cs generalizing q seen with
  | nil => rfl
  | cons c cs ih =>
    have keyword : (Located.plain c).val.keyword = c.val.keyword := c.val.keyword_plain
    rw [List.map_cons, applyClauses, applyClauses, keyword]
    split
    · rfl
    · exact bind_eq_mapError (c.val.update_plain c.span) fun u => ih _ _

/-- A statement means the same wherever its parts stand. -/
theorem ofStatement_plain (text : String) (st : Statement) :
    ofStatement text st.plain = (ofStatement text st).mapError RuleError.bare := by
  obtain ⟨verb, target, columns, source, clauses, span⟩ := st
  have whole (opened : Query) :
      ((columns.map Column.bare).foldlM addColumn opened >>= fun selected =>
        selected.applyClauses [] (clauses.map Located.plain)) =
      (columns.foldlM addColumn opened >>= fun selected =>
        selected.applyClauses [] clauses).mapError RuleError.bare :=
    bind_eq_mapError (foldlM_map_mapError addColumn_bare columns opened) fun selected =>
      selected.applyClauses_plain [] clauses
  rw [ofStatement_eq, ofStatement_eq]
  -- the members that are taken over have no places
  cases verb <;> cases target <;> exact whole _

/-! ## The text of a statement -/

/-- The query with another text. -/
def withStatement (q : Query) (text : String) : Query :=
  { q with statement := text }

/-- The text of a statement is one member of the query, and no other depends on it. -/
theorem get_withStatement_of_ne {q : Query} {text : String} {m : Member} (h : m ≠ .statement) :
    (q.withStatement text).get m = q.get m :=
  get_put_of_ne h

/-- A column is added whatever the text of the statement. -/
theorem addColumn_withStatement (text : String) (q : Query) (c : Column) :
    (q.withStatement text).addColumn c = (q.addColumn c).map (withStatement · text) := by
  refine bind_eq_map fun f => ?_
  split <;> exact bind_eq_map fun _ => rfl

end Query

/-- No clause lays down the text. -/
theorem Update.Lays.withStatement {k : Keyword} {u : Update} (h : u.Lays k) (q : Query)
    (text : String) : u (q.withStatement text) = (u q).withStatement text := by
  refine Query.ext_get fun m => ?_
  -- the text is left alone, and what is laid down does not depend on it
  by_cases hm : m = .statement
  · subst hm
    exact h.get_of_ne fun none => nomatch none
  · rw [Query.get_withStatement_of_ne hm]
    exact h.get_congr (Query.get_withStatement_of_ne hm)

namespace Query

/-- Clauses are applied whatever the text of the statement. -/
theorem applyClauses_withStatement (text : String) (q : Query) (seen : List Keyword)
    (cs : List (Located Clause)) : (q.withStatement text).applyClauses seen cs =
      (q.applyClauses seen cs).map (withStatement · text) := by
  induction cs generalizing q seen with
  | nil => rfl
  | cons c cs ih =>
    rw [applyClauses, applyClauses]
    split
    · rfl
    · cases hu : c.val.update c.span with
      | error e => rfl
      | ok u =>
        refine Eq.trans ?_ (ih (u q) _)
        exact congrArg (applyClauses · _ cs) ((Clause.lays_update hu).withStatement q text)

/-- The text of a statement is kept, and nothing else depends on it. -/
theorem ofStatement_withStatement (text text' : String) (st : Statement) :
    ofStatement text' st = (ofStatement text st).map (withStatement · text') := by
  have selected := foldlM_eq_map (addColumn_withStatement text') st.columns (opened text st)
  have another : opened text' st = (opened text st).withStatement text' := rfl
  rw [ofStatement_eq, ofStatement_eq, another, selected]
  cases st.columns.foldlM addColumn (opened text st) with
  | error e => rfl
  | ok q => exact applyClauses_withStatement text' q [] st.clauses

/-- Texts whose tokens read alike mean the same. -/
theorem sameOutcome_parse {a b : String} (along : ReadAlike (Token.tokenize a) (Token.tokenize b)) :
    SameOutcome (fun q q' => q' = q.withStatement b) (fun e e' => e.bare = e'.bare)
      (parse a) (parse b) := by
  obtain ⟨x, read, parsed⟩ := Statement.exists_ofTokens? a
  obtain ⟨y, read', parsed'⟩ := Statement.exists_ofTokens? b
  have same := Statement.sameOutcome_ofTokens? along (Text.width a.toList) (Text.width b.toList)
  rw [read, read'] at same
  obtain ⟨same⟩ := same
  have statements : SameOutcome (fun st st' => st.plain = st'.plain) (fun e e' => e.bare = e'.bare)
      (Statement.parse a) (Statement.parse b) := by
    rw [parsed, parsed']
    exact same.mapError fun e e' cause => congrArg (Failure.grammar .start) cause
  refine statements.bind fun st st' plain => ?_
  have resolved : (ofStatement b st').mapError RuleError.bare =
      ((ofStatement a st).map (withStatement · b)).mapError RuleError.bare := by
    rw [← ofStatement_plain, ← plain, ofStatement_plain, ofStatement_withStatement a b]
  exact (SameOutcome.of_mapError_eq resolved).mapError fun e e' cause => congrArg Failure.rule cause

/-- With one space for each gap, and none at its ends, a text means the same. -/
theorem sameOutcome_parse_respace (text : String) :
    SameOutcome (fun q q' => q' = q.withStatement (Token.respace text))
      (fun e e' => e.bare = e'.bare) (parse text) (parse (Token.respace text)) :=
  sameOutcome_parse (Token.readAlike_respace text)

/-- Neither the layout of a text nor the letter case of its keywords matters for what
    it means. Of two texts whose tokens differ in nothing else, either both mean
    something, and the same but for the text itself, or both fail with the same
    complaint, though about another place. -/
theorem parse_sameButLayout {a b : String}
    (h : SameButLayout (Token.tokenize a) (Token.tokenize b)) :
    ((∃ q, parse a = .ok q) ↔ ∃ q, parse b = .ok q) ∧
    (∀ q q', parse a = .ok q → parse b = .ok q' → q' = { q with statement := b }) ∧
    ∀ e e', parse a = .error e → parse b = .error e' → e.bare = e'.bare := by
  have along := h.readAlike (Token.orderly_tokenize a) (fun _ => Token.genuine_of_mem_tokenize _)
    fun _ => Token.genuine_of_mem_tokenize _
  have same := sameOutcome_parse along
  exact ⟨same.exists_ok_iff, fun _ _ => same.of_ok, fun _ _ => same.of_error⟩

/-- Other gaps, and keywords in another letter case; one of these is a segment of a
    column, and one stands between the key and the value of a tag. -/
theorem parse_sameButLayout_tag :
    let a := "INSERT INTO t SELECT a.from FROM s WITHTAG(x AS y)"
    let b := "insert\n into t select  a.from\tfrom s withTag(x As  y) "
    SameButLayout (Token.tokenize a) (Token.tokenize b) ∧
      ∃ q q', parse a = .ok q ∧ parse b = .ok q' ∧ q' = { q with statement := b } := by
  intro a b
  have alike : SameButLayout (Token.tokenize a) (Token.tokenize b) := by decide +kernel
  obtain ⟨succeeds, same, -⟩ := parse_sameButLayout alike
  obtain ⟨q, hq⟩ := exists_of_isOk (x := parse a) (by decide +kernel)
  obtain ⟨q', hq'⟩ := succeeds.1 ⟨q, hq⟩
  exact ⟨alike, q, q', hq, hq', same q q' hq hq'⟩

end Query

end ConnectorQuery
