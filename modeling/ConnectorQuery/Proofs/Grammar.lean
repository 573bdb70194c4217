import ConnectorQuery.Proofs.Bare
import ConnectorQuery.Token

/-!
# The grammar

What the tokens of a statement may look like, said without a reader: a *phrase*
relates a list of tokens to what its first tokens spell, and to the tokens that
are left behind them. What is spelled is given without places (`Bare`).

    statement := [(INSERT | UPSERT | UPDATE) INTO name] SELECT columns FROM name
                 clause* [;] end
    text      := value token, and the longest run of tokens that stick to it
    name      := text that does not end with a dot
    column    := * | value segments [AS text]
    segments  := (. segment)* [. * | .]

Most of the grammar leaves open how far a phrase goes: whether an optional part
is there is a matter of what follows. Only three phrases look at the token
behind them, since they must not stop short of it: a text takes all that sticks
to it, the dot of a column takes a segment where there is one, and a keyword
without a gap is a segment too.
-/

namespace ConnectorQuery.Grammar

/-- A phrase: `p ts a rest` says that the tokens `ts` open with a spelling of
    `a`, and go on with `rest`. -/
abbrev Phrase (α : Type) := List Token → α → List Token → Prop

/-- The tokens `ts` open with one of the kind `k`, and go on with `rest`. -/
def Opens (k : TokenKind) (ts rest : List Token) : Prop :=
  ∃ t, t.kind = k ∧ ts = t :: rest

/-- The tokens `ts` go on with `rest`, maybe behind one of the kind `k`. -/
def MayOpen (k : TokenKind) (ts rest : List Token) : Prop :=
  ts = rest ∨ Opens k ts rest

/-- One or more phrases with commas between them. -/
inductive IsList {α : Type} (p : Phrase α) : Phrase (List α)
  | one {ts rest : List Token} {a : α} : p ts a rest → IsList p ts [a] rest
  | more {ts behind items rest : List Token} {a : α} {as : List α} :
      p ts a behind → Opens (.mark .comma) behind items → IsList p items as rest →
      IsList p ts (a :: as) rest

/-- Any number of phrases, one behind the other. -/
inductive IsSequence {α : Type} (p : Phrase α) : Phrase (List α)
  | nil {ts : List Token} : IsSequence p ts [] ts
  | cons {ts behind rest : List Token} {a : α} {as : List α} :
      p ts a behind → IsSequence p behind as rest → IsSequence p ts (a :: as) rest

/-- A list that may be missing. -/
def IsOptional {α : Type} (p : Phrase (List α)) : Phrase (List α) :=
  fun ts as rest => (as = [] ∧ ts = rest) ∨ p ts as rest

/-- A list in parentheses. -/
def IsEnclosed {α : Type} (p : Phrase α) : Phrase α :=
  fun ts a rest => ∃ inside behind, Opens (.mark .openParen) ts inside ∧ p inside a behind ∧
    Opens (.mark .closeParen) behind rest

/-! ## Names and values -/

/-- The token `u` sticks to the token `t` in a name: it follows without a gap,
    and it is a dot, or a value or keyword behind a dot. -/
def Sticks (t u : Token) : Prop :=
  u.span.start = t.span.stop ∧
    (u.kind = .mark .dot ∨ (t.kind = .mark .dot ∧ (u.kind.isValue ∨ u.kind.isKeyword)))

/-- The tokens `run` are all that stick to the token before, one to the other;
    behind them comes `rest`. -/
inductive IsRun : Token → List Token → List Token → Prop
  | stop {t : Token} {rest : List Token} : (∀ u ∈ rest.head?, ¬Sticks t u) → IsRun t [] rest
  | more {t u : Token} {run rest : List Token} :
      Sticks t u → IsRun u run rest → IsRun t (u :: run) rest

/-- A path: a value token with its run. It dangles when it ends with a dot that
    is a token. -/
inductive IsPath : Phrase FieldPath
  | intro {first : Token} {run rest : List Token} :
      first.kind.isValue → IsRun first run rest →
      IsPath (first :: (run ++ rest))
        ⟨.nowhere (String.join ((first :: run).map Token.value)),
          (run.getLastD first).kind == .mark .dot⟩ rest

/-- A text: a path that may dangle or not. -/
def IsText : Phrase (Located String) :=
  fun ts s rest => ∃ dangling, IsPath ts ⟨s, dangling⟩ rest

/-- A name: a path that does not dangle. -/
def IsName : Phrase (Located String) :=
  fun ts s rest => IsPath ts ⟨s, false⟩ rest

/-- The value of an option: a text, maybe behind an equals sign. -/
def IsValue : Phrase (Located String) :=
  fun ts s rest => ∃ text, MayOpen (.mark .equals) ts text ∧ IsText text s rest

/-- A pair: a text, an equals sign, a text. -/
inductive IsAssignment : Phrase Assignment
  | intro {ts behind value rest : List Token} {a : Assignment} :
      IsText ts a.name behind → Opens (.mark .equals) behind value → IsText value a.value rest →
      IsAssignment ts a rest

/-! ## Columns -/

/-- The token `t` is the next segment of a column behind its dot `dot`: a value
    at any distance, a keyword only without a gap. -/
def Continues (dot t : Token) : Prop :=
  t.kind.isValue ∨ (t.kind.isKeyword ∧ t.span.start = dot.span.stop)

/-- The segments of a column behind its first one, and whether it dangles. A
    wildcard is the last segment, and a column dangles on a dot that neither a
    wildcard nor a segment follows. -/
inductive IsSegments : Phrase (List String × Bool)
  | none {rest : List Token} : IsSegments rest ([], false) rest
  | wildcard {ts behind rest : List Token} :
      Opens (.mark .dot) ts behind → Opens (.mark .star) behind rest →
      IsSegments ts (["*"], false) rest
  | segment {dot t : Token} {ts rest : List Token} {segments : List String} {dangling : Bool} :
      dot.kind = .mark .dot → Continues dot t → IsSegments ts (segments, dangling) rest →
      IsSegments (dot :: t :: ts) (t.value :: segments, dangling) rest
  | dangling {dot : Token} {rest : List Token} :
      dot.kind = .mark .dot → (∀ t ∈ rest.head?, t.kind ≠ .mark .star ∧ ¬Continues dot t) →
      IsSegments (dot :: rest) ([], true) rest

/-- A column, with another name behind `AS` only where `mayRename` allows it. -/
inductive IsColumn (mayRename : Bool) : Phrase Column
  | wildcard {ts rest : List Token} :
      Opens (.mark .star) ts rest → IsColumn mayRename ts ⟨["*"], false, none, .nowhere⟩ rest
  | plain {first : Token} {ts rest : List Token} {segments : List String} {dangling : Bool} :
      first.kind.isValue → IsSegments ts (segments, dangling) rest →
      IsColumn mayRename (first :: ts) ⟨first.value :: segments, dangling, none, .nowhere⟩ rest
  | renamed {first : Token} {ts behind named rest : List Token} {segments : List String}
      {dangling : Bool} {name : Located String} :
      mayRename → first.kind.isValue → IsSegments ts (segments, dangling) behind →
      Opens (.keyword .as) behind named → IsText named name rest →
      IsColumn mayRename (first :: ts)
        ⟨first.value :: segments, dangling, some name.val, .nowhere⟩ rest

/-! ## Clauses -/

/-- A tag: a text alone, a text with another one behind `=` or `AS`, or a text
    with a value token behind it and maybe a further text. The token between
    the two is kept as it was written. -/
inductive IsTagEntry : Phrase TagEntry
  | key {ts rest : List Token} {key : Located String} :
      IsText ts key rest → IsTagEntry ts ⟨key, none, none, .nowhere⟩ rest
  | assigned {ts value rest : List Token} {marker : Token} {key val : Located String} :
      IsText ts key (marker :: value) →
      marker.kind = .mark .equals ∨ marker.kind = .keyword .as ∨ marker.kind.isValue →
      IsText value val rest →
      IsTagEntry ts ⟨key, some (.nowhere marker.text), some val, .nowhere⟩ rest
  | marked {ts rest : List Token} {marker : Token} {key : Located String} :
      IsText ts key (marker :: rest) → marker.kind.isValue →
      IsTagEntry ts ⟨key, some (.nowhere marker.text), none, .nowhere⟩ rest

/-- The number of buckets, which may be missing. -/
inductive IsBucketCount : Phrase (Option (Located String))
  | none {rest : List Token} : IsBucketCount rest none rest
  | some {ts text behind rest : List Token} {count : Located String} :
      Opens (.keyword .into) ts text → IsText text count behind →
      Opens (.keyword .buckets) behind rest → IsBucketCount ts (some count) rest

/-- The parentheses of a call, which may be missing. -/
inductive IsCall : Phrase Bool
  | none {rest : List Token} : IsCall rest false rest
  | call {ts behind rest : List Token} :
      Opens (.mark .openParen) ts behind → Opens (.mark .closeParen) behind rest →
      IsCall ts true rest

/-- A clause. -/
inductive IsClause : Phrase Clause
  | flag {ts rest : List Token} (f : Flag) :
      Opens (.keyword (.flag f)) ts rest → IsClause ts (.flag f) rest
  | setting {ts behind rest : List Token} {value : Located String} (s : Setting) :
      Opens (.keyword (.setting s)) ts behind → IsValue behind value rest →
      IsClause ts (.setting s value) rest
  | primaryKey {ts behind rest : List Token} {columns : List Column} :
      Opens (.keyword .primaryKey) ts behind → IsList (IsColumn false) behind columns rest →
      IsClause ts (.primaryKey columns) rest
  | ignore {ts behind rest : List Token} {columns : List Column} :
      Opens (.keyword .ignore) ts behind → IsList (IsColumn true) behind columns rest →
      IsClause ts (.ignore columns) rest
  | partitionBy {ts behind rest : List Token} {names : List FieldPath} :
      Opens (.keyword .partitionBy) ts behind → IsList IsPath behind names rest →
      IsClause ts (.partitionBy names) rest
  | bucketing {k : Keyword} {ts behind number rest : List Token} {names : List FieldPath}
      {count : Option (Located String)} :
      k = .distributeBy ∨ k = .clusterBy → Opens (.keyword k) ts behind →
      IsOptional (IsList IsPath) behind names number → IsBucketCount number count rest →
      IsClause ts (.bucketing names count) rest
  | storeAs {ts behind inside rest : List Token} {type : Located String}
      {parameters : List Assignment} :
      Opens (.keyword .storeAs) ts behind → IsValue behind type inside →
      IsOptional (IsEnclosed (IsList IsAssignment)) inside parameters rest →
      IsClause ts (.storeAs type parameters) rest
  | timestamp {ts behind path parens rest : List Token} {field : FieldPath} {call : Bool} :
      Opens (.keyword .withTimestamp) ts behind → MayOpen (.mark .equals) behind path →
      IsPath path field parens → IsCall parens call rest → IsClause ts (.timestamp field call) rest
  | tags {k : Keyword} {ts behind rest : List Token} {entries : List TagEntry} :
      k = .withTag ∨ k = .withTags → Opens (.keyword k) ts behind →
      IsEnclosed (IsOptional (IsList IsTagEntry)) behind entries rest →
      IsClause ts (.tags entries) rest
  | withKeys {ts behind inside rest : List Token} {keys : List (Located String)} :
      Opens (.keyword .withKey) ts behind → MayOpen (.mark .equals) behind inside →
      IsEnclosed (IsList IsText) inside keys rest → IsClause ts (.withKeys keys) rest
  | properties {ts behind inside rest : List Token} {entries : List Assignment} :
      Opens (.keyword .properties) ts behind → MayOpen (.mark .equals) behind inside →
      IsEnclosed (IsList IsAssignment) inside entries rest → IsClause ts (.properties entries) rest

/-- A clause as it stands in a statement. -/
def IsStatementClause : Phrase (Located Clause) :=
  fun ts c rest => c.span = .nowhere ∧ IsClause ts c.val rest

/-! ## Statements -/

/-- The keyword of a verb. -/
def verbKeyword : WriteMode → Keyword
  | .insert => .insert
  | .upsert => .upsert
  | .update => .update

/-- A verb and its target, which may be missing together. -/
inductive IsInto : Phrase (Option (Located WriteMode) × Option (Located String))
  | none {rest : List Token} : IsInto rest (none, none) rest
  | some {ts into text rest : List Token} {target : Located String} (mode : WriteMode) :
      Opens (.keyword (verbKeyword mode)) ts into → Opens (.keyword .into) into text →
      IsName text target rest → IsInto ts (some (.nowhere mode), some target) rest

/-- The tokens of a text spell the statement, up to the end of the text. -/
inductive IsStatement : List Token → Statement → Prop
  | intro {ts select columns origin source clauses semicolon stop : List Token} {st : Statement} :
      IsInto ts (st.verb, st.target) select → Opens (.keyword .select) select columns →
      IsList (IsColumn true) columns st.columns origin → Opens (.keyword .from) origin source →
      IsName source st.source clauses → IsSequence IsStatementClause clauses st.clauses semicolon →
      MayOpen (.mark .semicolon) semicolon stop → Opens .endOfText stop [] →
      st.span = .nowhere → IsStatement ts st

end ConnectorQuery.Grammar
