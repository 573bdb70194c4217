import ConnectorQuery.Proofs.Statement.Following

/-!
# Reading ends

Reading without guards (`Unguarded`) ends for most lists of tokens that are picked from a
text, in any order, and comes to what reading with guards comes to. All loops but the one
over the clauses end in any case (`Proofs.Statement.Following`). That one goes on for ever
from a place where the last token is a keyword that is a whole clause by itself: the clause
is read, the last token stays at hand, and it is the same clause again.

* `stuck_of_clause`: a clause that does not get ahead is such a keyword;
* `clauses_eq_none_of_stuck`: from there the clauses do not end;
* `follows_clauses`: and only from there;
* `reading_ends`: so reading ends for all lists of tokens that do not close with such a
  keyword, and in particular for the tokens of a text.
-/

namespace ConnectorQuery

variable {α : Type}

/-- The keyword is a whole clause by itself. -/
def Keyword.isWholeClause : Keyword → Bool
  | .flag _ | .distributeBy | .clusterBy => true
  | _ => false

/-- The token is a whole clause by itself. -/
def Token.isWholeClause (t : Token) : Bool :=
  match t.kind with
  | .keyword k => k.isWholeClause
  | _ => false

/-- Eleven keywords may be a clause with nothing behind them. -/
theorem Keyword.isWholeClause_iff {k : Keyword} : k.isWholeClause = true ↔ k.spelling ∈
    ["AUTOCREATE", "AUTOEVOLVE", "CAPITALIZE", "INITIALIZE", "WITH_STRUCTURE", "WITHUNWRAP",
      "WITH_OVERWRITE", "WITH_ACK", "WITH_ENCODE_BASE64", "DISTRIBUTEBY", "CLUSTERBY"] := by
  have each : ∀ k ∈ all, k.isWholeClause = decide (k.spelling ∈
      ["AUTOCREATE", "AUTOEVOLVE", "CAPITALIZE", "INITIALIZE", "WITH_STRUCTURE", "WITHUNWRAP",
        "WITH_OVERWRITE", "WITH_ACK", "WITH_ENCODE_BASE64", "DISTRIBUTEBY", "CLUSTERBY"]) := by
    decide +kernel
  rw [each k k.mem_all, decide_eq_true_eq]

/-- The last token is at hand, and it is a whole clause by itself. -/
structure Cursor.Stuck (c : Cursor) : Prop where
  last : c.ahead = []
  whole : c.here.isWholeClause = true

theorem Cursor.Stuck.goesOn {c : Cursor} (stuck : c.Stuck) :
    ¬ (c.here.kind = .mark .semicolon ∨ c.here.kind = .endOfText) := by
  have whole := stuck.whole
  rintro (h | h) <;> rw [Token.isWholeClause, h] at whole <;> exact nomatch whole

namespace Parser

/-! ## Clauses that do not get ahead -/

/-- What follows the keyword of a clause that is not whole does not begin with a keyword. -/
theorem refuses_ofKeyword {k : Keyword} (h : k.isWholeClause = false) (first : Token)
    (k' : Keyword) : Refuses (.keyword k') (clauseBody.ofKeyword first k) := by
  have equals : TokenKind.keyword k' ≠ .mark .equals := nofun
  have star : TokenKind.keyword k' ≠ .mark .star := nofun
  have openParen : Refuses (.keyword k') (expect (.mark .openParen)) := refuses_expect nofun
  cases k with
  | flag f => exact nomatch h
  | distributeBy => exact nomatch h
  | clusterBy => exact nomatch h
  -- these all want something behind them that a keyword is not
  | setting s => exact ((refuses_text _ rfl).skip_bind equals).bind
  | primaryKey => exact (refuses_column _ rfl star).bind.bind
  | ignore => exact (refuses_column _ rfl star).bind.bind
  | partitionBy => exact (refuses_path _ rfl).bind.bind
  | storeAs => exact ((refuses_text _ rfl).skip_bind equals).bind
  | withTimestamp => exact (refuses_path _ rfl).bind.skip_bind equals
  | withTag => exact openParen.bind.bind
  | withTags => exact openParen.bind.bind
  | withKey => exact openParen.bind.skip_bind equals
  | properties => exact openParen.bind.bind.skip_bind equals
  | _ => exact refuses_refuse _ _

/-- A clause that does not get ahead is the last token. -/
theorem stuck_of_clause {c c' : Cursor} {a : Located Clause} (h : clause c = .ok (a, c'))
    (stays : ¬ c'.ahead.length < c.ahead.length) : c.Stuck := by
  have last : c.ahead = [] := by
    have le := (clause_tokens_suffix h).length_le
    simp only [Cursor.tokens, List.length_cons, Cursor.advance_ahead_length] at le
    exact List.length_eq_zero_iff.1 (by omega)
  refine ⟨last, Bool.of_not_eq_false fun notWhole => ?_⟩
  -- the keyword is at hand again, where the rest of the clause is to be read
  rw [clause, next_bind, Cursor.advance_eq_self last] at h
  obtain ⟨body, c₁, hbody, -⟩ := bind_eq_ok.1 h
  rw [Token.isWholeClause] at notWhole
  rw [clauseBody] at hbody
  cases hk : c.here.kind with
  | keyword k =>
    rw [hk] at notWhole hbody
    exact refuses_ofKeyword notWhole c.here k hk hbody
  | _ =>
    rw [hk] at hbody
    exact refuse_ne_ok hbody

/-- There is no answer only where the last token is a whole clause. -/
theorem whole_of_clauses_eq_none {c : Cursor} (h : clauses c = none) :
    ∃ t, c.tokens.getLast? = some t ∧ t.isWholeClause = true := by
  fun_induction clauses c with
  | case1 c stop => cases h
  | case2 c stop e he => cases h
  | case3 c stop a c' hc shorter ih =>
    obtain ⟨t, ht, whole⟩ := ih (Option.map_eq_none_iff.1 h)
    obtain ⟨front, split⟩ := forward_clause _ _ _ hc
    exact ⟨t, by rw [← split, List.getLast?_append, ht]; rfl, whole⟩
  | case4 c stop a c' hc stays =>
    obtain ⟨last, whole⟩ := stuck_of_clause hc stays
    exact ⟨c.here, by rw [Cursor.tokens, last]; rfl, whole⟩

end Parser

/-- There is an answer for all tokens that do not close with a whole clause. -/
theorem Statement.ofTokens?_isSome_of_last {width : Nat} {tokens : List Token}
    (h : ∀ t ∈ tokens.getLast?, t.isWholeClause = false) :
    (ofTokens? width tokens).isSome := by
  cases tokens with
  | nil => rfl
  | cons t ts =>
    rw [ofTokens?]
    split
    · rfl
    · rename_i opened c hc
      rw [Option.isSome_map, ← Option.ne_none_iff_isSome]
      intro hnone
      obtain ⟨t', ht', whole⟩ := Parser.whole_of_clauses_eq_none hnone
      obtain ⟨front, split⟩ := Parser.forward_opening _ _ _ hc
      have last : (t :: ts).getLast? = some t' := by
        change (Cursor.ofTokens width (t :: ts)).tokens.getLast? = _
        rw [← split, List.getLast?_append, ht']
        rfl
      exact Bool.false_ne_true ((h t' last).symm.trans whole)

namespace Unguarded

/-! ## The loop over the clauses -/

section

variable {s s' : State} {as : List (Located Clause)}

/-- At a semicolon and at the end the loop over the clauses is left. -/
theorem nextClause_of_stop
    (stop : s.place.here.kind = .mark .semicolon ∨ s.place.here.kind = .endOfText) :
    nextClause as s = some (.ok (.inr as), s) := by
  change (if s.place.here.kind == .mark .semicolon || s.place.here.kind == .endOfText
    then _ else _ : Run _) s = _
  rw [if_pos (by simpa using stop)]
  rfl

/-- Elsewhere it reads one more clause. -/
theorem nextClause_of_clause
    (goesOn : ¬ (s.place.here.kind = .mark .semicolon ∨ s.place.here.kind = .endOfText)) :
    nextClause as s = (clause >>= fun a => pure (.inl (as ++ [a]))) s := by
  change (if s.place.here.kind == .mark .semicolon || s.place.here.kind == .endOfText
    then _ else _ : Run _) s = _
  rw [if_neg (by simpa using goesOn)]

/-- The keyword is read, and it is at hand again. -/
theorem clause_of_stuck (stuck : s.place.Stuck) :
    ∃ a s', clause s = some (.ok a, s') ∧ s'.place = s.place := by
  obtain ⟨⟨⟨kind, text, span⟩, ahead, passed⟩, consumed⟩ := s
  obtain ⟨last, whole⟩ := stuck
  obtain rfl : ahead = [] := last
  cases kind with
  | keyword k =>
    cases k with
    | flag f => exact ⟨_, _, rfl, rfl⟩
    | distributeBy => exact ⟨_, _, rfl, rfl⟩
    | clusterBy => exact ⟨_, _, rfl, rfl⟩
    | _ => exact nomatch whole
  | _ => exact nomatch whole

/-- From a stuck state the loop never answers: each round leads back to the same state. -/
theorem clauses_eq_none_of_stuck (stuck : s.place.Stuck) : nextClause.loop as s = none := by
  have again : ∀ (as : List (Located Clause)) (s : State), s.place.Stuck →
      ∃ as' s', nextClause as s = some (.ok (.inl as'), s') ∧ s'.place.Stuck := by
    intro as s stuck
    obtain ⟨a, s', run, stays⟩ := clause_of_stuck stuck
    exact ⟨as ++ [a], s', (nextClause_of_clause stuck.goesOn).trans (bind_of_ok run),
      stays ▸ stuck⟩
  exact loop_eq_none again stuck

end

/-- The clauses have the outcome of those with guards, and none where these have none. -/
theorem follows_clauses {record : List Token} {s : State} (sound : s.Sound record)
    (as : List (Located Clause)) :
    match Parser.clauses s.place with
    | none => nextClause.loop as s = none
    | some x => ∃ r s', nextClause.loop as s = some (r, s') ∧ s'.Sound record ∧
        x.map (fun more => (as ++ more.1, more.2)) = r.map fun as => (as, s'.place) := by
  generalize hc : s.place = c
  fun_induction Parser.clauses c generalizing s as with
  -- the cases of the guarded reader: the end, a refusal, a clause and more, and no answer
  | case1 c stop =>
    subst hc
    refine ⟨_, s, loop_of_done (nextClause_of_stop stop), sound, ?_⟩
    rw [Except.map, List.append_nil]
    rfl
  | case2 c goesOn e he =>
    subst hc
    have follows := followsAt_clause record s sound (goesOn ∘ .inr)
    obtain ⟨s', run, sound'⟩ := follows.exists_error he
    have round : nextClause as s = some (.error e, s') :=
      (nextClause_of_clause goesOn).trans (bind_of_error run)
    exact ⟨.error e, s', loop_of_error round, sound', rfl⟩
  | case3 c goesOn a c' ha shorter ih =>
    subst hc
    have follows := followsAt_clause record s sound (goesOn ∘ .inr)
    obtain ⟨s', run, sound', rfl⟩ := follows.exists_ok ha
    have round : nextClause as s = some (.ok (.inl (as ++ [a])), s') :=
      (nextClause_of_clause goesOn).trans (bind_of_ok run)
    rw [loop_of_more round]
    have rest := ih sound' (as ++ [a]) rfl
    cases hrest : Parser.clauses s'.place with
    | none =>
      rw [hrest] at rest
      exact rest
    | some x =>
      rw [hrest] at rest
      obtain ⟨r, s'', run', sound'', same⟩ := rest
      refine ⟨r, s'', run', sound'', ?_⟩
      rw [← same]
      cases x <;> simp [Except.map]
  -- the guard is left where the loop comes back to the state that it was in
  | case4 c goesOn a c' ha stays =>
    subst hc
    exact clauses_eq_none_of_stuck (Parser.stuck_of_clause ha stays)

/-! ## Statements -/

/-- A statement has the outcome of the one that is read with guards, and none where that one
    has none. -/
theorem follows_statement {width : Nat} {tokens : List Token}
    (sound : (State.start width tokens).Sound []) :
    match Statement.ofTokens? width tokens with
    | none => statement (.start width tokens) = none
    | some x => ∃ s', statement (.start width tokens) = some (x, s') ∧ s'.Sound [] := by
  have opens := follows_opening [] (.start width tokens) sound trivial
  unfold Statement.ofTokens? statement
  cases hopening : Parser.opening (Cursor.ofTokens width tokens) with
  | error e =>
    obtain ⟨s₁, run, sound₁⟩ := opens.exists_error hopening
    exact ⟨s₁, bind_of_error run, sound₁⟩
  | ok r =>
    obtain ⟨opened, c⟩ := r
    obtain ⟨s₁, run, sound₁, rfl⟩ := opens.exists_ok hopening
    rw [bind_of_ok run]
    -- behind the opening everything hangs on the loop over the clauses
    have loop := follows_clauses sound₁ []
    dsimp only
    cases hclauses : Parser.clauses s₁.place with
    | none =>
      rw [hclauses] at loop
      exact bind_of_none loop
    | some x =>
      rw [hclauses] at loop
      obtain ⟨r, s₂, run₂, sound₂, same⟩ := loop
      obtain rfl : x = r.map fun as => (as, s₂.place) := by
        rw [← same]
        cases x <;> rfl
      cases r with
      | error e => exact ⟨s₂, bind_of_error run₂, sound₂⟩
      | ok as =>
        rw [bind_of_ok run₂]
        have closes : Follows
            (ending opened.span >>= fun span => pure { opened with clauses := as, span })
            (Parser.ending opened.span >>= fun span => pure { opened with clauses := as, span }) :=
          (follows_ending _).bind fun _ => followsAt_pure _
        obtain ⟨s₃, run₃, sound₃⟩ := (closes [] s₂ sound₂ trivial).exists_run
        refine ⟨s₃, run₃.trans ?_, sound₃⟩
        change some (Except.map _ (Except.bind (Parser.ending opened.span s₂.place) _), s₃) =
          some (Except.bind (Parser.ending opened.span s₂.place) _, s₃)
        cases Parser.ending opened.span s₂.place <;> rfl

/-- The state in front of tokens picked from a text is sound. -/
theorem sound_start {source : String} {tokens : List Token}
    (picked : tokens ⊆ Token.tokenize source) (width : Nat) : (State.start width tokens).Sound [] where
  wide t ht notEnd := by
    cases tokens with
    | nil =>
      obtain rfl := List.mem_singleton.1 ht
      exact absurd rfl notEnd
    | cons u us => exact Token.start_lt_stop_of_mem_tokenize (picked ht) notEnd
  consumed := ⟨[], rfl, List.forall_mem_nil _⟩

/-- The end of the text begins no clause. -/
theorem clause_of_endOfText {s : State} (atEnd : s.place.here.kind = .endOfText) :
    clause s = some (.error (.unexpected "a clause keyword" s.place.here), s.pass) := by
  have read : next s = some (.ok s.place.here, s.pass) := rfl
  rw [clause, bind_of_ok read, clauseBody, atEnd]
  exact bind_of_error rfl

/-- Among the tokens of a text, a clause that is read gets ahead. -/
theorem ahead_length_lt_of_clause {source : String} {s s' : State} {a : Located Clause}
    (among : s.place.tokens <:+ Token.tokenize source) (run : clause s = some (.ok a, s')) :
    s'.place.ahead.length < s.place.ahead.length := by
  have notEnd : s.place.here.kind ≠ .endOfText := by
    intro atEnd
    cases run.symm.trans (clause_of_endOfText atEnd)
  have sound : s.Sound s.consumed :=
    ⟨fun t ht => Token.start_lt_stop_of_mem_tokenize (among.mem ht), [], rfl, List.forall_mem_nil _⟩
  obtain ⟨r, s'', run', -, same⟩ := followsAt_clause s.consumed s sound notEnd
  cases run.symm.trans run'
  have ho := (Token.orderly_tokenize source).of_suffix among (List.cons_ne_nil _ _)
  exact Cursor.ahead_length_lt ho notEnd (Parser.clause_tokens_suffix same)

section

variable {source : String} {tokens : List Token}

/-- On tokens of a text the two readers of statements agree, answer or none. -/
theorem map_statement (picked : tokens ⊆ Token.tokenize source) (width : Nat) :
    (statement (.start width tokens)).map (·.1) = Statement.ofTokens? width tokens := by
  have follows := follows_statement (sound_start picked width)
  cases h : Statement.ofTokens? width tokens with
  | none =>
    rw [h] at follows
    rw [follows]
    rfl
  | some x =>
    rw [h] at follows
    obtain ⟨s, run, -⟩ := follows
    rw [run]
    rfl

/-- Where reading with guards has an answer, reading ends and consumes no end of the text. -/
theorem exists_outcome (picked : tokens ⊆ Token.tokenize source) {width : Nat}
    (h : (Statement.ofTokens? width tokens).isSome) :
    ∃ r s, statement (.start width tokens) = some (r, s) ∧
      ∀ t ∈ s.consumed, t.kind ≠ .endOfText := by
  have follows := follows_statement (sound_start picked width)
  obtain ⟨x, hx⟩ := Option.isSome_iff_exists.1 h
  rw [hx] at follows
  obtain ⟨s, run, sound⟩ := follows
  obtain ⟨passed, consumed, noEnd⟩ := sound.consumed
  rw [List.append_nil] at consumed
  exact ⟨x, s, run, consumed ▸ noEnd⟩

/-- Each whole clause may be the last token where a statement breaks off. -/
theorem exists_endless {k : Keyword} (whole : k.isWholeClause = true) :
    ∃ (source : String) (tokens : List Token) (t : Token), tokens ⊆ Token.tokenize source ∧
      tokens.getLast? = some t ∧ t.kind = .keyword k ∧
        Statement.ofTokens? (Text.width source.toList) tokens = none := by
  let source (k : Keyword) := "SELECT * FROM s " ++ k.spelling
  let tokens (k : Keyword) := (Token.tokenize (source k)).dropLast
  have each : ∀ k ∈ Keyword.all, k.isWholeClause = true →
      (tokens k).getLast?.map (·.kind) = some (.keyword k) ∧
        (Statement.ofTokens? (Text.width (source k).toList) (tokens k)).isNone = true := by
    decide +kernel
  obtain ⟨last, endless⟩ := each k k.mem_all whole
  obtain ⟨t, ht, hk⟩ := Option.map_eq_some_iff.1 last
  exact ⟨source k, tokens k, t, List.dropLast_subset _, ht, hk, Option.isNone_iff_eq_none.1 endless⟩

end

/-- On all tokens picked from a text, in any order and with repetition, reading without
    guards comes to what reading with guards comes to. It ends, and no end of the text is
    consumed, unless the last token is a keyword that is a whole clause by itself; in
    particular it ends on the tokens of a text, where each clause gets ahead. But the loop
    over the clauses goes on for ever where such a keyword is the last token, and for each
    of the keywords there are tokens on which it comes there. -/
theorem reading_ends :
    (∀ k : Keyword, k.isWholeClause = true ↔ k.spelling ∈
      ["AUTOCREATE", "AUTOEVOLVE", "CAPITALIZE", "INITIALIZE", "WITH_STRUCTURE", "WITHUNWRAP",
        "WITH_OVERWRITE", "WITH_ACK", "WITH_ENCODE_BASE64", "DISTRIBUTEBY", "CLUSTERBY"]) ∧
    (∀ (source : String) (tokens : List Token), tokens ⊆ Token.tokenize source →
      (statement (.start (Text.width source.toList) tokens)).map (·.1) =
        Statement.ofTokens? (Text.width source.toList) tokens ∧
      ((∀ t ∈ tokens.getLast?, t.isWholeClause = false) → ∃ r s,
        statement (.start (Text.width source.toList) tokens) = some (r, s) ∧
          ∀ t ∈ s.consumed, t.kind ≠ .endOfText)) ∧
    (∀ source : String,
      (∃ r s, statement (.start (Text.width source.toList) (Token.tokenize source)) = some (r, s) ∧
        ∀ t ∈ s.consumed, t.kind ≠ .endOfText) ∧
      ∀ s a s', s.place.tokens <:+ Token.tokenize source → clause s = some (.ok a, s') →
        s'.place.ahead.length < s.place.ahead.length) ∧
    (∀ s : State, s.place.ahead = [] → s.place.here.isWholeClause = true →
      (∃ a s', clause s = some (.ok a, s') ∧ s'.place = s.place) ∧
      ∀ as, nextClause.loop as s = none) ∧
    ∀ k : Keyword, k.isWholeClause = true → ∃ (source : String) (tokens : List Token) (t : Token),
      tokens ⊆ Token.tokenize source ∧ tokens.getLast? = some t ∧ t.kind = .keyword k ∧
        statement (.start (Text.width source.toList) tokens) = none := by
  refine ⟨fun _ => Keyword.isWholeClause_iff, fun source tokens picked => ⟨?_, fun last => ?_⟩,
    fun source => ⟨?_, fun _ _ _ => ahead_length_lt_of_clause⟩, fun s last whole => ?_,
    fun k whole => ?_⟩
  · exact map_statement picked _
  · exact exists_outcome picked (Statement.ofTokens?_isSome_of_last last)
  · exact exists_outcome (List.Subset.refl _) (Statement.ofTokens?_tokenize_isSome source)
  · exact ⟨clause_of_stuck ⟨last, whole⟩, fun _ => clauses_eq_none_of_stuck ⟨last, whole⟩⟩
  · obtain ⟨source, tokens, t, picked, last, hk, endless⟩ := exists_endless whole
    have none : _ = none := (map_statement picked _).trans endless
    exact ⟨source, tokens, t, picked, last, hk, Option.map_eq_none_iff.1 none⟩

/-- The tokens of a text twice, and its clause with and without the end of the text behind. -/
theorem reading_ends_repeated :
    let source := "SELECT * FROM s AUTOCREATE"
    let tokens := Token.tokenize source ++ Token.tokenize source
    let first : Token := ⟨.keyword (.flag .autoCreate), "AUTOCREATE", ⟨16, 26⟩⟩
    let within : State := ⟨⟨first, [.endAt 26], 15⟩, []⟩
    let last : State := ⟨⟨first, [], 15⟩, []⟩
    (tokens ⊆ Token.tokenize source ∧ (∀ t ∈ tokens.getLast?, t.isWholeClause = false) ∧
      ∃ r s, statement (.start (Text.width source.toList) tokens) = some (r, s) ∧
        ∀ t ∈ s.consumed, t.kind ≠ .endOfText) ∧
    (within.place.tokens <:+ Token.tokenize source ∧
      clause within = some (.ok ⟨.flag .autoCreate, ⟨16, 26⟩⟩, within.pass) ∧
      within.pass.place.ahead.length < within.place.ahead.length) ∧
    (last.place.ahead = [] ∧ last.place.here.isWholeClause = true ∧
      nextClause.loop [] last = none) ∧
    Keyword.isWholeClause .clusterBy = true ∧ ∃ (source : String) (tokens : List Token) (t : Token),
      tokens ⊆ Token.tokenize source ∧ tokens.getLast? = some t ∧ t.kind = .keyword .clusterBy ∧
        statement (.start (Text.width source.toList) tokens) = none := by
  intro source tokens first within last
  obtain ⟨-, picks, whole, loops, breaks⟩ := reading_ends
  have picked : tokens ⊆ Token.tokenize source :=
    List.append_subset.2 ⟨List.Subset.refl _, List.Subset.refl _⟩
  -- the tokens of the text twice, so that an end of the text stands among them
  have closes : ∀ t ∈ tokens.getLast?, t.isWholeClause = false := by decide +kernel
  have among : within.place.tokens <:+ Token.tokenize source := by decide +kernel
  have run : clause within = some (.ok ⟨.flag .autoCreate, ⟨16, 26⟩⟩, within.pass) := rfl
  exact ⟨⟨picked, closes, (picks source tokens picked).2 closes⟩,
    ⟨among, run, (whole source).2 _ _ _ among run⟩, ⟨rfl, rfl, (loops last rfl rfl).2 []⟩, rfl,
    breaks _ rfl⟩

end Unguarded

end ConnectorQuery
