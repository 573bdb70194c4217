import ConnectorQuery.Proofs.Statement.RoundTrip
import ConnectorQuery.Proofs.Token.Cutting

/-!
# Phrases and what is behind them

Whether tokens spell a phrase does not depend on what is behind them, but for the
first token there: what is behind may be exchanged as long as it opens with the
same token, or with one that could not go on with the phrase (`FramedAt`). Which
tokens could not is a matter of the phrase: any token does behind a mark or a
keyword, and behind a name or a column one that is `Free`.

* `FramedAt.then`: two phrases, one behind the other;
* `framed_isClause`, `framed_isInto`: the parts of a statement.
-/

namespace ConnectorQuery

open Token (stopOf stopOf_cons stopOf_append)

/-- A value is a token of the language. -/
theorem TokenKind.ne_unrecognised_of_isValue {k : TokenKind} (h : k.isValue = true) :
    k ≠ .unrecognised := by
  rintro rfl
  exact nomatch h

namespace Grammar

variable {α β : Type}

/-- No token is a literal that is left open. -/
def Recognised (ts : List Token) : Prop :=
  ∀ t ∈ ts, t.kind ≠ .unrecognised

/-- Anything may stand behind. -/
def Anything (_ : Nat) (_ : List Token) : Prop :=
  True

/-- The tokens `ts` spell the phrase up to `rest`, and they still do when another
    `rest` is put there that opens with the same token or is as `fits` says of the
    place where the phrase ends. -/
def FramedAt (fits : Nat → List Token → Prop) (phrase : Phrase α) (ts : List Token) (a : α)
    (rest : List Token) : Prop :=
  ∃ read, ts = read ++ rest ∧ Recognised read ∧ ∀ n rest',
    rest'.head? = rest.head? ∨ fits (stopOf n read) rest' → phrase (read ++ rest') a rest'

/-- The phrase is framed wherever it is spelled. -/
def Framed (fits : Nat → List Token → Prop) (phrase : Phrase α) : Prop :=
  ∀ ⦃ts : List Token⦄ ⦃a : α⦄ ⦃rest : List Token⦄, phrase ts a rest → FramedAt fits phrase ts a rest

section

variable {fits fits' : Nat → List Token → Prop} {p : Phrase α} {q : Phrase β}
  {ts mid rest : List Token} {a : α} {b : β}

/-- A phrase that is framed is framed as whatever it is an instance of. -/
theorem FramedAt.imp (h : FramedAt fits p ts a rest) (himp : ∀ ts rest, p ts a rest → q ts b rest) :
    FramedAt fits q ts b rest := by
  obtain ⟨read, whole, recognised, frame⟩ := h
  exact ⟨read, whole, recognised, fun n rest' h => himp _ _ (frame n rest' h)⟩

/-- Nothing is read. -/
theorem framedAt_nil (h : ∀ rest, p rest a rest) : FramedAt fits p rest a rest :=
  ⟨[], rfl, List.forall_mem_nil _, fun _ rest' _ => h rest'⟩

theorem framedAt_nothing : FramedAt fits (fun ts (_ : Unit) rest => ts = rest) rest () rest :=
  framedAt_nil fun _ => rfl

/-- A token in front of a phrase. -/
theorem FramedAt.cons {t : Token} (h : FramedAt fits p ts a rest) (ht : t.kind ≠ .unrecognised)
    (himp : ∀ ts rest, p ts a rest → q (t :: ts) b rest) : FramedAt fits q (t :: ts) b rest := by
  obtain ⟨read, rfl, recognised, frame⟩ := h
  refine ⟨t :: read, rfl, List.forall_mem_cons.2 ⟨ht, recognised⟩, fun n rest' h => ?_⟩
  rw [stopOf_cons] at h
  exact himp _ _ (frame _ rest' h)

/-- A token in front of a phrase, where only its kind counts. -/
theorem FramedAt.opens {k : TokenKind} (h : FramedAt fits p mid a rest) (ho : Opens k ts mid)
    (hk : k ≠ .unrecognised) (himp : ∀ ts mid rest, Opens k ts mid → p mid a rest → q ts b rest) :
    FramedAt fits q ts b rest := by
  obtain ⟨t, rfl, rfl⟩ := ho
  exact h.cons hk fun mid rest h => himp _ mid rest ⟨t, rfl, rfl⟩ h

/-- A mark that may stand in front of a phrase. -/
theorem FramedAt.mayOpen {m : Mark} (h : FramedAt fits p mid a rest)
    (ho : MayOpen (.mark m) ts mid) : FramedAt fits
      (fun ts a rest => ∃ mid, MayOpen (.mark m) ts mid ∧ p mid a rest) ts a rest := by
  rcases ho with rfl | ho
  · exact h.imp fun ts _ h => ⟨ts, .inl rfl, h⟩
  · exact h.opens ho nofun fun _ mid _ ho h => ⟨mid, .inr ho, h⟩

/-- A phrase that opens with a token takes one. -/
theorem Opens.ne {k : TokenKind} (ho : Opens k ts rest) : ts ≠ rest := by
  obtain ⟨t, rfl, rfl⟩ := ho
  exact List.cons_ne_self t rest

/-- A token alone. -/
theorem framedAt_opens {k : TokenKind} (ho : Opens k ts rest) (hk : k ≠ .unrecognised) :
    FramedAt Free (fun ts (_ : Unit) rest => Opens k ts rest) ts () rest :=
  framedAt_nothing.opens ho hk fun _ _ _ ho same => same ▸ ho

/-- Two phrases, one behind the other. -/
def Then (p : Phrase α) (q : Phrase β) : Phrase (α × β) :=
  fun ts r rest => ∃ mid, p ts r.1 mid ∧ q mid r.2 rest

/-- Phrases in a row are framed if each is. Where the second one is empty, what comes
    behind it comes behind the first. -/
theorem FramedAt.then (hp : FramedAt fits p ts a mid) (hq : FramedAt fits' q mid b rest)
    (himp : mid = rest → ∀ n rest, fits' n rest → fits n rest) :
    FramedAt fits' (Then p q) ts (a, b) rest := by
  obtain ⟨read, rfl, recognised, frame⟩ := hp
  obtain ⟨read', rfl, recognised', frame'⟩ := hq
  refine ⟨read ++ read', (List.append_assoc _ _ _).symm,
    List.forall_mem_append.2 ⟨recognised, recognised'⟩, fun n rest' h => ?_⟩
  rw [stopOf_append] at h
  rw [List.append_assoc]
  refine ⟨read' ++ rest', frame n _ ?_, frame' _ rest' h⟩
  -- behind the first phrase comes the second one, unless that is empty
  cases read' with
  | nil => exact h.imp_right (himp rfl _ _)
  | cons u us => exact .inl rfl

end

/-! ## Names and values -/

theorem Sticks.ne_unrecognised {t u : Token} (h : Sticks t u) : u.kind ≠ .unrecognised := by
  intro hu
  rcases h with ⟨-, h | ⟨-, h | h⟩⟩ <;> rw [hu] at h <;> exact nomatch h

/-- The tokens of a run are of the language, and they are a run in front of whatever does
    not stick. -/
theorem IsRun.frame {t : Token} {run rest : List Token} (h : IsRun t run rest) :
    Recognised run ∧ ∀ rest', rest'.head? = rest.head? ∨ Free (stopOf t.span.stop run) rest' →
      IsRun t run rest' := by
  induction h with
  | stop apart =>
    refine ⟨List.forall_mem_nil _, fun rest' h => .stop ?_⟩
    rcases h with same | free
    · rwa [same]
    · exact free.not_sticks
  | more sticks _ ih =>
    refine ⟨List.forall_mem_cons.2 ⟨sticks.ne_unrecognised, ih.1⟩, fun rest' h => ?_⟩
    rw [stopOf_cons] at h
    exact .more sticks (ih.2 rest' h)

/-- A path ends in front of whatever does not stick to it. -/
theorem framed_isPath : Framed Free IsPath := by
  intro ts p rest h
  cases h with
  | @intro first run rest value isRun =>
    obtain ⟨recognised, frame⟩ := isRun.frame
    refine ⟨first :: run, rfl,
      List.forall_mem_cons.2 ⟨TokenKind.ne_unrecognised_of_isValue value, recognised⟩,
      fun n rest' h => ?_⟩
    rw [stopOf_cons] at h
    exact .intro value (frame rest' h)

theorem framed_isText : Framed Free IsText :=
  fun _ _ _ ⟨dangling, h⟩ => (framed_isPath h).imp fun _ _ h => ⟨dangling, h⟩

theorem framed_isName : Framed Free IsName :=
  fun _ _ _ h => framed_isPath h

theorem framed_isValue : Framed Free IsValue :=
  fun _ _ _ ⟨_, equals, h⟩ => (framed_isText h).mayOpen equals

theorem framed_isAssignment : Framed Free IsAssignment := by
  intro ts a rest h
  cases h with
  | @intro _ behind value _ a isName equals isValue =>
    have behindName : FramedAt Free (fun ts v rest => ∃ value, Opens (.mark .equals) ts value ∧
        IsText value v rest) behind a.value rest :=
      (framed_isText isValue).opens equals nofun fun _ mid _ ho h => ⟨mid, ho, h⟩
    exact ((framed_isText isName).then behindName fun _ _ _ => id).imp
      fun _ _ ⟨_, isName, _, equals, isValue⟩ => .intro isName equals isValue

/-! ## Lists -/

/-- A list ends in front of whatever its last item does. -/
theorem framed_isList {p : Phrase α} (hp : Framed Free p) : Framed Free (IsList p) := by
  intro ts as rest h
  induction h with
  | one h => exact (hp h).imp fun _ _ => .one
  | @more ts behind items rest a as h comma _ ih =>
    have others : FramedAt Free (fun ts as rest => ∃ items, Opens (.mark .comma) ts items ∧
        IsList p items as rest) behind as rest :=
      ih.opens comma nofun fun _ mid _ ho h => ⟨mid, ho, h⟩
    exact ((hp h).then others fun _ _ _ => id).imp fun _ _ ⟨_, h, _, comma, hs⟩ => .more h comma hs

theorem framed_isOptional {fits : Nat → List Token → Prop} {p : Phrase (List α)}
    (hp : Framed fits p) : Framed fits (IsOptional p) := by
  rintro ts as rest (⟨rfl, rfl⟩ | h)
  · exact framedAt_nil fun _ => .inl ⟨rfl, rfl⟩
  · exact (hp h).imp fun _ _ => .inr

theorem framed_isEnclosed {p : Phrase α} (hp : Framed Free p) : Framed Free (IsEnclosed p) := by
  rintro ts a rest ⟨inside, behind, opening, h, closing⟩
  have closed := (hp h).then (framedAt_opens closing nofun) fun same =>
    absurd same closing.ne
  exact closed.opens opening nofun
    fun _ mid _ opening ⟨behind, h, closing⟩ => ⟨mid, behind, opening, h, closing⟩

/-! ## Columns -/

theorem Continues.ne_unrecognised {dot t : Token} (h : Continues dot t) :
    t.kind ≠ .unrecognised := by
  intro ht
  rcases h with h | ⟨h, -⟩ <;> rw [ht] at h <;> exact nomatch h

/-- What is free behind a dot does not continue the column. -/
theorem not_continues_of_free {dot : Token} {rest : List Token}
    (h : Free dot.span.stop rest) :
    ∀ t ∈ rest.head?, t.kind ≠ .mark .star ∧ ¬Continues dot t := by
  intro t ht
  obtain ⟨notValue, notStar, atEnd | apart⟩ := h t ht
  · exact ⟨notStar, fun h => h.ne_endOfText atEnd⟩
  · exact ⟨notStar, fun h => h.elim (Bool.eq_false_iff.1 notValue) fun h => apart h.2⟩

/-- Segments end in front of whatever does not touch them. -/
theorem framed_isSegments : Framed Free IsSegments := by
  intro ts r rest h
  induction h with
  | none => exact framedAt_nil fun _ => .none
  | wildcard dot star =>
    exact (framedAt_opens star nofun).opens dot nofun fun _ _ _ dot star => .wildcard dot star
  | @segment dot t ts rest segments dangling atDot continues _ ih =>
    obtain ⟨read, rfl, recognised, frame⟩ := ih
    refine ⟨dot :: t :: read, rfl, ?_, fun n rest' h => ?_⟩
    · exact List.forall_mem_cons.2 ⟨fun h => (nomatch atDot.symm.trans h),
        List.forall_mem_cons.2 ⟨continues.ne_unrecognised, recognised⟩⟩
    · rw [stopOf_cons, stopOf_cons] at h
      exact .segment atDot continues (frame _ rest' h)
  | @dangling dot rest atDot stops =>
    refine ⟨[dot], rfl, List.forall_mem_singleton.2 fun h => (nomatch atDot.symm.trans h),
      fun n rest' h => ?_⟩
    -- what is put behind the dot does not go on either
    have stops' : ∀ t ∈ rest'.head?, t.kind ≠ .mark .star ∧ ¬Continues dot t := by
      rcases h with same | free
      · rwa [same]
      · exact not_continues_of_free free
    exact .dangling atDot stops'

/-- A column ends in front of whatever does not touch it. -/
theorem framed_isColumn (mayRename : Bool) : Framed Free (IsColumn mayRename) := by
  intro ts c rest h
  cases h with
  | wildcard star => exact (framedAt_opens star nofun).imp fun _ _ => .wildcard
  | plain value areSegments =>
    exact (framed_isSegments areSegments).cons (TokenKind.ne_unrecognised_of_isValue value)
      fun _ _ areSegments => .plain value areSegments
  | renamed renames value areSegments asKeyword isName =>
    have named : FramedAt Free (fun ts n rest => ∃ named, Opens (.keyword .as) ts named ∧
        IsText named n rest) _ _ rest :=
      (framed_isText isName).opens asKeyword nofun fun _ mid _ ho h => ⟨mid, ho, h⟩
    exact ((framed_isSegments areSegments).then named fun _ _ _ => id).cons
      (TokenKind.ne_unrecognised_of_isValue value)
      fun _ _ ⟨_, areSegments, _, asKeyword, isName⟩ =>
        .renamed renames value areSegments asKeyword isName

/-! ## Clauses -/

/-- A tag ends in front of whatever cannot be its value. -/
theorem framed_isTagEntry : Framed Free IsTagEntry := by
  intro ts e rest h
  cases h with
  | key isKey => exact (framed_isText isKey).imp fun _ _ => .key
  | @assigned _ value _ marker key val isKey kind isValue =>
    have recognised : marker.kind ≠ .unrecognised := by
      rintro h
      rcases kind with h' | h' | h' <;> rw [h] at h' <;> exact nomatch h'
    have behindKey : FramedAt Free (fun ts v rest => ∃ value, ts = marker :: value ∧
        IsText value v rest) (marker :: value) val rest :=
      (framed_isText isValue).cons recognised fun value _ h => ⟨value, rfl, h⟩
    exact ((framed_isText isKey).then behindKey fun _ _ _ => id).imp
      fun _ _ ⟨_, isKey, _, whole, isValue⟩ => .assigned (whole ▸ isKey) kind isValue
  | @marked _ rest marker key isKey value =>
    have alone : FramedAt Free (fun ts (_ : Unit) rest => ts = marker :: rest) (marker :: rest) ()
        rest :=
      framedAt_nothing.cons (TokenKind.ne_unrecognised_of_isValue value)
        fun _ _ same => congrArg _ same
    exact ((framed_isText isKey).then alone fun _ _ _ => id).imp
      fun _ _ ⟨_, isKey, whole⟩ => .marked (whole ▸ isKey) value

theorem framed_isBucketCount : Framed Free IsBucketCount := by
  intro ts count rest h
  cases h with
  | none => exact framedAt_nil fun _ => .none
  | some into isCount buckets =>
    have closed := (framed_isText isCount).then (framedAt_opens buckets nofun)
      fun same => absurd same buckets.ne
    exact closed.opens into nofun fun _ _ _ into ⟨_, isCount, buckets⟩ =>
      .some into isCount buckets

theorem framed_isCall : Framed Free IsCall := by
  intro ts call rest h
  cases h with
  | none => exact framedAt_nil fun _ => .none
  | call opening closing =>
    exact (framedAt_opens closing nofun).opens opening nofun fun _ _ _ opening closing =>
      .call opening closing

/-- Every clause ends in front of whatever does not touch it, one case for each form. -/
theorem framed_isClause : Framed Free IsClause := by
  intro ts c rest h
  cases h with
  | flag f opens => exact (framedAt_opens opens nofun).imp fun _ _ => .flag f
  | setting s opens isValue =>
    exact (framed_isValue isValue).opens opens nofun fun _ _ _ => .setting s
  | primaryKey opens areColumns =>
    exact (framed_isList (framed_isColumn false) areColumns).opens opens nofun
      fun _ _ _ => .primaryKey
  | ignore opens areColumns =>
    exact (framed_isList (framed_isColumn true) areColumns).opens opens nofun fun _ _ _ => .ignore
  | partitionBy opens areNames =>
    exact (framed_isList framed_isPath areNames).opens opens nofun fun _ _ _ => .partitionBy
  | bucketing hk opens areNames isCount =>
    have body := (framed_isOptional (framed_isList framed_isPath) areNames).then
      (framed_isBucketCount isCount) fun _ _ _ => id
    exact body.opens opens nofun fun _ _ _ opens ⟨_, areNames, isCount⟩ =>
      .bucketing hk opens areNames isCount
  | storeAs opens isType areParameters =>
    have body := (framed_isValue isType).then (framed_isOptional
      (framed_isEnclosed (framed_isList framed_isAssignment)) areParameters) fun _ _ _ => id
    exact body.opens opens nofun fun _ _ _ opens ⟨_, isType, areParameters⟩ =>
      .storeAs opens isType areParameters
  | timestamp opens equals isField isCall =>
    have body := ((framed_isPath isField).then (framed_isCall isCall)
      fun _ _ _ => id).mayOpen equals
    exact body.opens opens nofun fun _ _ _ opens ⟨_, equals, _, isField, isCall⟩ =>
      .timestamp opens equals isField isCall
  | tags hk opens areEntries =>
    have body := framed_isEnclosed (framed_isOptional (framed_isList framed_isTagEntry)) areEntries
    exact body.opens opens nofun fun _ _ _ => .tags hk
  | withKeys opens equals areKeys =>
    have body := (framed_isEnclosed (framed_isList framed_isText) areKeys).mayOpen equals
    exact body.opens opens nofun fun _ _ _ opens ⟨_, equals, areKeys⟩ =>
      .withKeys opens equals areKeys
  | properties opens equals areEntries =>
    have body := (framed_isEnclosed (framed_isList framed_isAssignment) areEntries).mayOpen equals
    exact body.opens opens nofun fun _ _ _ opens ⟨_, equals, areEntries⟩ =>
      .properties opens equals areEntries

theorem framed_isStatementClause : Framed Free IsStatementClause :=
  fun _ _ _ ⟨nowhere, h⟩ => (framed_isClause h).imp fun _ _ h => ⟨nowhere, h⟩

/-- A sequence ends in front of whatever its last clause does. -/
theorem framed_isSequence {p : Phrase α} (hp : Framed Free p) : Framed Free (IsSequence p) := by
  intro ts as rest h
  induction h with
  | nil => exact framedAt_nil fun _ => .nil
  | cons h _ ih => exact ((hp h).then ih fun _ _ _ => id).imp fun _ _ ⟨_, h, hs⟩ => .cons h hs

theorem framed_isInto : Framed Free IsInto := by
  intro ts into rest h
  cases h with
  | none => exact framedAt_nil fun _ => .none
  | some mode verb into isTarget =>
    have target : FramedAt Free (fun ts n rest => ∃ text, Opens (.keyword .into) ts text ∧
        IsName text n rest) _ _ rest :=
      (framed_isName isTarget).opens into nofun fun _ mid _ ho h => ⟨mid, ho, h⟩
    exact target.opens verb nofun fun _ _ _ verb ⟨_, into, isTarget⟩ =>
      .some mode verb into isTarget

end Grammar

end ConnectorQuery
