import ConnectorQuery.Proofs.Grammar.Framing

/-!
# Going on where a reader gave up

A reader that gives up has read the beginning of its phrase: the tokens in front
of the one it refuses can be completed to a whole phrase, by parts that are
written behind them (`Completable`). So nothing it accepted was wrong, and the
token it refuses is the first one that is.

* `Recovers`: the reader of a phrase refuses a token behind the beginning of one;
* `Recovers.bind`: two readers, one behind the other. The first one may have read
  on until the token that the second one refuses, and what it read must not
  depend on that token, which is where frames come in;
* `recovers_opening`, `recovers_clauses`: the parts of a statement.
-/

namespace ConnectorQuery

open ConnectorQuery.Part
open Token (stopOf stopOf_cons stopOf_append)

variable {α β γ δ : Type}

/-- Two steps fail if the first does, or the second does behind an answer of the first. -/
theorem Parser.bind_eq_error {p : Parser α} {f : α → Parser β} {c : Cursor} {e : GrammarError} :
    (p >>= f) c = .error e ↔
      p c = .error e ∨ ∃ a c₁, p c = .ok (a, c₁) ∧ f a c₁ = .error e := by
  change (p c >>= fun s => f s.1 s.2) = .error e ↔ _
  rw [except_bind_eq_error]
  exact or_congr_right
    ⟨fun ⟨s, h, hf⟩ => ⟨s.1, s.2, h, hf⟩, fun ⟨a, c₁, h, hf⟩ => ⟨(a, c₁), h, hf⟩⟩

/-- What spells one phrase spells a list of one. -/
theorem Spells.one {phrase : Grammar.Phrase α} {ps : List Part} {a : α} (h : Spells phrase ps a) :
    Spells (Grammar.IsList phrase) ps [a] :=
  ⟨h.fits, fun n rest hrest => .one (h.spells n rest hrest)⟩

namespace Grammar

/-! ## Completions -/

/-- Written parts complete the tokens `read` to a phrase. Where nothing was read,
    what is written is as `fits` says. -/
def Completable (fits : Nat → List Token → Prop) (phrase : Phrase α) (read : List Token) : Prop :=
  ∃ ps : List Part, (∀ p ∈ ps, p.Fits) ∧ ∀ n rest, Free (stopAt (stopOf n read) ps) rest →
    (∃ a, phrase (read ++ (tokens (stopOf n read) ps ++ rest)) a rest) ∧
      (read = [] → fits n (tokens n ps ++ rest))

section

variable {fits fits' : Nat → List Token → Prop} {p : Phrase α} {q : Phrase β}
  {read ts rest : List Token} {a : α} {b : β} {ps : List Part}

/-- Where nothing was read, whatever spells the phrase completes it. -/
theorem completable_of_spells (h : Spells p ps a) : Completable Anything p [] :=
  ⟨ps, h.fits, fun n rest hrest => ⟨⟨a, h.spells n rest hrest⟩, fun _ => trivial⟩⟩

/-- Parts that stand apart from what is in front complete a phrase that may not touch it. -/
theorem completable_of_apart (h : Spells p ps a) (apart : Apart ps) : Completable Free p [] :=
  ⟨ps, h.fits, fun n rest hrest => ⟨⟨a, h.spells n rest hrest⟩, fun _ => apart.free hrest⟩⟩

/-- A completion to a phrase completes to whatever phrase that one is an instance of. -/
theorem Completable.imp (h : Completable fits p read)
    (himp : ∀ ts a rest, p ts a rest → ∃ b, q ts b rest) : Completable fits q read := by
  obtain ⟨ps, hps, complete⟩ := h
  refine ⟨ps, hps, fun n rest hrest => ?_⟩
  obtain ⟨⟨a, ha⟩, hfits⟩ := complete n rest hrest
  exact ⟨himp _ a rest ha, hfits⟩

/-- What completes under one condition completes under a weaker one. -/
theorem Completable.mono (h : Completable fits p read)
    (himp : ∀ n rest, fits n rest → fits' n rest) : Completable fits' p read := by
  obtain ⟨ps, hps, complete⟩ := h
  refine ⟨ps, hps, fun n rest hrest => ?_⟩
  obtain ⟨spelled, hfits⟩ := complete n rest hrest
  exact ⟨spelled, fun nothing => himp _ _ (hfits nothing)⟩

/-- Behind a token. -/
theorem Completable.cons {t : Token} (h : Completable fits p read)
    (himp : ∀ ts a rest, p ts a rest → ∃ b, q (t :: ts) b rest) :
    Completable fits' q (t :: read) := by
  obtain ⟨ps, hps, complete⟩ := h
  refine ⟨ps, hps, fun n rest hrest => ⟨?_, nofun⟩⟩
  rw [stopOf_cons] at hrest ⊢
  obtain ⟨⟨a, ha⟩, -⟩ := complete _ rest hrest
  exact himp _ a rest ha

/-- What is missing of two phrases is the rest of the first one, and the second
    one. -/
theorem Completable.then (h : Completable fits p read) (hq : Spells q ps b) (apart : Apart ps) :
    Completable fits (Then p q) read := by
  obtain ⟨ps', hps', complete⟩ := h
  refine ⟨ps' ++ ps, List.forall_mem_append.2 ⟨hps', hq.fits⟩, fun n rest hrest => ?_⟩
  rw [stopAt_append] at hrest
  obtain ⟨⟨a, ha⟩, hfits⟩ := complete n _ (apart.free hrest)
  rw [tokens_append, tokens_append, List.append_assoc, List.append_assoc]
  refine ⟨⟨(a, b), _, ha, hq.spells _ rest hrest⟩, fun nothing => ?_⟩
  subst nothing
  exact hfits rfl

end

end Grammar

namespace Parser

open Grammar

/-! ## Readers that give up -/

/-- The reader at `c` gave up with the error `e` at a token behind the beginning
    of a phrase. -/
def RecoversAt (fits : Nat → List Token → Prop) (phrase : Phrase α) (c : Cursor)
    (e : GrammarError) : Prop :=
  ∃ read t rest, c.tokens = read ++ t :: rest ∧ e.span = t.span ∧ Recognised read ∧
    Completable fits phrase read

/-- Wherever the reader gives up, it refuses a token behind the beginning of a
    phrase. -/
def Recovers (fits : Nat → List Token → Prop) (p : Parser α) (phrase : Phrase β) : Prop :=
  ∀ ⦃c : Cursor⦄ ⦃e : GrammarError⦄, Orderly c.tokens → p c = .error e → RecoversAt fits phrase c e

section

variable {fits fits' : Nat → List Token → Prop} {p : Phrase α} {q : Phrase β} {c c' : Cursor}
  {e : GrammarError} {ps : List Part} {a : α} {b : β}

/-- The beginning of a phrase is the beginning of whatever phrase that one is an instance of. -/
theorem RecoversAt.imp (h : RecoversAt fits p c e)
    (himp : ∀ ts a rest, p ts a rest → ∃ b, q ts b rest) : RecoversAt fits q c e := by
  obtain ⟨read, t, rest, whole, span, recognised, complete⟩ := h
  exact ⟨read, t, rest, whole, span, recognised, complete.imp himp⟩

/-- What is said of a failure holds under a weaker condition on what is written. -/
theorem RecoversAt.mono (h : RecoversAt fits p c e)
    (himp : ∀ n rest, fits n rest → fits' n rest) : RecoversAt fits' p c e := by
  obtain ⟨read, t, rest, whole, span, recognised, complete⟩ := h
  exact ⟨read, t, rest, whole, span, recognised, complete.mono himp⟩

/-- The weakest condition on what is written is none. -/
theorem RecoversAt.anything (h : RecoversAt fits p c e) : RecoversAt Anything p c e :=
  h.mono fun _ _ _ => trivial

/-- The token at hand is refused. -/
theorem recoversAt_here {expected : String} (h : Completable fits p []) :
    RecoversAt fits p c (.unexpected expected c.here) :=
  ⟨[], c.here, c.ahead, rfl, GrammarError.span_unexpected _ _, List.forall_mem_nil _, h⟩

/-- The beginning of a first phrase begins both, if there is a way to write the second. -/
theorem RecoversAt.then (h : RecoversAt fits p c e) (hq : Spells q ps b) (apart : Apart ps) :
    RecoversAt fits (Then p q) c e := by
  obtain ⟨read, t, rest, whole, span, recognised, complete⟩ := h
  exact ⟨read, t, rest, whole, span, recognised, complete.then hq apart⟩

/-- A token was passed before. -/
theorem RecoversAt.passed (h : RecoversAt fits p c.advance e) (ho : Orderly c.tokens)
    (hend : c.here.kind ≠ .endOfText) (hopen : c.here.kind ≠ .unrecognised)
    (himp : ∀ ts a rest, p ts a rest → ∃ b, q (c.here :: ts) b rest) :
    RecoversAt fits' q c e := by
  obtain ⟨read, t, rest, whole, span, recognised, complete⟩ := h
  refine ⟨c.here :: read, t, rest, ?_, span, List.forall_mem_cons.2 ⟨hopen, recognised⟩,
    complete.cons himp⟩
  rw [Cursor.tokens_advance ho hend, whole]
  rfl

/-- A phrase was read before. -/
theorem RecoversAt.behind (h : RecoversAt fits q c' e)
    (hp : FramedAt fits p c.tokens a c'.tokens) : RecoversAt fits (Then p q) c e := by
  obtain ⟨read, whole, recognised, frame⟩ := hp
  obtain ⟨read', t, rest, whole', span, recognised', ps, hps, complete⟩ := h
  refine ⟨read ++ read', t, rest, ?_, span, List.forall_mem_append.2 ⟨recognised, recognised'⟩,
    ps, hps, fun n rest' hrest => ?_⟩
  · rw [whole, whole', List.append_assoc]
  rw [stopOf_append] at hrest ⊢
  obtain ⟨⟨b, hb⟩, hfits⟩ := complete (stopOf n read) rest' hrest
  refine ⟨⟨(a, b), _, ?_, hb⟩, fun nothing => ?_⟩
  · rw [List.append_assoc]
    refine frame n _ ?_
    -- behind the first phrase comes the second one, unless nothing of it was read
    cases read' with
    | nil => exact .inr (hfits rfl)
    | cons u us => exact .inl (by rw [whole']; rfl)
  · obtain ⟨rfl, rfl⟩ := List.append_eq_nil_iff.1 nothing
    exact hfits rfl

end

section

variable {fits : Nat → List Token → Prop} {p : Parser α} {f : α → Parser β} {tree : α → γ}
  {phrase : Phrase γ} {phrase' : Phrase δ} {ps : List Part} {d : δ}

/-- Two readers in a row refuse a token behind the beginning of both phrases: the first
    one behind the beginning of its own, which the default of the second completes, and
    the second one behind the whole of the first. -/
theorem Recovers.bind (hp : Recovers Anything p phrase) (sound : Sound p tree phrase)
    (framed : Framed Free phrase) (hf : ∀ a, Recovers Free (f a) phrase')
    (default : Spells phrase' ps d) (apart : Apart ps) :
    Recovers Anything (p >>= f) (Then phrase phrase') := by
  intro c e ho h
  obtain h | ⟨a, c₁, h₁, h⟩ := bind_eq_error.1 h
  · exact (hp ho h).then default apart
  · obtain ⟨spelled, ho₁⟩ := sound ho h₁
    exact ((hf a ho₁ h).behind (framed spelled)).anything

/-- Behind the reader comes what is never given up. -/
theorem Recovers.total (hp : Recovers fits p phrase) (hf : ∀ a c e, f a c ≠ .error e) :
    Recovers fits (p >>= f) phrase := by
  intro c e ho h
  obtain h | ⟨a, c₁, _, h⟩ := bind_eq_error.1 h
  · exact hp ho h
  · exact absurd h (hf a c₁ e)

/-- An answer that is made of what was read. -/
theorem Recovers.answer {g : α → β} (hp : Recovers fits p phrase) :
    Recovers fits (do let a ← p; return g a : Parser β) phrase :=
  hp.total fun _ _ _ => nofun

/-- A reader recovers to whatever phrase its own is an instance of. -/
theorem Recovers.imp (hp : Recovers fits p phrase)
    (himp : ∀ ts a rest, phrase ts a rest → ∃ b, phrase' ts b rest) : Recovers fits p phrase' :=
  fun _ _ ho h => (hp ho h).imp himp

theorem Recovers.anything (hp : Recovers fits p phrase) : Recovers Anything p phrase :=
  fun _ _ ho h => (hp ho h).anything

end

/-! ## Tokens -/

section

variable {fits : Nat → List Token → Prop} {p : Parser α} {tree : α → γ} {phrase : Phrase γ}
  {ps : List Part} {d : γ}

/-- The reader for one kind refuses the token at hand, and names the kind. -/
theorem expect_eq_error {k : TokenKind} {c : Cursor} {e : GrammarError}
    (h : expect k c = .error e) : e = .unexpected k.describe c.here := by
  rw [expect, peek_bind, ite_apply] at h
  split at h <;> cases h
  rfl

/-- The reader for one kind answers at this kind only, and moves on by one token. -/
theorem expect_eq_ok {k : TokenKind} {c c' : Cursor} {u : Unit} (h : expect k c = .ok (u, c')) :
    c.here.kind = k ∧ c' = c.advance := by
  rw [expect, peek_bind, ite_apply] at h
  split at h
  · rename_i atKind
    cases h
    exact ⟨beq_iff_eq.1 atKind, rfl⟩
  · cases h

/-- The part is written with a space in front, so that it can stand behind anything. -/
structure Leading (part : Part) : Prop where
  fits : part.Fits
  apart : ∀ ps, Apart (part :: ps)
  ne_endOfText : part.kind ≠ .endOfText
  ne_unrecognised : part.kind ≠ .unrecognised

/-- A keyword can be written behind anything. -/
theorem leading_keyword (k : Keyword) : Leading (keyword k) :=
  ⟨fits_keyword k, fun _ => apart_keyword k, nofun, nofun⟩

/-- A mark other than the star can be written behind anything. -/
theorem leading_mark {m : Mark} (h : m ≠ .star) : Leading (mark m) :=
  ⟨fits_mark m, fun _ => apart_mark h, nofun, nofun⟩

/-- A leading part and what spells a phrase spell the two in a row. -/
theorem Leading.spells {part : Part} (h : Leading part) (hq : Spells phrase ps d) :
    Spells (Then (fun ts (_ : Unit) rest => Opens part.kind ts rest) phrase) (part :: ps) ((), d) :=
  ⟨List.forall_mem_cons.2 ⟨h.fits, hq.fits⟩, fun n rest hrest =>
    ⟨_, opens_token part n _, hq.spells _ rest hrest⟩⟩

/-- A leading part spells the token of its kind. -/
theorem Leading.alone {part : Part} (h : Leading part) :
    Spells (fun ts (_ : Unit) rest => Opens part.kind ts rest) [part] () :=
  ⟨List.forall_mem_singleton.2 h.fits, fun n rest _ => opens_token part n rest⟩

/-- In the place of a refused token the one that was expected can be written. -/
theorem recovers_expect {part : Part} (h : Leading part) :
    Recovers Free (expect part.kind) fun ts (_ : Unit) rest => Opens part.kind ts rest := by
  intro c e ho herr
  obtain rfl := expect_eq_error herr
  exact recoversAt_here (completable_of_apart h.alone (h.apart []))

/-- A phrase behind a token that must stand there. -/
theorem recovers_behind {part : Part} (h : Leading part) (hp : Recovers Anything p phrase)
    (default : Spells phrase ps d) : Recovers Free (do expect part.kind; p)
      (Then (fun ts (_ : Unit) rest => Opens part.kind ts rest) phrase) := by
  intro c e ho herr
  obtain herr | ⟨_, c₁, hpass, herr⟩ := bind_eq_error.1 herr
  · obtain rfl := expect_eq_error herr
    exact recoversAt_here (completable_of_apart (h.spells default) (h.apart ps))
  · obtain ⟨hk, rfl⟩ := expect_eq_ok hpass
    have hend : c.here.kind ≠ .endOfText := hk ▸ h.ne_endOfText
    exact (hp (Cursor.orderly_advance ho hend) herr).passed ho hend (hk ▸ h.ne_unrecognised)
      fun ts a rest ha => ⟨((), a), ts, ⟨c.here, hk, rfl⟩, ha⟩

/-- A phrase behind a mark that may stand there. -/
theorem recovers_skip (m : Mark) (hp : Recovers fits p phrase) :
    Recovers fits (do skip (.mark m); p)
      (fun ts a rest => ∃ mid, MayOpen (.mark m) ts mid ∧ phrase mid a rest) := by
  intro c e ho herr
  have skips : (do skip (.mark m); p : Parser α) c =
      if c.here.kind == .mark m then p c.advance else p c := by
    change Except.bind (skip (.mark m) c) (fun r => p r.2) = _
    rw [skip, whenAt]
    split <;> rfl
  rw [skips] at herr
  split at herr
  · rename_i atMark
    have hk : c.here.kind = .mark m := beq_iff_eq.1 atMark
    have hend : c.here.kind ≠ .endOfText := by simp [hk]
    exact (hp (Cursor.orderly_advance ho hend) herr).passed ho hend (by simp [hk])
      fun ts a rest ha => ⟨a, ts, .inr ⟨c.here, hk, rfl⟩, ha⟩
  · exact (hp ho herr).imp fun ts a rest ha => ⟨a, ts, .inl rfl, ha⟩

end

/-! ## Names and values -/

/-- The name that completions are written with needs no care. -/
theorem quotable_x : Text.Quotable "x" := by decide

/-- The name for completions stands wherever a text is wanted. -/
theorem spells_x : Spells IsText [Part.name "x"] (.nowhere "x") :=
  spells_text (s := .nowhere "x") quotable_x

/-- A path is refused at its first token or not at all: all that comes behind is optional. -/
theorem path_eq_error {expected : String} {c : Cursor} {e : GrammarError}
    (h : path expected c = .error e) : e = .unexpected expected c.here := by
  rw [path, peek_bind, ite_apply] at h
  split at h <;> cases h
  rfl

/-- A refused path is completed by a name. -/
theorem recovers_path (expected : String) : Recovers Anything (path expected) IsPath := by
  intro c e ho herr
  obtain rfl := path_eq_error herr
  exact recoversAt_here (completable_of_spells
    (spells_path (p := ⟨.nowhere "x", false⟩) ⟨quotable_x, nofun⟩))

theorem recovers_text (expected : String) : Recovers Anything (text expected) IsText :=
  (recovers_path expected).answer.imp fun _ p _ h => ⟨p.name, p.dangling, h⟩

/-- A refused value is completed by a name. -/
theorem recovers_value (expected : String) : Recovers Anything (value expected) IsValue :=
  recovers_skip .equals (recovers_text expected)

/-- A run behind a token ends where its last token does, or the token itself if it is empty. -/
theorem stopOf_run (t : Token) (run : List Token) :
    stopOf t.span.stop run = (run.getLastD t).span.stop := by
  induction run generalizing t with
  | nil => rfl
  | cons u us ih => rw [stopOf_cons, ih, List.getLastD_cons]

/-- A run goes on with a token that sticks to its last one. -/
theorem isRun_concat {t u : Token} {run rest rest' : List Token} (h : IsRun t run rest)
    (sticks : Sticks (run.getLastD t) u) (apart : ∀ v ∈ rest'.head?, ¬Sticks u v) :
    IsRun t (run ++ [u]) rest' := by
  induction h with
  | stop _ => exact .more sticks (.stop apart)
  | more first _ ih =>
    rw [List.getLastD_cons] at sticks
    exact .more first (ih sticks)

/-- A name that dangles is completed by another segment right behind its dot. -/
theorem completable_dangling {fits : Nat → List Token → Prop} {first : Token} {run rest : List Token}
    (value : first.kind.isValue) (isRun : IsRun first run rest)
    (dangles : (run.getLastD first).kind = .mark .dot) :
    Completable fits IsName (first :: run) := by
  have fits_x : (Part.name "x").glue.Fits := fits_glue_name quotable_x
  refine ⟨[(Part.name "x").glue], List.forall_mem_singleton.2 fits_x, fun n rest' hrest =>
    ⟨?_, nofun⟩⟩
  rw [stopOf_cons, stopOf_run] at hrest ⊢
  let segment := (Part.name "x").glue.token (run.getLastD first).span.stop
  have sticks : Sticks (run.getLastD first) segment := ⟨rfl, .inr ⟨dangles, .inl (isValue_name "x")⟩⟩
  -- the glued name sticks to the dot, and so the run is longer by one and ends in no dot
  have spelled := IsPath.intro value (isRun_concat isRun sticks (Free.not_sticks hrest))
  have notDot : (((run ++ [segment]).getLastD first).kind == .mark .dot) = false := by
    rw [List.getLastD_concat]
    exact name_not_dot "x" 0
  rw [notDot] at spelled
  have whole : first :: run ++ (tokens (run.getLastD first).span.stop [(Part.name "x").glue] ++ rest')
      = first :: (run ++ [segment] ++ rest') := by
    rw [List.append_assoc]
    rfl
  exact ⟨_, whole ▸ spelled⟩

/-- A name is refused where a path is, or behind a dot that dangles. What completes it is
    then written right behind the dot. -/
theorem recovers_name (expected : String) : Recovers Anything (name expected) IsName := by
  intro c e ho herr
  obtain herr | ⟨p, c₁, h₁, herr⟩ := bind_eq_error.1 herr
  · obtain rfl := path_eq_error herr
    exact recoversAt_here (completable_of_spells (spells_name (s := .nowhere "x") quotable_x))
  rw [peek_bind, ite_apply] at herr
  split at herr
  · rename_i dangles
    cases herr
    -- the path was read, and the dot at its end is what the name is refused for
    obtain ⟨spelled, -⟩ := path_sound _ ho h₁
    generalize hts : c.tokens = ts at spelled
    generalize hp : p.bare = q at spelled
    generalize hrest : c₁.tokens = rest at spelled
    cases spelled with
    | @intro first run rest value isRun =>
      have atDot : (run.getLastD first).kind = .mark .dot := by
        have := congrArg FieldPath.dangling hp
        exact beq_iff_eq.1 (this.symm.trans dangles)
      refine ⟨first :: run, c₁.here, c₁.ahead, ?_, GrammarError.span_unexpected _ _, ?_,
        completable_dangling value isRun atDot⟩
      · rw [hts, ← hrest]
        rfl
      · exact List.forall_mem_cons.2 ⟨TokenKind.ne_unrecognised_of_isValue value, isRun.frame.1⟩
  · cases herr

/-- A pair is refused at its name, its sign or its value, and the rest of it can be written. -/
theorem recovers_assignment : Recovers Anything assignment IsAssignment := by
  have equals : Leading (mark .equals) := leading_mark nofun
  refine Recovers.imp ((recovers_text _).bind (text_sound _) framed_isText
    (fun _ => recovers_behind equals (recovers_text _).answer spells_x)
    (equals.spells spells_x) (equals.apart _)) ?_
  exact fun _ a _ ⟨_, isName, _, isEquals, isValue⟩ =>
    ⟨⟨a.1, a.2.2⟩, .intro isName isEquals isValue⟩

/-! ## Lists -/

section

variable {item : Parser α} {tree : α → γ} {phrase : Phrase γ}

/-- An item of a list behind its comma is given up, or one behind it. -/
theorem recoversAt_moreItems (hitem : Recovers Anything item phrase)
    (sound : Sound item tree phrase) (framed : Framed Free phrase) (c : Cursor) :
    ∀ e, Orderly c.tokens → moreItems item c = .error e → ∀ fits,
      RecoversAt fits (fun ts bs rest => ∃ items, Opens (.mark .comma) ts items ∧
        IsList phrase items bs rest) c e := by
  have behindComma {c : Cursor} {e : GrammarError} {fits : Nat → List Token → Prop}
      (ho : Orderly c.tokens) (atComma : c.here.kind = .mark .comma)
      (h : RecoversAt Anything (IsList phrase) c.advance e) :
      RecoversAt fits (fun ts bs rest => ∃ items, Opens (.mark .comma) ts items ∧
        IsList phrase items bs rest) c e :=
    h.passed ho (by simp [atComma]) (by simp [atComma])
      fun ts bs rest hbs => ⟨bs, ts, ⟨c.here, atComma, rfl⟩, hbs⟩
  -- the item behind the comma is refused, or some item behind it
  fun_induction moreItems item c with
  | case1 c atComma e he =>
    rintro _ ho ⟨⟩ fits
    have ho₁ := Cursor.orderly_advance ho (by simp [atComma])
    exact behindComma ho atComma ((hitem ho₁ he).imp fun _ b _ hb => ⟨[b], .one hb⟩)
  | case2 c atComma a c₁ h₁ shorter e he ih =>
    rintro _ ho ⟨⟩ fits
    have ho₁ := Cursor.orderly_advance ho (by simp [atComma])
    obtain ⟨spelled, ho₂⟩ := sound ho₁ h₁
    have others := (ih _ ho₂ he Free).behind (framed spelled)
    refine behindComma ho atComma (others.anything.imp ?_)
    rintro _ bs _ ⟨_, hb, _, comma, hbs⟩
    exact ⟨bs.1 :: bs.2, .more hb comma hbs⟩
  | case3 c atComma a c₁ h₁ shorter as c₂ h₂ ih => rintro _ _ ⟨⟩
  | case4 c atComma a c₁ h₁ => rintro _ _ ⟨⟩
  | case5 c => rintro _ _ ⟨⟩

/-- A list is refused inside an item, and completing the item completes the list. -/
theorem recovers_commaList (hitem : Recovers Anything item phrase)
    (sound : Sound item tree phrase) (framed : Framed Free phrase) :
    Recovers Anything (commaList item) (IsList phrase) := by
  intro c e ho herr
  obtain herr | ⟨a, c₁, h₁, herr⟩ := bind_eq_error.1 herr
  · exact (hitem ho herr).imp fun _ b _ hb => ⟨[b], .one hb⟩
  obtain herr | ⟨_, _, _, herr⟩ := bind_eq_error.1 herr
  · obtain ⟨spelled, ho₁⟩ := sound ho h₁
    have others := (recoversAt_moreItems hitem sound framed c₁ e ho₁ herr Free).behind
      (framed spelled)
    exact others.anything.imp
      fun _ bs _ ⟨_, hb, _, comma, hbs⟩ => ⟨bs.1 :: bs.2, .more hb comma hbs⟩
  · cases herr

/-- A part that may be missing: it is only given up where it was begun. -/
theorem recovers_whenAt {fits : Nat → List Token → Prop} {p : Parser α} {phrase : Phrase (List γ)}
    {wanted : Token → Bool} {otherwise : α} (hp : Recovers fits p phrase) :
    Recovers fits (whenAt wanted p otherwise) (IsOptional phrase) := by
  intro c e ho herr
  rw [whenAt] at herr
  split at herr
  · exact (hp ho herr).imp fun _ a _ h => ⟨a, .inr h⟩
  · cases herr

/-- What stands in parentheses. -/
theorem recovers_enclosed {p : Parser α} {ps : List Part} {d : γ} {g : α → β}
    (hp : Recovers Anything p phrase) (sound : Sound p tree phrase) (framed : Framed Free phrase)
    (default : Spells phrase ps d) : Recovers Free
      (do expect (.mark .openParen); let a ← p; expect (.mark .closeParen); return g a : Parser β)
      (IsEnclosed phrase) := by
  have opening : Leading (mark .openParen) := leading_mark nofun
  have closing : Leading (mark .closeParen) := leading_mark nofun
  refine Recovers.imp (recovers_behind opening
    (hp.bind sound framed (fun _ => (recovers_expect closing).answer) closing.alone
      (closing.apart []))
    (default.append closing.alone (closing.apart []))) ?_
  exact fun _ a _ ⟨_, opens, _, h, closes⟩ => ⟨a.2.1, _, _, opens, h, closes⟩

end

/-- Pairs in parentheses are refused inside a pair or where they should be closed. -/
theorem recovers_assignments : Recovers Free assignments (IsEnclosed (IsList IsAssignment)) :=
  recovers_enclosed (g := id)
    (recovers_commaList recovers_assignment assignment_sound framed_isAssignment)
    (commaList_sound forward_assignment assignment_sound) (framed_isList framed_isAssignment)
    (spells_assignment (a := ⟨.nowhere "x", .nowhere "x"⟩) ⟨quotable_x, quotable_x⟩).one

/-! ## Columns -/

/-- The star is the shortest column. -/
theorem spells_star (mayRename : Bool) :
    Spells (IsColumn mayRename) [mark .star] ⟨["*"], false, none, .nowhere⟩ :=
  ⟨List.forall_mem_singleton.2 (fits_mark .star),
    fun n rest _ => .wildcard (opens_token (mark .star) n rest)⟩

/-- A column is refused at its first token or behind the keyword that renames it. -/
theorem recovers_column (mayRename : Bool) :
    Recovers Anything (column mayRename) (IsColumn mayRename) := by
  intro c e ho herr
  rw [column, peek_bind, ite_apply, ite_apply] at herr
  split at herr
  · cases herr
  split at herr
  · -- only the name behind `AS` may be missing
    rename_i value
    have hend := TokenKind.ne_endOfText_of_isValue value
    rw [discard_next_bind] at herr
    obtain herr | ⟨behind, c₁, h₁, herr⟩ := bind_eq_error.1 herr
    · cases herr
    obtain ⟨areSegments, ho₁⟩ := isSegments_moreSegments c.advance (Cursor.orderly_advance ho hend)
    obtain ⟨rfl, rfl⟩ := Prod.mk.inj (Except.ok.inj h₁)
    obtain herr | ⟨_, _, _, herr⟩ := bind_eq_error.1 herr
    · rw [whenAt] at herr
      split at herr
      · rename_i renames
        obtain ⟨mayRename, atAs⟩ := Bool.and_eq_true_iff.1 renames
        have atAs := beq_iff_eq.1 atAs
        rw [Parser.rename, discard_next_bind] at herr
        obtain herr | ⟨_, _, _, herr⟩ := bind_eq_error.1 herr
        · have notEnd : (moreSegments c.advance).2.here.kind ≠ .endOfText := by simp [atAs]
          have ho₂ := Cursor.orderly_advance ho₁ notEnd
          have named : RecoversAt Free (fun ts n rest => ∃ named, Opens (.keyword .as) ts named ∧
              IsText named n rest) (moreSegments c.advance).2 e :=
            (recovers_text _ ho₂ herr).passed ho₁ notEnd (by simp [atAs])
              fun ts n rest h => ⟨n, ts, ⟨_, atAs, rfl⟩, h⟩
          refine (named.behind (framed_isSegments areSegments)).anything.passed ho hend
            (TokenKind.ne_unrecognised_of_isValue value) ?_
          rintro _ _ _ ⟨_, areSegments, _, asKeyword, isName⟩
          exact ⟨_, .renamed mayRename value areSegments asKeyword isName⟩
        · cases herr
      · cases herr
    · cases herr
  · cases herr
    exact recoversAt_here (completable_of_spells (spells_star mayRename))

theorem recovers_columns (mayRename : Bool) :
    Recovers Anything (commaList (column mayRename)) (IsList (IsColumn mayRename)) :=
  recovers_commaList (recovers_column _) (column_sound _) (framed_isColumn _)

/-! ## Clauses -/

/-- A number of buckets is refused at the number or at the keyword behind it. -/
theorem recovers_bucketCount :
    Recovers Free (whenAt (·.kind == .keyword .into) bucketCount none) IsBucketCount := by
  intro c e ho herr
  rw [whenAt] at herr
  split at herr
  · rename_i atInto
    have atInto := beq_iff_eq.1 atInto
    rw [bucketCount, discard_next_bind] at herr
    have buckets : Leading (keyword .buckets) := leading_keyword .buckets
    have number : Recovers Anything (do
        let count ← text "a bucket count"
        expect (.keyword .buckets)
        return some count : Parser (Option (Located String))) _ :=
      (recovers_text _).bind (text_sound _) framed_isText
        (fun _ => (recovers_expect buckets).answer) buckets.alone (buckets.apart [])
    have hend : c.here.kind ≠ .endOfText := by simp [atInto]
    refine (number (Cursor.orderly_advance ho hend) herr).passed ho hend (by simp [atInto]) ?_
    rintro ts _ _ ⟨_, isCount, buckets⟩
    exact ⟨_, .some ⟨_, atInto, rfl⟩ isCount buckets⟩
  · cases herr

/-- The body of a bucketing clause is refused inside one of its two parts. -/
theorem recovers_bucketing :
    Recovers Anything bucketing (Then (IsOptional (IsList IsPath)) IsBucketCount) := by
  have names : Sound (whenAt (·.kind.isValue) (commaList (path "a bucket field")) [])
      (List.map FieldPath.bare) (IsOptional (IsList IsPath)) :=
    whenAt_sound (commaList_sound (forward_path _) (path_sound _))
  have noCount : Spells IsBucketCount [] none := ⟨List.forall_mem_nil _, fun _ _ _ => .none⟩
  exact (recovers_whenAt (recovers_commaList (recovers_path _) (path_sound _) framed_isPath)).bind
    names (framed_isOptional (framed_isList framed_isPath)) (fun _ => recovers_bucketCount.answer)
    noCount .nil

/-- What may follow the key of a tag: nothing, or a token between it and a value. -/
def IsTagValue : Phrase Unit :=
  fun ts _ rest => ts = rest ∨ ∃ (marker : Token) (value : List Token) (val : Located String),
    ts = marker :: value ∧
      (marker.kind = .mark .equals ∨ marker.kind = .keyword .as ∨ marker.kind.isValue) ∧
      IsText value val rest

/-- A tag may end behind its key. -/
theorem spells_noTagValue : Spells IsTagValue [] () :=
  ⟨List.forall_mem_nil _, fun _ _ _ => .inl rfl⟩

/-- Behind a key the token at hand is refused, or else what follows a marker. -/
theorem recovers_tagValue : Recovers Free tagValue IsTagValue := by
  intro c e ho herr
  -- behind the marker a value must stand
  have behindMarker (kind : c.here.kind = .mark .equals ∨ c.here.kind = .keyword .as ∨
      c.here.kind.isValue) (h : RecoversAt Anything IsText c.advance e) :
      RecoversAt Free IsTagValue c e := by
    have hend : c.here.kind ≠ .endOfText := by
      intro h
      rcases kind with h' | h' | h' <;> rw [h] at h' <;> cases h'
    have hopen : c.here.kind ≠ .unrecognised := by
      intro h
      rcases kind with h' | h' | h' <;> rw [h] at h' <;> cases h'
    exact h.passed ho hend hopen fun ts val _ h => ⟨(), .inr ⟨c.here, ts, val, rfl, kind, h⟩⟩
  rw [tagValue, peek_bind, ite_apply, ite_apply, ite_apply] at herr
  split at herr
  · cases herr
  split at herr
  · rename_i assigns
    have assigns : c.here.kind = .mark .equals ∨ c.here.kind = .keyword .as := by
      simpa using assigns
    have hend : c.here.kind ≠ .endOfText := by
      rcases assigns with h | h <;> simp [h]
    rw [marker_bind] at herr
    exact behindMarker (assigns.imp_right .inl)
      ((recovers_text _).answer (Cursor.orderly_advance ho hend) herr)
  split at herr
  · rename_i value
    have ho₁ := Cursor.orderly_advance ho (TokenKind.ne_endOfText_of_isValue value)
    rw [marker_bind] at herr
    obtain herr | ⟨_, _, _, herr⟩ := bind_eq_error.1 herr
    · rw [whenAt] at herr
      split at herr
      · exact behindMarker (.inr (.inr value)) ((recovers_text _).answer ho₁ herr)
      · cases herr
    · cases herr
  · cases herr
    exact recoversAt_here (completable_of_apart spells_noTagValue .nil)

/-- A tag is refused at its key or behind its marker. -/
theorem recovers_tagEntry : Recovers Anything tagEntry IsTagEntry := by
  intro c e ho herr
  rw [tagEntry, peek_bind] at herr
  have entry : Recovers Anything (do
      let key ← text "a tag"
      let behind ← tagValue
      let span ← spanFrom c.here.span
      return ⟨key, behind.1, behind.2, span⟩ : Parser TagEntry) (Then IsText IsTagValue) :=
    (recovers_text _).bind (text_sound _) framed_isText
      (fun _ => recovers_tagValue.total fun _ _ _ => by rintro ⟨⟩) spells_noTagValue .nil
  refine (entry ho herr).imp ?_
  rintro ts a rest ⟨behind, isKey, rfl | ⟨marker, value, val, rfl, kind, isValue⟩⟩
  · exact ⟨_, .key isKey⟩
  · exact ⟨_, .assigned isKey kind isValue⟩

theorem recovers_tagEntries :
    Recovers Free tagEntries (IsEnclosed (IsOptional (IsList IsTagEntry))) :=
  recovers_enclosed (g := id)
    (recovers_whenAt (recovers_commaList recovers_tagEntry tagEntry_sound framed_isTagEntry))
    (whenAt_sound (commaList_sound forward_tagEntry tagEntry_sound))
    (framed_isOptional (framed_isList framed_isTagEntry))
    (⟨List.forall_mem_nil _, fun _ _ _ => .inl ⟨rfl, rfl⟩⟩ : Spells _ [] [])

/-- A storage clause is refused at its type or inside its parameters. -/
theorem recovers_storeAs {g : Located String → List Assignment → β} :
    Recovers Anything (do
      let type ← value "a storage type"
      let parameters ← whenAt (·.kind == .mark .openParen) assignments []
      return g type parameters : Parser β)
      (Then IsValue (IsOptional (IsEnclosed (IsList IsAssignment)))) :=
  (recovers_value _).bind (value_sound _) framed_isValue
    (fun _ => (recovers_whenAt recovers_assignments).answer)
    (⟨List.forall_mem_nil _, fun _ _ _ => .inl ⟨rfl, rfl⟩⟩ : Spells _ [] []) .nil

/-- A timestamp clause is refused at its path or inside its empty call. -/
theorem recovers_timestamp {g : FieldPath → Bool → β} :
    Recovers Anything (do
      let field ← path "a timestamp field or sys_time()"
      let call ← emptyCall
      return g field call : Parser β) IsPath := by
  refine (recovers_path _).total fun _ c e => ?_
  change Except.bind (emptyCall c) _ ≠ _
  rw [emptyCall]
  split <;> rintro ⟨⟩

/-- A clause of keys is refused at a parenthesis or inside its list. -/
theorem recovers_withKeys {g : List (Located String) → β} :
    Recovers Anything (do
      expect (.mark .openParen)
      let keys ← commaList (text "a key name")
      expect (.mark .closeParen)
      return g keys : Parser β) (IsEnclosed (IsList IsText)) :=
  (recovers_enclosed (recovers_commaList (recovers_text _) (text_sound _) framed_isText)
    (commaList_sound (forward_text _) (text_sound _)) (framed_isList framed_isText)
    spells_x.one).anything

/-- What follows a keyword is given up behind the beginning of a clause. A keyword
    that opens no clause is refused, and any clause could stand there. -/
theorem recoversAt_ofKeyword {c : Cursor} {k : Keyword} {e : GrammarError} (ho : Orderly c.tokens)
    (hk : c.here.kind = .keyword k) (herr : clauseBody.ofKeyword c.here k c.advance = .error e) :
    RecoversAt Free IsClause c e := by
  have ho₁ := Cursor.orderly_advance ho (hk ▸ nofun)
  have opens (ts : List Token) : Opens (.keyword k) (c.here :: ts) ts := ⟨c.here, hk, rfl⟩
  have body {γ : Type} {phrase : Phrase γ} (h : RecoversAt Anything phrase c.advance e)
      (himp : ∀ ts a rest, phrase ts a rest → ∃ b, IsClause (c.here :: ts) b rest) :
      RecoversAt Free IsClause c e :=
    h.passed ho (hk ▸ nofun) (hk ▸ nofun) himp
  -- where no clause begins, one without a body completes what was read
  have noClause {expected : String} :
      RecoversAt Free IsClause c (.unexpected expected c.here) :=
    recoversAt_here (completable_of_apart
      (spells_clause (c := .flag .autoCreate) ⟨false, false⟩ trivial trivial) (apart_keyword _))
  cases k with
  | flag f => cases herr
  | setting s =>
    exact body ((recovers_value _).answer ho₁ herr) fun ts v _ h => ⟨_, .setting s (opens ts) h⟩
  | primaryKey =>
    exact body ((recovers_columns _).answer ho₁ herr) fun ts cs _ h => ⟨_, .primaryKey (opens ts) h⟩
  | ignore =>
    exact body ((recovers_columns _).answer ho₁ herr) fun ts cs _ h => ⟨_, .ignore (opens ts) h⟩
  | partitionBy =>
    exact body ((recovers_commaList (recovers_path _) (path_sound _) framed_isPath).answer ho₁ herr)
      fun ts ns _ h => ⟨_, .partitionBy (opens ts) h⟩
  | distributeBy =>
    exact body (recovers_bucketing ho₁ herr) fun ts _ _ ⟨_, areNames, isCount⟩ =>
      ⟨_, .bucketing (.inl rfl) (opens ts) areNames isCount⟩
  | clusterBy =>
    exact body (recovers_bucketing ho₁ herr) fun ts _ _ ⟨_, areNames, isCount⟩ =>
      ⟨_, .bucketing (.inr rfl) (opens ts) areNames isCount⟩
  | storeAs =>
    exact body (recovers_storeAs ho₁ herr) fun ts _ _ ⟨_, isType, areParameters⟩ =>
      ⟨_, .storeAs (opens ts) isType areParameters⟩
  | withTimestamp =>
    exact body (recovers_skip .equals recovers_timestamp ho₁ herr)
      fun ts _ _ ⟨_, equals, isField⟩ => ⟨_, .timestamp (opens ts) equals isField .none⟩
  | withTag =>
    exact body (recovers_tagEntries.answer ho₁ herr).anything
      fun ts _ _ h => ⟨_, .tags (.inl rfl) (opens ts) h⟩
  | withTags =>
    exact body (recovers_tagEntries.answer ho₁ herr).anything
      fun ts _ _ h => ⟨_, .tags (.inr rfl) (opens ts) h⟩
  | withKey =>
    exact body (recovers_skip .equals recovers_withKeys ho₁ herr)
      fun ts _ _ ⟨_, equals, areKeys⟩ => ⟨_, .withKeys (opens ts) equals areKeys⟩
  | properties =>
    exact body (recovers_skip .equals recovers_assignments.anything.answer ho₁ herr)
      fun ts _ _ ⟨_, equals, areEntries⟩ => ⟨_, .properties (opens ts) equals areEntries⟩
  | insert | upsert | update | into | select | «from» | «as» | buckets =>
    cases herr
    exact noClause

/-- A clause is refused behind the beginning of one, at its keyword or inside its body. -/
theorem recovers_clause : Recovers Free clause IsStatementClause := by
  intro c e ho herr
  suffices h : RecoversAt Free IsClause c e from
    h.imp fun _ a _ h => ⟨.nowhere a, rfl, h⟩
  rw [clause, next_bind] at herr
  obtain herr | ⟨_, _, _, herr⟩ := bind_eq_error.1 herr
  · cases hk : c.here.kind with
    | keyword k =>
      simp only [clauseBody, hk] at herr
      exact recoversAt_ofKeyword ho hk herr
    | _ =>
      simp only [clauseBody, hk] at herr
      cases herr
      exact recoversAt_here (completable_of_apart
        (spells_clause (c := .flag .autoCreate) ⟨false, false⟩ trivial trivial) (apart_keyword _))
  · cases herr

/-- Clauses are refused inside the first one that is refused. The induction is on the
    tokens ahead, as the reader's recursion is. -/
theorem recoversAt_clauses (c : Cursor) : ∀ e, Orderly c.tokens → clauses c = some (.error e) →
    RecoversAt Free (IsSequence IsStatementClause) c e := by
  fun_induction clauses c with
  | case1 c stop => rintro _ _ ⟨⟩
  | case2 c stop e he =>
    rintro _ ho ⟨⟩
    exact (recovers_clause ho he).imp fun _ a _ h => ⟨[a], .cons h .nil⟩
  | case3 c stop a c₁ h₁ shorter ih =>
    intro e ho herr
    obtain ⟨r, hr, herr⟩ := Option.map_eq_some_iff.1 herr
    cases r with
    | error e' =>
      cases herr
      obtain ⟨isClause, ho₁⟩ := clause_sound ho h₁
      refine ((ih e ho₁ hr).behind (framed_isStatementClause isClause)).imp ?_
      rintro _ as _ ⟨_, h, hs⟩
      exact ⟨as.1 :: as.2, .cons h hs⟩
    | ok r => cases herr
  | case4 c stop a c₁ h₁ stuck => rintro _ _ ⟨⟩

/-! ## Statements -/

/-- What comes in front of the select list is refused at the verb, at the word behind it,
    or at the target. -/
theorem recovers_verbAndTarget : Recovers Anything verbAndTarget IsInto := by
  intro c e ho herr
  have into (mode : WriteMode) (hk : c.here.kind = .keyword (verbKeyword mode))
      (herr : verbAndTarget.intoTarget mode c = .error e) : RecoversAt Anything IsInto c e := by
    rw [verbAndTarget.intoTarget, next_bind] at herr
    have target : Recovers Free (do
        expect (.keyword .into)
        let target ← name "a target name"
        return (some ⟨mode, c.here.span⟩, some target)
          : Parser (Option (Located WriteMode) × Option (Located String))) _ :=
      recovers_behind (leading_keyword .into) (recovers_name _).answer
        (spells_name (s := .nowhere "x") quotable_x)
    have hend : c.here.kind ≠ .endOfText := by simp [hk]
    refine (target.anything (Cursor.orderly_advance ho hend) herr).passed ho hend (by simp [hk]) ?_
    rintro _ _ _ ⟨_, into, isTarget⟩
    exact ⟨_, .some mode ⟨_, hk, rfl⟩ into isTarget⟩
  -- a statement need not have a verb, so nothing is enough to complete it
  have noVerb {expected : String} : RecoversAt Anything IsInto c (.unexpected expected c.here) :=
    recoversAt_here (completable_of_spells
      (⟨List.forall_mem_nil _, fun _ _ _ => .none⟩ : Spells IsInto [] (none, none)))
  rw [verbAndTarget, peek_bind] at herr
  cases hk : c.here.kind with
  | keyword k =>
    simp only [hk] at herr
    cases k with
    | insert => exact into .insert hk herr
    | upsert => exact into .upsert hk herr
    | update => exact into .update hk herr
    | select => cases herr
    | _ =>
      cases herr
      exact noVerb
  | _ =>
    simp only [hk] at herr
    cases herr
    exact noVerb

/-- A statement without clauses. -/
def IsOpening : Phrase ((Option (Located WriteMode) × Option (Located String)) × Unit ×
    List Column × Unit × Located String) :=
  Then IsInto (Then (fun ts _ rest => Opens (.keyword .select) ts rest)
    (Then (IsList (IsColumn true)) (Then (fun ts _ rest => Opens (.keyword .from) ts rest) IsName)))

/-- A statement without clauses is refused inside one of its parts. -/
theorem recovers_opening : Recovers Anything opening IsOpening := by
  have select : Leading (keyword .select) := leading_keyword .select
  have origin : Leading (keyword .from) := leading_keyword .from
  have source := origin.spells (spells_name (s := .nowhere "x") quotable_x)
  have selection := (spells_star true).one.append source (origin.apart _)
  have columns {g : List Column → Located String → Statement} : Recovers Anything (do
      let columns ← commaList (column true)
      expect (.keyword .from)
      let source ← name "a source name"
      return g columns source : Parser Statement) _ :=
    (recovers_columns true).bind (commaList_sound (forward_column _) (column_sound _))
      (framed_isList (framed_isColumn true))
      (fun _ => recovers_behind origin (recovers_name _).answer
        (spells_name (s := .nowhere "x") quotable_x)) source (origin.apart _)
  intro c e ho herr
  rw [opening, peek_bind] at herr
  exact recovers_verbAndTarget.bind verbAndTarget_sound framed_isInto
    (fun _ => recovers_behind select columns selection) (select.spells selection)
    (select.apart _) ho herr

/-- A statement without clauses can be followed by anything that does not touch it. -/
theorem framedAt_isOpening {ts select list origin text rest : List Token}
    {into : Option (Located WriteMode) × Option (Located String)} {columns : List Column}
    {source : Located String} (isInto : IsInto ts into select)
    (hselect : Opens (.keyword .select) select list)
    (areColumns : IsList (IsColumn true) list columns origin)
    (hfrom : Opens (.keyword .from) origin text) (isSource : IsName text source rest) :
    FramedAt Free IsOpening ts (into, (), columns, (), source) rest := by
  have behindFrom := (framedAt_opens hfrom nofun).then (framed_isName isSource)
    fun _ _ _ => id
  have behindSelect := (framedAt_opens hselect nofun).then
    ((framed_isList (framed_isColumn true) areColumns).then behindFrom fun _ _ _ => id)
    fun _ _ _ => id
  exact (framed_isInto isInto).then behindSelect fun _ _ _ => id

/-- Behind the clauses only the end of the text is accepted, with a semicolon in front or
    none, and nothing need be written to complete it. -/
theorem recovers_ending (start : Span) :
    Recovers Free (ending start) fun ts (_ : Unit) rest => MayOpen (.mark .semicolon) ts rest := by
  have nothing : Spells (fun ts (_ : Unit) rest => ts = rest) [] () :=
    ⟨List.forall_mem_nil _, fun _ _ _ => rfl⟩
  have stop : Recovers Free (do
      let t ← peek
      if t.kind == .endOfText then spanFrom start else refuse TokenKind.endOfText.describe t
        : Parser Span) fun ts (_ : Unit) rest => ts = rest := by
    intro c e ho herr
    rw [peek_bind, ite_apply] at herr
    split at herr <;> cases herr
    exact recoversAt_here (completable_of_apart nothing .nil)
  exact Recovers.imp (recovers_skip .semicolon stop)
    fun _ _ _ ⟨_, semicolon, same⟩ => ⟨(), same ▸ semicolon⟩

/-- A statement up to the end of its text. -/
def IsBody : Phrase (((Option (Located WriteMode) × Option (Located String)) × Unit ×
    List Column × Unit × Located String) × List (Located Clause) × Unit) :=
  Then IsOpening (Then (IsSequence IsStatementClause)
    fun ts _ rest => MayOpen (.mark .semicolon) ts rest)

/-- A body up to the end of the text is a statement. -/
theorem isStatement_of_isBody {ts stop : List Token} (h : ∃ r, IsBody ts r stop)
    (isEnd : Opens .endOfText stop []) : ∃ st, IsStatement ts st := by
  obtain ⟨r, _, ⟨_, isInto, _, select, _, areColumns, _, origin, isSource⟩, _, areClauses,
    semicolon⟩ := h
  exact ⟨⟨r.1.1.1, r.1.1.2, r.1.2.2.1, r.1.2.2.2.2, r.2.1, .nowhere⟩,
    .intro isInto select areColumns origin isSource areClauses semicolon isEnd rfl⟩

/-- Reading tokens is given up behind the beginning of a statement. -/
theorem recoversAt_ofTokens? {width : Nat} {ts : List Token} {e : GrammarError} (ho : Orderly ts)
    (herr : Statement.ofTokens? width ts = some (.error e)) :
    RecoversAt Anything IsBody (Cursor.ofTokens width ts) e := by
  have ho : Orderly (Cursor.ofTokens width ts).tokens := (Cursor.tokens_ofTokens ho width).symm ▸ ho
  -- in each case what is missing behind the refused token may be left out
  have noSemicolon : Spells (fun ts (_ : Unit) rest => MayOpen (.mark .semicolon) ts rest) [] () :=
    ⟨List.forall_mem_nil _, fun _ _ _ => .inl rfl⟩
  have noClauses : Spells (IsSequence IsStatementClause) [] [] :=
    ⟨List.forall_mem_nil _, fun _ _ _ => .nil⟩
  rw [Statement.ofTokens?] at herr
  split at herr
  · rename_i e' hopening
    cases herr
    exact (recovers_opening ho hopening).then (noClauses.append noSemicolon .nil) .nil
  rename_i opened c hopening
  obtain ⟨_, _, _, _, isInto, select, areColumns, origin, isSource, ho₁⟩ :=
    opening_sound ho hopening
  have opens := framedAt_isOpening isInto select areColumns origin isSource
  obtain ⟨r, hr, hrest⟩ := Option.map_eq_some_iff.1 herr
  obtain rfl | ⟨⟨clauses, c₁⟩, rfl, hend⟩ := except_bind_eq_error.1 hrest
  · exact (((recoversAt_clauses c e ho₁ hr).then noSemicolon .nil).behind opens).anything
  obtain ⟨areClauses, ho₂⟩ := clauses_sound c clauses c₁ ho₁ hr
  obtain hspan | ⟨_, _, hst⟩ := except_bind_eq_error.1 hend
  · have stop := (recovers_ending _ ho₂ hspan).behind
      (framed_isSequence framed_isStatementClause areClauses)
    exact (stop.behind opens).anything
  · cases hst

end Parser

end ConnectorQuery
