import ConnectorQuery.Proofs.Statement.Render
import ConnectorQuery.Proofs.Statement.WellFormed

/-!
# A written statement is read back

The text of a well-formed statement is read as that statement, in whatever
manner it is written (`Statement.parse_render`), if its names can be written at
all (`Statement.Writable`): no name has both kinds of quotes in it, a path that
dangles ends with a dot, and a tag with a value has `=` or `AS` in front of it.

By the grammar it is enough that the tokens of the text spell the statement. This
is shown part by part (`Spells`): the tokens of a part spell it wherever it is
written, as long as what is written behind it could not be read as more of it.
That is so for everything that is written behind a part of a statement: it is a
mark or a keyword with a space in front (`Free`).
-/

namespace ConnectorQuery

/-! ## What can be written -/

/-- The segments and the other name of a column can be written. -/
structure Column.Writable (c : Column) : Prop where
  segments : ∀ s ∈ c.segments, Text.Quotable s
  rename : ∀ s ∈ c.rename, Text.Quotable s

/-- The path can be written: if it dangles, there is a dot at its end. -/
structure FieldPath.Writable (p : FieldPath) : Prop where
  name : Text.Quotable p.name.val
  dangling : p.dangling → p.name.val.toList.getLast? = some '.'

/-- The tag can be written: it has `=` or `AS` and a value, or neither. -/
structure TagEntry.Writable (e : TagEntry) : Prop where
  key : Text.Quotable e.key.val
  behind : (e.marker = none ∧ e.value = none) ∨ ∃ marker value, e.marker = some marker ∧
    e.value = some value ∧ (marker.val = "=" ∨ Text.eqIgnoringCase "AS" marker.val) ∧
    Text.Quotable value.val

/-- The name and the value can be written. -/
structure Assignment.Writable (a : Assignment) : Prop where
  name : Text.Quotable a.name.val
  value : Text.Quotable a.value.val

/-- All parts of the clause can be written. -/
def Clause.Writable : Clause → Prop
  | .flag _ => True
  | .setting _ value => Text.Quotable value.val
  | .primaryKey columns | .ignore columns => ∀ c ∈ columns, c.Writable
  | .partitionBy names => ∀ p ∈ names, p.Writable
  | .bucketing names count => (∀ p ∈ names, p.Writable) ∧ ∀ n ∈ count, Text.Quotable n.val
  | .storeAs type parameters => Text.Quotable type.val ∧ ∀ a ∈ parameters, a.Writable
  | .timestamp path _ => path.Writable
  | .tags entries => ∀ e ∈ entries, e.Writable
  | .withKeys keys => ∀ k ∈ keys, Text.Quotable k.val
  | .properties entries => ∀ a ∈ entries, a.Writable

/-- All parts of the statement can be written. -/
structure Statement.Writable (st : Statement) : Prop where
  target : ∀ t ∈ st.target, Text.Quotable t.val
  columns : ∀ c ∈ st.columns, c.Writable
  source : Text.Quotable st.source.val
  clauses : ∀ c ∈ st.clauses, c.val.Writable

/-! ## Parts that spell a phrase -/

open Grammar ConnectorQuery.Part

/-- What follows could not be read as more of a name that ends at `n`. -/
def Free (n : Nat) (rest : List Token) : Prop :=
  ∀ t ∈ rest.head?, t.kind.isValue = false ∧ t.kind ≠ .mark .star ∧
    (t.kind = .endOfText ∨ t.span.start ≠ n)

/-- The parts can be written, and wherever they are their tokens spell `a`. -/
structure Spells {α : Type} (phrase : Phrase α) (ps : List Part) (a : α) : Prop where
  fits : ∀ p ∈ ps, p.Fits
  spells : ∀ n rest, Free (stopAt n ps) rest → phrase (tokens n ps ++ rest) a rest

/-- What is free of the token in front does not stick to it. -/
theorem Free.not_sticks {t : Token} {rest : List Token} (h : Free t.span.stop rest) :
    ∀ u ∈ rest.head?, ¬Sticks t u := by
  intro u hu sticks
  obtain ⟨-, -, atEnd | apart⟩ := h u hu
  · exact sticks.ne_endOfText atEnd
  · exact apart sticks.1

/-- A mark or a keyword with a space in front is free behind anything. -/
theorem free_cons {p : Part} {n : Nat} {rest : List Token} (hg : p.glued = false)
    (hv : p.kind.isValue = false) (hs : p.kind ≠ .mark .star) : Free n (p.token n :: rest) := by
  intro t ht
  obtain rfl : p.token n = t := Option.some.inj ht
  refine ⟨hv, hs, .inr ?_⟩
  rw [token, startAt, hg, if_neg Bool.false_ne_true]
  exact Nat.succ_ne_self n

/-- No keyword touches a name in front. -/
theorem free_keyword (k : Keyword) {n : Nat} {rest : List Token} :
    Free n ((keyword k).token n :: rest) :=
  free_cons rfl rfl nofun

/-- No mark but the star touches a name in front. -/
theorem free_mark {m : Mark} (h : m ≠ .star) {n : Nat} {rest : List Token} :
    Free n ((mark m).token n :: rest) :=
  free_cons rfl rfl fun star => h (TokenKind.mark.inj star)

/-- A written part is a token of its kind. -/
theorem opens_token (p : Part) (n : Nat) (rest : List Token) :
    Opens p.kind (p.token n :: rest) rest :=
  ⟨p.token n, rfl, rfl⟩

/-- The parts are not read together with what is in front of them: the first one
    is a mark or a keyword with a space in front. -/
def Apart (ps : List Part) : Prop :=
  ∀ p ∈ ps.head?, p.glued = false ∧ p.kind.isValue = false ∧ p.kind ≠ .mark .star

theorem Apart.nil : Apart [] :=
  nofun

/-- A part stands apart when it is neither glued, nor a value, nor the star. -/
theorem Apart.cons {p : Part} {ps : List Part} (hg : p.glued = false)
    (hv : p.kind.isValue = false) (hs : p.kind ≠ .mark .star) : Apart (p :: ps) := by
  intro q hq
  obtain rfl : p = q := Option.some.inj hq
  exact ⟨hg, hv, hs⟩

theorem apart_keyword (k : Keyword) {ps : List Part} : Apart (keyword k :: ps) :=
  .cons rfl rfl nofun

theorem apart_mark {m : Mark} (h : m ≠ .star) {ps : List Part} : Apart (mark m :: ps) :=
  .cons rfl rfl fun star => h (TokenKind.mark.inj star)

/-- Parts that stand apart are free of the token in front, and if there are none, what
    follows must be. -/
theorem Apart.free {ps : List Part} (h : Apart ps) {n : Nat} {rest : List Token}
    (hrest : Free (stopAt n ps) rest) : Free n (tokens n ps ++ rest) := by
  cases ps with
  | nil => exact hrest
  | cons p ps =>
    obtain ⟨spaced, notValue, notStar⟩ := h p rfl
    exact free_cons spaced notValue notStar

/-- Two phrases, one behind the other. -/
theorem Spells.append {α β : Type} {phrase : Phrase α} {phrase' : Phrase β} {ps qs : List Part}
    {a : α} {b : β} (h : Spells phrase ps a) (h' : Spells phrase' qs b) (apart : Apart qs) :
    Spells (fun ts (r : α × β) rest => ∃ behind, phrase ts r.1 behind ∧ phrase' behind r.2 rest)
      (ps ++ qs) (a, b) := by
  refine ⟨List.forall_mem_append.2 ⟨h.fits, h'.fits⟩, fun n rest hrest => ?_⟩
  rw [stopAt_append] at hrest
  rw [tokens_append, List.append_assoc]
  exact ⟨_, h.spells n _ (apart.free hrest), h'.spells _ rest hrest⟩

section Lists

variable {α β : Type} {phrase : Phrase β} {item : α → List Part} {tree : α → β}

/-- Items spell a list when each spells one, with a comma in between. -/
theorem spells_list {as : List α} (hne : as ≠ [])
    (h : ∀ a ∈ as, Spells phrase (item a) (tree a)) :
    Spells (IsList phrase) (Part.list item as) (as.map tree) := by
  induction as with
  | nil => exact absurd rfl hne
  | cons a as ih =>
    obtain ⟨ha, has⟩ := List.forall_mem_cons.1 h
    cases as with
    | nil => exact ⟨ha.fits, fun n rest hrest => .one (ha.spells n rest hrest)⟩
    | cons a' as' =>
      have others := ih (List.cons_ne_nil _ _) has
      have whole : Part.list item (a :: a' :: as') =
          item a ++ mark .comma :: Part.list item (a' :: as') := rfl
      refine ⟨?_, fun n rest hrest => ?_⟩
      · exact List.forall_mem_append.2
          ⟨ha.fits, List.forall_mem_cons.2 ⟨fits_mark .comma, others.fits⟩⟩
      · rw [whole, stopAt_append] at hrest
        rw [whole, tokens_append, List.append_assoc]
        -- the comma has a space in front, so the item stops there
        refine .more (ha.spells n _ ?_) (opens_token (mark .comma) _ _) (others.spells _ _ hrest)
        exact free_mark (by decide)

/-- What spells a phrase spells it in parentheses. -/
theorem spells_enclosed {ps : List Part} {b : β} (h : Spells phrase ps b) :
    Spells (IsEnclosed phrase) (enclosed ps) b := by
  refine ⟨?_, fun n rest hrest => ?_⟩
  · exact List.forall_mem_cons.2 ⟨fits_mark _, List.forall_mem_append.2
      ⟨h.fits, List.forall_mem_singleton.2 (fits_mark _)⟩⟩
  · rw [enclosed, tokens, tokens_append, List.cons_append, List.append_assoc]
    refine ⟨_, _, opens_token (mark .openParen) _ _, h.spells _ _ ?_,
      opens_token (mark .closeParen) _ _⟩
    exact free_mark (by decide)

end Lists

/-! ## Names -/

/-- A written name stands for itself, quoted or not. -/
theorem value_token_name (s : String) (n : Nat) : ((Part.name s).token n).value = s :=
  value_name rfl rfl

/-- A written name is a value. -/
theorem isValue_token_name (s : String) (n : Nat) :
    ((Part.name s).token n).kind.isValue = true :=
  isValue_name s

theorem name_not_dot (s : String) (n : Nat) :
    (((Part.name s).token n).kind == .mark .dot) = false :=
  beq_false_of_ne fun h => nomatch (congrArg TokenKind.isValue h).symm.trans (isValue_name s)

/-- A name in quotes is a path of one token. -/
theorem isPath_name (s : String) (n : Nat) (rest : List Token)
    (hrest : Free (stopAt n [Part.name s]) rest) :
    IsPath (tokens n [Part.name s] ++ rest) ⟨.nowhere s, false⟩ rest := by
  have isPath := @IsPath.intro ((Part.name s).token n) [] rest (isValue_name s)
    (.stop hrest.not_sticks)
  rw [List.map_singleton, value_token_name, List.getLastD_nil, name_not_dot, String.join_cons]
    at isPath
  simpa [tokens] using isPath

/-- A dot behind the quotes sticks to the name, and nothing sticks to the dot. -/
theorem isPath_dotted (s : String) (n : Nat) (rest : List Token)
    (hrest : Free (stopAt n [Part.name s, dot]) rest) :
    IsPath (tokens n [Part.name s, dot] ++ rest) ⟨.nowhere (s ++ "."), true⟩ rest := by
  have sticks : Sticks ((Part.name s).token n) (dot.token ((Part.name s).token n).span.stop) :=
    ⟨rfl, .inl rfl⟩
  have isPath := IsPath.intro (isValue_name s) (.more sticks (.stop hrest.not_sticks))
  have spelled : String.join (List.map Token.value [(Part.name s).token n,
      dot.token ((Part.name s).token n).span.stop]) = s ++ "." := by
    rw [List.map_cons, value_token_name, String.join_cons]
    rfl
  rw [spelled] at isPath
  exact isPath

/-- A text is written as a name. -/
theorem spells_text {s : Located String} (h : Text.Quotable s.val) :
    Spells IsText [Part.name s.val] s.bare :=
  ⟨List.forall_mem_singleton.2 (fits_name h), fun n rest hrest =>
    ⟨false, isPath_name s.val n rest hrest⟩⟩

theorem spells_name {s : Located String} (h : Text.Quotable s.val) :
    Spells IsName [Part.name s.val] s.bare :=
  ⟨List.forall_mem_singleton.2 (fits_name h), isPath_name s.val⟩

/-- A text that can be quoted still can without its last character. -/
theorem Text.Quotable.dropLast {s : String} (h : Text.Quotable s) :
    Text.Quotable (Text.dropLast s) := by
  rw [Text.Quotable, Text.dropLast, String.toList_ofList]
  exact h.imp (mt fun hc => List.dropLast_subset _ hc) (mt fun hc => List.dropLast_subset _ hc)

/-- The text of a path that dangles ends with its last dot. -/
theorem Text.dropLast_append_dot {s : String} (h : s.toList.getLast? = some '.') :
    Text.dropLast s ++ "." = s := by
  obtain ⟨cs, hcs⟩ := List.getLast?_eq_some_iff.1 h
  rw [← String.toList_inj, String.toList_append, Text.dropLast, String.toList_ofList, hcs,
    List.dropLast_concat]
  rfl

/-- A path is written as its name, with a dot glued to it if one dangles. -/
theorem spells_path {p : FieldPath} (h : p.Writable) : Spells IsPath p.parts p.bare := by
  obtain ⟨⟨s, span⟩, dangling⟩ := p
  cases dangling with
  | false => exact ⟨List.forall_mem_singleton.2 (fits_name h.name), isPath_name s⟩
  | true =>
    refine ⟨?_, fun n rest hrest => ?_⟩
    · exact List.forall_mem_cons.2 ⟨fits_name h.name.dropLast,
        List.forall_mem_singleton.2 (fits_glue_mark .dot)⟩
    · have isPath := isPath_dotted (Text.dropLast s) n rest hrest
      rw [Text.dropLast_append_dot (h.dangling rfl)] at isPath
      exact isPath

/-- A pair is written with the sign of equality in between. -/
theorem spells_assignment {a : Assignment} (h : a.Writable) :
    Spells IsAssignment a.parts a.bare := by
  refine ⟨?_, fun n rest hrest => ?_⟩
  · exact List.forall_mem_cons.2 ⟨fits_name h.name, List.forall_mem_cons.2
      ⟨fits_mark .equals, List.forall_mem_singleton.2 (fits_name h.value)⟩⟩
  · exact .intro ((spells_text h.name).spells n _ (free_mark (by decide)))
      (opens_token (mark .equals) _ _) ((spells_text h.value).spells _ _ hrest)

/-! ## Columns -/

/-- The segments of a column behind its first one, up to the dot of a column that
    dangles. -/
theorem isSegments_furtherParts (ss : List String) (dangling : Bool) (n : Nat) (rest : List Token)
    (hrest : Free (stopAt n (Column.furtherParts ss ++ if dangling then [dot] else [])) rest) :
    IsSegments (tokens n (Column.furtherParts ss ++ if dangling then [dot] else []) ++ rest)
      (ss, dangling) rest := by
  induction ss generalizing n with
  | nil =>
    cases dangling with
    | false => exact .none
    -- nothing that is free of the dot goes on behind it
    | true =>
      refine .dangling rfl fun t ht => ?_
      obtain ⟨notValue, notStar, atEnd | apart⟩ := hrest t ht
      · exact ⟨notStar, fun h => h.ne_endOfText atEnd⟩
      · exact ⟨notStar, fun h => h.elim (Bool.eq_false_iff.1 notValue) fun h => apart h.2⟩
  | cons s ss ih =>
    have value : ((Part.name s).glue.token (dot.token n).span.stop).value = s := value_name rfl rfl
    have segment := @IsSegments.segment (dot.token n)
      ((Part.name s).glue.token (dot.token n).span.stop) _ rest ss dangling rfl
      (.inl (isValue_name s)) (ih _ hrest)
    rw [value] at segment
    exact segment

/-- The segments behind the first one can be written if they can be quoted. -/
theorem fits_furtherParts {ss : List String} (h : ∀ s ∈ ss, Text.Quotable s) :
    ∀ p ∈ Column.furtherParts ss, p.Fits := by
  intro p hp
  obtain ⟨s, hs, hp⟩ := List.mem_flatMap.1 hp
  have both : ∀ p ∈ [dot, (Part.name s).glue], p.Fits := List.forall_mem_cons.2
    ⟨fits_glue_mark .dot, List.forall_mem_singleton.2 (fits_glue_name (h s hs))⟩
  exact both p hp

/-- A column is written with its segments glued together. -/
theorem spells_column (mayRename : Bool) {c : Column} (hc : c.WellFormed) (h : c.Writable)
    (hr : mayRename = false → c.rename = none) :
    Spells (IsColumn mayRename) c.parts c.bare := by
  obtain ⟨segments, dangling, rename, span⟩ := c
  cases segments with
  | nil => exact absurd rfl hc
  | cons s ss =>
    obtain ⟨first, further⟩ := List.forall_mem_cons.1 h.segments
    have danglingFits : ∀ p ∈ (if dangling then [dot] else []), p.Fits := by
      cases dangling with
      | false => exact List.forall_mem_nil _
      | true => exact List.forall_mem_singleton.2 (fits_glue_mark .dot)
    have pathFits := List.forall_mem_append.2 ⟨fits_furtherParts further, danglingFits⟩
    cases rename with
    -- without a renaming the parts end with the path
    | none =>
      have whole : Column.parts ⟨s :: ss, dangling, none, span⟩ = Part.name s ::
          (Column.furtherParts ss ++ if dangling then [dot] else []) :=
        congrArg _ (List.append_nil _)
      rw [whole]
      refine ⟨List.forall_mem_cons.2 ⟨fits_name first, pathFits⟩, fun n rest hrest => ?_⟩
      have column := @IsColumn.plain mayRename _ _ _ _ _ (isValue_token_name s n)
        (isSegments_furtherParts ss dangling _ rest hrest)
      rw [value_token_name] at column
      exact column
    | some outputName =>
      have renames : mayRename = true := by
        cases mayRename with
        | true => rfl
        | false => cases hr rfl
      have whole : Column.parts ⟨s :: ss, dangling, some outputName, span⟩ = Part.name s ::
          ((Column.furtherParts ss ++ if dangling then [dot] else []) ++
            [keyword .as, Part.name outputName]) := rfl
      have renameFits := fits_name (h.rename outputName rfl)
      rw [whole]
      refine ⟨?_, fun n rest hrest => ?_⟩
      · exact List.forall_mem_cons.2 ⟨fits_name first, List.forall_mem_append.2 ⟨pathFits,
          List.forall_mem_cons.2 ⟨fits_keyword .as, List.forall_mem_singleton.2 renameFits⟩⟩⟩
      · rw [stopAt, stopAt_append] at hrest
        rw [tokens, tokens_append, List.cons_append, List.append_assoc]
        have column := IsColumn.renamed renames (isValue_token_name s n)
          (isSegments_furtherParts ss dangling ((Part.name s).token n).span.stop _
            (free_keyword .as))
          (opens_token (keyword .as) _ _)
          ((spells_text (s := ⟨outputName, span⟩) (h.rename outputName rfl)).spells _ rest hrest)
        rw [value_token_name] at column
        exact column

/-! ## Tags -/

/-- What is written between the key and the value of a tag is read as it was. -/
theorem fits_markerPart {marker : String}
    (h : marker = "=" ∨ Text.eqIgnoringCase "AS" marker = true) :
    (TagEntry.markerPart marker).Fits ∧ (TagEntry.markerPart marker).glued = false ∧
      ((TagEntry.markerPart marker).kind = .mark .equals ∨
        (TagEntry.markerPart marker).kind = .keyword .as) ∧
      String.ofList (TagEntry.markerPart marker).text = marker := by
  by_cases equals : marker = "="
  · subst equals
    exact ⟨fits_mark .equals, rfl, .inl rfl, rfl⟩
  obtain ⟨fits, kind⟩ := fits_word (k := .as) (h.resolve_left equals)
  rw [TagEntry.markerPart, if_neg equals]
  exact ⟨fits, rfl, .inr kind, String.ofList_toList⟩

/-- A tag is written with its marker and its value, whichever of them there are. -/
theorem spells_tagEntry {e : TagEntry} (h : e.Writable) : Spells IsTagEntry e.parts e.bare := by
  obtain ⟨key, marker, value, span⟩ := e
  rcases h.behind with ⟨rfl, rfl⟩ | ⟨marker, value, rfl, rfl, isMarker, isValue⟩
  · exact ⟨List.forall_mem_singleton.2 (fits_name h.key),
      fun n rest hrest => .key ((spells_text h.key).spells n rest hrest)⟩
  · obtain ⟨fits, spaced, kind, text⟩ := fits_markerPart isMarker
    refine ⟨?_, fun n rest hrest => ?_⟩
    · exact List.forall_mem_cons.2 ⟨fits_name h.key, List.forall_mem_cons.2
        ⟨fits, List.forall_mem_singleton.2 (fits_name isValue)⟩⟩
    · -- the key ends at the marker, which is a keyword or a mark
      obtain ⟨notValue, notStar⟩ : (TagEntry.markerPart marker.val).kind.isValue = false ∧
          (TagEntry.markerPart marker.val).kind ≠ .mark .star := by
        rcases kind with h | h <;> rw [h] <;> exact ⟨rfl, by simp⟩
      have tag := IsTagEntry.assigned
        ((spells_text h.key).spells n _ (free_cons spaced notValue notStar))
        (kind.imp_right .inl) ((spells_text isValue).spells _ rest hrest)
      have kept (m : Nat) : ((TagEntry.markerPart marker.val).token m).text = marker.val := text
      rw [kept] at tag
      exact tag

/-! ## Clauses -/

/-- The equals sign that may stand in front of a value. -/
theorem mayOpen_equalsSign (m : Manner) (n : Nat) (rest : List Token) :
    MayOpen (.mark .equals) (tokens n m.equalsSign ++ rest) rest := by
  rw [Manner.equalsSign]
  cases m.equals with
  | true => exact .inr (opens_token (mark .equals) n rest)
  | false => exact .inl rfl

/-- The sign of equality can be written. -/
theorem fits_equalsSign (m : Manner) : ∀ p ∈ m.equalsSign, p.Fits := by
  rw [Manner.equalsSign]
  cases m.equals with
  | true => exact List.forall_mem_singleton.2 (fits_mark .equals)
  | false => exact List.forall_mem_nil _

/-- A phrase behind an equals sign that may be missing. -/
theorem Spells.behind_equals {α : Type} {phrase : Phrase α} {ps : List Part} {a : α}
    (h : Spells phrase ps a) (m : Manner) :
    Spells (fun ts a rest => ∃ behind, MayOpen (.mark .equals) ts behind ∧ phrase behind a rest)
      (m.equalsSign ++ ps) a := by
  refine ⟨List.forall_mem_append.2 ⟨fits_equalsSign m, h.fits⟩, fun n rest hrest => ?_⟩
  rw [stopAt_append] at hrest
  rw [tokens_append, List.append_assoc]
  exact ⟨_, mayOpen_equalsSign m n _, h.spells _ rest hrest⟩

/-- A phrase behind a keyword. -/
theorem Spells.behind_keyword {α : Type} {phrase : Phrase α} {ps : List Part} {a : α}
    (h : Spells phrase ps a) (k : Keyword) :
    Spells (fun ts a rest => ∃ behind, Opens (.keyword k) ts behind ∧ phrase behind a rest)
      (keyword k :: ps) a :=
  ⟨List.forall_mem_cons.2 ⟨fits_keyword k, h.fits⟩, fun n rest hrest =>
    ⟨_, opens_token (keyword k) n _, h.spells _ rest hrest⟩⟩

/-- What spells a phrase spells whatever that is an instance of. -/
theorem Spells.imp {α β : Type} {phrase : Phrase α} {phrase' : Phrase β} {ps : List Part} {a : α}
    {b : β} (h : Spells phrase ps a)
    (himp : ∀ ts rest, phrase ts a rest → phrase' ts b rest) : Spells phrase' ps b :=
  ⟨h.fits, fun n rest hrest => himp _ rest (h.spells n rest hrest)⟩

/-- A list that may be empty is written as one, or not at all. -/
theorem spells_optional {α β : Type} {phrase : Phrase β} {item : α → List Part} {tree : α → β}
    {as : List α} (h : ∀ a ∈ as, Spells phrase (item a) (tree a)) :
    Spells (IsOptional (IsList phrase)) (Part.list item as) (as.map tree) := by
  cases as with
  | nil => exact ⟨List.forall_mem_nil _, fun n rest _ => .inl ⟨rfl, rfl⟩⟩
  | cons a as =>
    have list := spells_list (List.cons_ne_nil a as) h
    exact ⟨list.fits, fun n rest hrest => .inr (list.spells n rest hrest)⟩

/-- An empty call is written as two parentheses. -/
theorem spells_call (call : Bool) :
    Spells IsCall (if call then enclosed [] else []) call := by
  cases call with
  | false => exact ⟨List.forall_mem_nil _, fun n rest _ => .none⟩
  | true =>
    refine ⟨List.forall_mem_cons.2 ⟨fits_mark _, List.forall_mem_singleton.2 (fits_mark _)⟩, ?_⟩
    exact fun n rest _ =>
      .call (opens_token (mark .openParen) n _) (opens_token (mark .closeParen) _ _)

/-- A number of buckets is written between its two keywords. -/
theorem spells_bucketCount {count : Option (Located String)}
    (h : ∀ n ∈ count, Text.Quotable n.val) :
    Spells IsBucketCount (count.elim [] fun n =>
      [keyword .into, Part.name n.val, keyword .buckets]) (count.map Located.bare) := by
  cases count with
  | none => exact ⟨List.forall_mem_nil _, fun n rest _ => .none⟩
  | some number =>
    have text := spells_text (h number rfl)
    refine ⟨?_, fun n rest _ => ?_⟩
    · exact List.forall_mem_cons.2 ⟨fits_keyword _, List.forall_mem_cons.2
        ⟨fits_name (h number rfl), List.forall_mem_singleton.2 (fits_keyword _)⟩⟩
    · exact .some (opens_token (keyword .into) n _)
        (text.spells _ _ (free_keyword .buckets))
        (opens_token (keyword .buckets) _ _)

/-- Parameters are written in parentheses, or not at all, and stand apart either way. -/
theorem spells_parameters {parameters : List Assignment} (h : ∀ a ∈ parameters, a.Writable) :
    Spells (IsOptional (IsEnclosed (IsList IsAssignment)))
      (if parameters.isEmpty then [] else enclosed (Part.list Assignment.parts parameters))
      (parameters.map Assignment.bare) ∧
    Apart (if parameters.isEmpty then []
      else enclosed (Part.list Assignment.parts parameters)) := by
  cases parameters with
  | nil => exact ⟨⟨List.forall_mem_nil _, fun n rest _ => .inl ⟨rfl, rfl⟩⟩, .nil⟩
  | cons a as =>
    have enclosed := spells_enclosed
      (spells_list (List.cons_ne_nil a as) fun a ha => spells_assignment (h a ha))
    exact ⟨⟨enclosed.fits, fun n rest hrest => .inr (enclosed.spells n rest hrest)⟩,
      apart_mark (by decide)⟩

/-- Every clause is written as the grammar wants it, in each manner. -/
theorem spells_clause {c : Clause} (m : Manner) (hc : c.WellFormed) (h : c.Writable) :
    Spells IsClause (c.parts m) c.bare := by
  cases c with
  | flag f =>
    have body : Spells (fun ts (_ : Unit) rest => ts = rest) [] () :=
      ⟨List.forall_mem_nil _, fun _ _ _ => rfl⟩
    exact (body.behind_keyword _).imp fun _ _ ⟨_, opens, body⟩ => .flag f (body ▸ opens)
  | setting s value =>
    have body := (spells_text h).behind_equals m
    exact (body.behind_keyword _).imp fun _ _ ⟨_, opens, isValue⟩ => .setting s opens isValue
  | primaryKey columns =>
    have body := spells_list hc.1 fun c hcol =>
      spells_column false (hc.2 c hcol).1 (h c hcol) fun _ => (hc.2 c hcol).2
    exact (body.behind_keyword _).imp fun _ _ ⟨_, opens, areColumns⟩ => .primaryKey opens areColumns
  | ignore columns =>
    have body := spells_list hc.1 fun c hcol =>
      spells_column true (hc.2 c hcol) (h c hcol) nofun
    exact (body.behind_keyword _).imp fun _ _ ⟨_, opens, areColumns⟩ => .ignore opens areColumns
  | partitionBy names =>
    have body := spells_list hc fun p hp => spells_path (h p hp)
    exact (body.behind_keyword _).imp fun _ _ ⟨_, opens, areNames⟩ => .partitionBy opens areNames
  | bucketing names count =>
    have apart : Apart (count.elim [] fun n =>
        [keyword .into, Part.name n.val, keyword .buckets]) := by
      cases count with
      | none => exact .nil
      | some n => exact apart_keyword .into
    have body := (spells_optional fun p hp => spells_path (h.1 p hp)).append
      (spells_bucketCount h.2) apart
    refine (body.behind_keyword _).imp fun _ _ ⟨_, opens, _, areNames, isCount⟩ =>
      .bucketing ?_ opens areNames isCount
    -- the clause may be written with either keyword
    rw [Clause.writtenKeyword]
    cases m.other with
    | true => exact .inl rfl
    | false => exact .inr rfl
  | storeAs type parameters =>
    obtain ⟨areParameters, apart⟩ := spells_parameters h.2
    have body := ((spells_text h.1).append areParameters apart).behind_equals m
    exact (body.behind_keyword _).imp fun _ _ ⟨_, opens, _, equals, _, isType, areParameters⟩ =>
      .storeAs opens ⟨_, equals, isType⟩ areParameters
  | timestamp path call =>
    have apart : Apart (if call then enclosed [] else []) := by
      cases call with
      | false => exact .nil
      | true => exact apart_mark (by decide)
    have body := ((spells_path h).append (spells_call call) apart).behind_equals m
    exact (body.behind_keyword _).imp fun _ _ ⟨_, opens, _, equals, _, isPath, isCall⟩ =>
      .timestamp opens equals isPath isCall
  | tags entries =>
    have body := spells_enclosed (spells_optional fun e he => spells_tagEntry (h e he))
    refine (body.behind_keyword _).imp fun _ _ ⟨_, opens, areEntries⟩ => .tags ?_ opens areEntries
    rw [Clause.writtenKeyword]
    cases m.other with
    | true => exact .inr rfl
    | false => exact .inl rfl
  | withKeys keys =>
    have body := (spells_enclosed (spells_list hc fun k hk => spells_text (h k hk))).behind_equals m
    exact (body.behind_keyword _).imp fun _ _ ⟨_, opens, _, equals, areKeys⟩ =>
      .withKeys opens equals areKeys
  | properties entries =>
    have entries := spells_enclosed (spells_list hc fun a ha => spells_assignment (h a ha))
    have body := entries.behind_equals m
    exact (body.behind_keyword _).imp fun _ _ ⟨_, opens, _, equals, areEntries⟩ =>
      .properties opens equals areEntries

/-- A clause begins with its keyword. -/
theorem apart_clauseParts (manner : Nat → Manner) (cs : List (Located Clause)) {ps : List Part}
    (h : Apart ps) : Apart (Statement.clauseParts manner cs ++ ps) := by
  cases cs with
  | nil => exact h
  | cons c cs => exact apart_keyword _

/-- Clauses are written one after the other, each in a manner of its own. A clause opens
    with a keyword, so that it stands apart from the one in front. -/
theorem spells_clauses {cs : List (Located Clause)} (manner : Nat → Manner)
    (hcs : ∀ c ∈ cs, c.val.WellFormed) (h : ∀ c ∈ cs, c.val.Writable) :
    Spells (IsSequence IsStatementClause) (Statement.clauseParts manner cs)
      (cs.map fun c => .nowhere c.val.bare) := by
  induction cs generalizing manner with
  | nil => exact ⟨List.forall_mem_nil _, fun n rest _ => .nil⟩
  | cons c cs ih =>
    obtain ⟨wellFormed, wellFormed'⟩ := List.forall_mem_cons.1 hcs
    obtain ⟨writable, writable'⟩ := List.forall_mem_cons.1 h
    have apart := apart_clauseParts (fun i => manner (i + 1)) cs .nil
    rw [List.append_nil] at apart
    have both := (spells_clause (manner 0) wellFormed writable).append
      (ih (fun i => manner (i + 1)) wellFormed' writable') apart
    refine ⟨both.fits, fun n rest hrest => ?_⟩
    obtain ⟨behind, isClause, others⟩ := both.spells n rest hrest
    exact .cons ⟨rfl, isClause⟩ others

/-! ## Statements -/

theorem apart_semicolon (semicolon : Bool) :
    Apart (if semicolon then [mark .semicolon] else []) := by
  cases semicolon with
  | false => exact .nil
  | true => exact apart_mark (by decide)

theorem spells_semicolon (semicolon : Bool) :
    Spells (fun ts (_ : Unit) rest => MayOpen (.mark .semicolon) ts rest)
      (if semicolon then [mark .semicolon] else []) () := by
  cases semicolon with
  | false => exact ⟨List.forall_mem_nil _, fun n rest _ => .inl rfl⟩
  | true =>
    exact ⟨List.forall_mem_singleton.2 (fits_mark _),
      fun n rest _ => .inr (opens_token (mark .semicolon) n rest)⟩

variable {st : Statement} (manner : Nat → Manner) (semicolon : Bool)

/-- What the parts behind `SELECT` spell. -/
theorem spells_selection (hst : st.WellFormed) (h : st.Writable) :
    Spells (fun columns (st : Statement) stop => ∃ origin source clauses semicolon,
      IsList (IsColumn true) columns st.columns origin ∧ Opens (.keyword .from) origin source ∧
        IsName source st.source clauses ∧
        IsSequence IsStatementClause clauses st.clauses semicolon ∧
        MayOpen (.mark .semicolon) semicolon stop)
      (st.selectionParts manner semicolon) st.bare := by
  have columns := spells_list hst.columns_ne_nil fun c hc =>
    spells_column true (hst.columns c hc) (h.columns c hc) nofun
  have clauses := spells_clauses manner hst.clauses h.clauses
  have behindSource := clauses.append (spells_semicolon semicolon) (apart_semicolon semicolon)
  have source := (spells_name h.source).append behindSource
    (apart_clauseParts manner st.clauses (apart_semicolon semicolon))
  have all := columns.append (source.behind_keyword .from) (apart_keyword .from)
  exact all.imp fun ts stop ⟨_, areColumns, _, origin, _, isSource, _, areClauses, isStop⟩ =>
    ⟨_, _, _, _, areColumns, origin, isSource, areClauses, isStop⟩

theorem free_endAt (n m : Nat) : Free n [.endAt m] := by
  intro t ht
  obtain rfl : Token.endAt m = t := Option.some.inj ht
  exact ⟨rfl, nofun, .inl rfl⟩

/-- The tokens of what is written behind `SELECT` are the rest of the statement. -/
theorem isStatement_selection (hst : st.WellFormed) (h : st.Writable) {ts select : List Token}
    {n m : Nat} (isInto : IsInto ts (st.verb.map Located.bare, st.target.map Located.bare) select)
    (hselect : Opens (.keyword .select) select
      (tokens n (st.selectionParts manner semicolon) ++ [.endAt m])) :
    IsStatement ts st.bare := by
  obtain ⟨_, _, _, _, areColumns, origin, isSource, areClauses, isStop⟩ :=
    (spells_selection manner semicolon hst h).spells n [.endAt m] (free_endAt _ m)
  exact .intro isInto hselect areColumns origin isSource areClauses isStop
    ⟨.endAt m, rfl, rfl⟩ rfl

/-- Behind a verb, `INTO` and a name are its target. -/
theorem isInto_behind_verb {mode : WriteMode} {target : Located String}
    (h : Text.Quotable target.val) {verb : Token} (hverb : verb.kind = .keyword (verbKeyword mode))
    {n : Nat} {rest : List Token}
    (hrest : Free (stopAt n [keyword .into, Part.name target.val]) rest) :
    IsInto (verb :: (tokens n [keyword .into, Part.name target.val] ++ rest))
      (some (.nowhere mode), some target.bare) rest :=
  .some mode ⟨verb, hverb, rfl⟩ (opens_token (keyword .into) n _)
    ((spells_name h).spells _ rest hrest)

/-- All parts of a statement without a target can be written. -/
theorem fits_selection (hst : st.WellFormed) (h : st.Writable) :
    ∀ p ∈ keyword .select :: st.selectionParts manner semicolon, p.Fits :=
  List.forall_mem_cons.2 ⟨fits_keyword .select, (spells_selection manner semicolon hst h).fits⟩

/-- A statement without a target is written as one. -/
theorem isStatement_tokenize_select (hst : st.WellFormed) (h : st.Writable)
    (hverb : st.verb = none) (htarget : st.target = none) :
    IsStatement (Token.tokenize (st.render manner semicolon)) st.bare := by
  have isInto (ts : List Token) :
      IsInto ts (st.verb.map Located.bare, st.target.map Located.bare) ts := by
    rw [hverb, htarget]
    exact .none
  rw [Statement.render, Statement.parts, Statement.intoParts, hverb, htarget, List.nil_append,
    tokenize_written (fits_selection manner semicolon hst h)]
  exact isStatement_selection manner semicolon hst h (isInto _)
    ⟨(keyword .select).glue.token 0, rfl, rfl⟩

/-- A statement with a target is written as one. -/
theorem isStatement_tokenize_into (hst : st.WellFormed) (h : st.Writable)
    {verb : Located WriteMode} {target : Located String} (hverb : st.verb = some verb)
    (htarget : st.target = some target) :
    IsStatement (Token.tokenize (st.render manner semicolon)) st.bare := by
  have quotable : Text.Quotable target.val := h.target target htarget
  have fits : ∀ p ∈ keyword (verbKeyword verb.val) :: keyword .into ::
      Part.name target.val :: keyword .select :: st.selectionParts manner semicolon, p.Fits :=
    List.forall_mem_cons.2 ⟨fits_keyword _, List.forall_mem_cons.2 ⟨fits_keyword _,
      List.forall_mem_cons.2 ⟨fits_name quotable, fits_selection manner semicolon hst h⟩⟩⟩
  -- the verb is the first token, and the name of the target stands before `SELECT`
  let first := (keyword (verbKeyword verb.val)).glue.token 0
  let afterName := stopAt first.span.stop [keyword .into, Part.name target.val]
  have isInto (rest : List Token) :
      IsInto (first :: (tokens first.span.stop [keyword .into, Part.name target.val] ++
          (keyword .select).token afterName :: rest))
        (st.verb.map Located.bare, st.target.map Located.bare)
        ((keyword .select).token afterName :: rest) := by
    rw [hverb, htarget]
    exact isInto_behind_verb quotable rfl (free_keyword .select)
  rw [Statement.render, Statement.parts, Statement.intoParts, hverb, htarget]
  change IsStatement (Token.tokenize (written _)) _
  rw [List.cons_append, List.cons_append, List.cons_append, List.nil_append,
    tokenize_written fits]
  exact isStatement_selection manner semicolon hst h (isInto _)
    (opens_token (keyword .select) _ _)

/-- The tokens of the text of a statement spell it. -/
theorem isStatement_tokenize_render (hst : st.WellFormed) (h : st.Writable) :
    IsStatement (Token.tokenize (st.render manner semicolon)) st.bare := by
  have both := hst.target
  cases hverb : st.verb with
  | none =>
    rw [hverb, Option.isSome_none, Option.isSome_eq_false_iff, Option.isNone_iff_eq_none] at both
    exact isStatement_tokenize_select manner semicolon hst h hverb both
  | some verb =>
    rw [hverb, Option.isSome_some, Option.isSome_iff_exists] at both
    obtain ⟨target, htarget⟩ := both
    exact isStatement_tokenize_into manner semicolon hst h hverb htarget

/-- The text of a well-formed statement that can be written is read as that
    statement, in whatever manner it is written. -/
theorem Statement.parse_render (hst : st.WellFormed) (h : st.Writable) :
    ∃ st', Statement.parse (st.render manner semicolon) = .ok st' ∧ st'.bare = st.bare :=
  exists_parse_bare_iff.2 (isStatement_tokenize_render manner semicolon hst h)

/-- A statement with a column and a path that dangle, a name with a quote in it
    and a tag behind `As`. -/
def Statement.dangling : Statement where
  verb := some (.nowhere .insert)
  target := some (.nowhere "t")
  columns := [⟨["a", "b"], true, some "x y", .nowhere⟩]
  source := .nowhere "it's"
  clauses := [.nowhere (.bucketing [⟨.nowhere "k.", true⟩] (some (.nowhere "4"))),
    .nowhere (.tags [⟨.nowhere "b`c", some (.nowhere "As"), some (.nowhere "d"), .nowhere⟩])]
  span := .nowhere

theorem Statement.parse_render_dangling :
    Statement.dangling.WellFormed ∧ Statement.dangling.Writable ∧
      ∃ st', Statement.parse (Statement.dangling.render (fun _ => ⟨true, false⟩) true) = .ok st' ∧
        st'.bare = Statement.dangling.bare := by
  have wellFormed : Statement.dangling.WellFormed :=
    ⟨rfl, nofun, by simp [dangling, Column.WellFormed], by
      simp [dangling, Located.nowhere, Clause.WellFormed, TagEntry.WellFormed]⟩
  have writable : Statement.dangling.Writable := by
    refine ⟨?_, ?_, by decide, ?_⟩
    · simp [dangling, Located.nowhere, Text.Quotable]
    · simp only [dangling, List.forall_mem_singleton]
      exact ⟨by simp [Text.Quotable], by simp [Text.Quotable]⟩
    · simp only [dangling, Located.nowhere, List.forall_mem_cons, Clause.Writable]
      exact ⟨⟨⟨⟨by decide, by decide⟩, List.forall_mem_nil _⟩, by simp [Text.Quotable]⟩,
        ⟨⟨by decide, .inr ⟨_, _, rfl, rfl, .inr (by decide), by decide⟩⟩, List.forall_mem_nil _⟩,
        List.forall_mem_nil _⟩
  exact ⟨wellFormed, writable, parse_render _ _ wellFormed writable⟩

end ConnectorQuery
