import Mathlib.Data.List.Forall2

/-!
# Outcomes

Whoever reads or resolves answers or refuses: the outcome is an `Except`. An
outcome that is an answer is taken apart into the answers of its steps, for two
steps in a row, for a step on each item of a list, and for a fold that keeps an
invariant. Two outcomes are compared by what relates their answers and what
relates their refusals (`SameOutcome`).
-/

namespace ConnectorQuery

variable {α β ε : Type}

/-- Two steps succeed if the first does and the second does behind it. -/
theorem except_bind_eq_ok {x : Except ε α} {f : α → Except ε β} {b : β} :
    x >>= f = .ok b ↔ ∃ a, x = .ok a ∧ f a = .ok b := by
  constructor
  · intro h
    cases x with
    | error e => cases h
    | ok a => exact ⟨a, rfl, h⟩
  · rintro ⟨a, rfl, h⟩
    exact h

/-- A second step that always answers does not matter for whether there is an answer. -/
theorem exists_bind_pure_iff {x : Except ε α} {f : α → β} :
    (∃ b, (x >>= fun a => pure (f a)) = .ok b) ↔ ∃ a, x = .ok a := by
  constructor
  · rintro ⟨b, h⟩
    obtain ⟨a, ha, -⟩ := except_bind_eq_ok.1 h
    exact ⟨a, ha⟩
  · rintro ⟨a, ha⟩
    exact ⟨f a, except_bind_eq_ok.2 ⟨a, ha, rfl⟩⟩

/-- Two steps in a row refuse where the first one does, or the second one behind
    it. -/
theorem except_bind_eq_error {x : Except ε α} {f : α → Except ε β} {e : ε} :
    x >>= f = .error e ↔ x = .error e ∨ ∃ a, x = .ok a ∧ f a = .error e := by
  constructor
  · intro h
    cases x with
    | error e' =>
      cases h
      exact .inl rfl
    | ok a => exact .inr ⟨a, rfl, h⟩
  · rintro (rfl | ⟨a, rfl, h⟩)
    · rfl
    · exact h

theorem mapError_eq_error {δ : Type} {x : Except ε α} {f : ε → δ} {d : δ} :
    x.mapError f = .error d ↔ ∃ e, x = .error e ∧ f e = d := by
  cases x with
  | error e =>
    constructor
    · rintro ⟨⟩
      exact ⟨e, rfl, rfl⟩
    · rintro ⟨_, ⟨⟩, rfl⟩
      rfl
  | ok a => exact ⟨nofun, nofun⟩

theorem mapError_eq_ok {δ : Type} {x : Except ε α} {f : ε → δ} {a : α} :
    x.mapError f = .ok a ↔ x = .ok a := by
  cases x with
  | error e => exact ⟨nofun, nofun⟩
  | ok b => constructor <;> (rintro ⟨⟩; rfl)

theorem map_eq_ok {x : Except ε α} {f : α → β} {b : β} :
    x.map f = .ok b ↔ ∃ a, x = .ok a ∧ f a = b := by
  cases x with
  | error e => exact ⟨nofun, nofun⟩
  | ok a =>
    constructor
    · rintro ⟨⟩
      exact ⟨a, rfl, rfl⟩
    · rintro ⟨_, ⟨⟩, rfl⟩
      rfl

theorem map_eq_error {x : Except ε α} {f : α → β} {e : ε} :
    x.map f = .error e ↔ x = .error e := by
  cases x with
  | error e' => constructor <;> (rintro ⟨⟩; rfl)
  | ok a => exact ⟨nofun, nofun⟩

theorem exists_of_isOk {x : Except ε α} (h : x.isOk = true) : ∃ a, x = .ok a := by
  cases x with
  | error e => exact nomatch h
  | ok a => exact ⟨a, rfl⟩

/-- A step for each item succeeds with the outcomes in order. -/
theorem mapM_eq_ok_iff {f : α → Except ε β} {as : List α} {bs : List β} :
    as.mapM f = .ok bs ↔ List.Forall₂ (fun a b => f a = .ok b) as bs := by
  induction as generalizing bs with
  | nil =>
    rw [List.forall₂_nil_left_iff]
    exact ⟨fun h => (Except.ok.inj h).symm, fun h => h ▸ rfl⟩
  | cons a as ih =>
    rw [List.mapM_cons, List.forall₂_cons_left_iff]
    constructor
    · intro h
      obtain ⟨b, hb, h⟩ := except_bind_eq_ok.1 h
      obtain ⟨bs', hbs, h⟩ := except_bind_eq_ok.1 h
      cases h
      exact ⟨b, bs', hb, ih.1 hbs, rfl⟩
    · rintro ⟨b, bs', hb, hbs, rfl⟩
      exact except_bind_eq_ok.2 ⟨b, hb, except_bind_eq_ok.2 ⟨bs', ih.2 hbs, rfl⟩⟩

/-- The answers of a list of steps come from its items. -/
theorem exists_of_mem_mapM {f : α → Except ε β} {as : List α} {bs : List β}
    (h : as.mapM f = .ok bs) : ∀ b ∈ bs, ∃ a ∈ as, f a = .ok b := by
  have each := mapM_eq_ok_iff.1 h
  clear h
  induction each with
  | nil => exact List.forall_mem_nil _
  | @cons a b as bs hb _ ih =>
    refine List.forall_mem_cons.2 ⟨⟨a, List.mem_cons_self, hb⟩, fun b' hb' => ?_⟩
    obtain ⟨a', ha', hf⟩ := ih b' hb'
    exact ⟨a', List.mem_cons_of_mem _ ha', hf⟩

/-- A step for each item succeeds if every one does. -/
theorem exists_mapM_iff {f : α → Except ε β} {as : List α} :
    (∃ bs, as.mapM f = .ok bs) ↔ ∀ a ∈ as, ∃ b, f a = .ok b := by
  simp only [mapM_eq_ok_iff]
  induction as with
  | nil => simp
  | cons a as ih =>
    rw [List.forall_mem_cons, ← ih]
    simp only [List.forall₂_cons_left_iff]
    constructor
    · rintro ⟨_, b, bs, hb, hbs, rfl⟩
      exact ⟨⟨b, hb⟩, bs, hbs⟩
    · rintro ⟨⟨b, hb⟩, bs, hbs⟩
      exact ⟨b :: bs, b, bs, hb, hbs, rfl⟩

/-- What holds of the items in front and the answer to them, and is kept by each further
    step, holds of all items and the answer to them. -/
theorem foldlM_follows {step : β → α → Except ε β} (inv : List α → β → Prop)
    (keeps : ∀ before b a b', inv before b → step b a = .ok b' → inv (before ++ [a]) b')
    (before : List α) {as : List α} {b b' : β} (hb : inv before b)
    (h : as.foldlM step b = .ok b') : inv (before ++ as) b' := by
  induction as generalizing before b with
  | nil =>
    cases h
    rwa [List.append_nil]
  | cons a as ih =>
    rw [List.foldlM_cons] at h
    obtain ⟨b₁, h₁, h⟩ := except_bind_eq_ok.1 h
    rw [List.append_cons]
    exact ih (before ++ [a]) (keeps before b a b₁ hb h₁) h

/-- A fold goes on as long as the items up to the next one are allowed. -/
theorem exists_foldlM {step : β → α → Except ε β} (inv : List α → β → Prop)
    (keeps : ∀ before b a b', inv before b → step b a = .ok b' → inv (before ++ [a]) b')
    {allowed : List α → Prop} (initial : ∀ xs ys, allowed (xs ++ ys) → allowed xs)
    (goes : ∀ before b a, inv before b → allowed (before ++ [a]) → ∃ b', step b a = .ok b')
    (before : List α) {as : List α} {b : β} (hb : inv before b) (h : allowed (before ++ as)) :
    ∃ b', as.foldlM step b = .ok b' := by
  induction as generalizing before b with
  | nil => exact ⟨b, rfl⟩
  | cons a as ih =>
    rw [List.append_cons] at h
    obtain ⟨b₁, h₁⟩ := goes before b a hb (initial _ _ h)
    obtain ⟨b', h'⟩ := ih (before ++ [a]) (keeps before b a b₁ hb h₁) h
    exact ⟨b', except_bind_eq_ok.2 ⟨b₁, h₁, h'⟩⟩

/-- A fold that only goes on where the items are allowed goes to its end exactly if they
    are. -/
theorem exists_foldlM_iff {step : β → α → Except ε β} (inv : List α → β → Prop)
    (keeps : ∀ before b a b', inv before b → step b a = .ok b' → inv (before ++ [a]) b')
    {allowed : List α → Prop} (initial : ∀ xs ys, allowed (xs ++ ys) → allowed xs)
    (goes : ∀ before b a, inv before b → allowed (before ++ [a]) → ∃ b', step b a = .ok b')
    (sound : ∀ before b, inv before b → allowed before) {as : List α} {b : β} (hb : inv [] b) :
    (∃ b', as.foldlM step b = .ok b') ↔ allowed as := by
  constructor
  · rintro ⟨b', h⟩
    exact sound as b' (foldlM_follows inv keeps [] hb h)
  · exact exists_foldlM inv keeps initial goes [] hb

/-- What holds at the start of a fold, and is kept by each of its steps, holds
    at its end. -/
theorem foldlM_preserves {step : β → α → Except ε β} (inv : β → Prop)
    (keeps : ∀ b a b', inv b → step b a = .ok b' → inv b') {as : List α} {b b' : β}
    (hb : inv b) (h : as.foldlM step b = .ok b') : inv b' :=
  foldlM_follows (fun _ => inv) (fun _ => keeps) [] hb h

/-- A fold whose steps put one item behind the others comes to all of them. -/
theorem append_map_of_foldlM {step : List β → α → Except ε (List β)} {f : α → β}
    (puts : ∀ bs a bs', step bs a = .ok bs' → bs' = bs ++ [f a]) {as : List α} {bs bs' : List β}
    (h : as.foldlM step bs = .ok bs') : bs' = bs ++ as.map f := by
  induction as generalizing bs with
  | nil =>
    cases h
    exact (List.append_nil _).symm
  | cons a as ih =>
    rw [List.foldlM_cons] at h
    obtain ⟨bs₁, h₁, h⟩ := except_bind_eq_ok.1 h
    rw [ih h, puts _ _ _ h₁, List.append_assoc, List.map_cons, List.singleton_append]

/-- Steps in a row that answer alike, though the second one starts from an answer in
    another form and complaints have another form. -/
theorem bind_eq_mapError_of_map {x x' : Except ε α} {f f' : α → Except ε β} {g : ε → ε} {h : α → α}
    (hx : x' = (x.map h).mapError g) (hf : ∀ a, f' (h a) = (f a).mapError g) :
    x' >>= f' = (x >>= f).mapError g := by
  subst hx
  cases x with
  | error e => rfl
  | ok a => exact hf a

/-- Two steps whose errors are translated fail with the translation. -/
theorem bind_eq_mapError {x x' : Except ε α} {f f' : α → Except ε β} {g : ε → ε}
    (hx : x' = x.mapError g) (hf : ∀ a, f' a = (f a).mapError g) :
    x' >>= f' = (x >>= f).mapError g := by
  have same : x = x.map id := (congrFun Except.map_id x).symm
  exact bind_eq_mapError_of_map (hx.trans (congrArg (Except.mapError g) same)) hf

/-- A step for each item whose errors are translated fails with the translation. -/
theorem mapM_map_mapError {f : α → Except ε β} {g : ε → ε} {h : α → α}
    (step : ∀ a, f (h a) = (f a).mapError g) (as : List α) :
    (as.map h).mapM f = (as.mapM f).mapError g := by
  induction as with
  | nil => rfl
  | cons a as ih =>
    rw [List.map_cons, List.mapM_cons, List.mapM_cons]
    exact bind_eq_mapError (step a) fun _ => bind_eq_mapError ih fun _ => rfl

/-- Steps in a row whose errors are translated fail with the translation. -/
theorem foldlM_map_mapError {f : β → α → Except ε β} {g : ε → ε} {h : α → α}
    (step : ∀ b a, f b (h a) = (f b a).mapError g) (as : List α) (b : β) :
    (as.map h).foldlM f b = (as.foldlM f b).mapError g := by
  induction as generalizing b with
  | nil => rfl
  | cons a as ih =>
    rw [List.map_cons, List.foldlM_cons, List.foldlM_cons]
    exact bind_eq_mapError (step b a) ih

/-- Behind the same step, answers in another form. -/
theorem bind_eq_map {γ : Type} {x : Except ε α} {f : α → Except ε β} {f' : α → Except ε γ}
    {h : β → γ} (hf : ∀ a, f' a = (f a).map h) : x >>= f' = (x >>= f).map h := by
  cases x with
  | error e => rfl
  | ok a => exact hf a

/-- What the steps commute with the whole run commutes with. -/
theorem foldlM_eq_map {f : β → α → Except ε β} {h : β → β}
    (step : ∀ b a, f (h b) a = (f b a).map h) (as : List α) (b : β) :
    as.foldlM f (h b) = (as.foldlM f b).map h := by
  induction as generalizing b with
  | nil => rfl
  | cons a as ih =>
    rw [List.foldlM_cons, List.foldlM_cons, step]
    cases f b a with
    | error e => rfl
    | ok b' => exact ih b'

/-! ## Two outcomes -/

/-- Both outcomes are answers, and these are related, or both are refusals, and
    these are. -/
inductive SameOutcome {α β ε δ : Type} (R : α → β → Prop) (E : ε → δ → Prop) :
    Except ε α → Except δ β → Prop
  | ok {a : α} {b : β} : R a b → SameOutcome R E (.ok a) (.ok b)
  | error {e : ε} {d : δ} : E e d → SameOutcome R E (.error e) (.error d)

namespace SameOutcome

variable {α' β' δ ε' δ' : Type} {R : α → β → Prop} {E : ε → δ → Prop} {S : α' → β' → Prop}
  {x : Except ε α} {y : Except δ β}

/-- Steps with the same outcome behind steps with the same outcome have the same outcome. -/
theorem bind (h : SameOutcome R E x y) {f : α → Except ε α'} {g : β → Except δ β'}
    (hf : ∀ a b, R a b → SameOutcome S E (f a) (g b)) : SameOutcome S E (x >>= f) (y >>= g) := by
  cases h with
  | ok same => exact hf _ _ same
  | error same => exact .error same

/-- Both runs take the same step first. -/
theorem bind_same {E : ε → ε → Prop} (hE : ∀ e, E e e) (x : Except ε α)
    {f : α → Except ε α'} {g : α → Except ε β'} (h : ∀ a, SameOutcome S E (f a) (g a)) :
    SameOutcome S E (x >>= f) (x >>= g) := by
  cases x with
  | ok a => exact h a
  | error e => exact .error (hE e)

theorem mapError (h : SameOutcome R E x y) {E' : ε' → δ' → Prop} {f : ε → ε'} {g : δ → δ'}
    (hf : ∀ e d, E e d → E' (f e) (g d)) : SameOutcome R E' (x.mapError f) (y.mapError g) := by
  cases h with
  | ok same => exact .ok same
  | error same => exact .error (hf _ _ same)

/-- Two runs with the same outcome both succeed or both fail. -/
theorem exists_ok_iff (h : SameOutcome R E x y) : (∃ a, x = .ok a) ↔ ∃ b, y = .ok b := by
  cases h with
  | ok same => exact ⟨fun _ => ⟨_, rfl⟩, fun _ => ⟨_, rfl⟩⟩
  | error same => constructor <;> (rintro ⟨_, ⟨⟩⟩)

theorem of_ok (h : SameOutcome R E x y) {a : α} {b : β} (hx : x = .ok a) (hy : y = .ok b) :
    R a b := by
  subst hx hy
  obtain ⟨same⟩ := h
  exact same

theorem of_error (h : SameOutcome R E x y) {e : ε} {d : δ} (hx : x = .error e)
    (hy : y = .error d) : E e d := by
  subst hx hy
  obtain _ | ⟨same⟩ := h
  exact same

/-- Of an outcome that is another one in other forms. -/
theorem of_mapError_eq {γ : Type} {x : Except ε α} {y : Except ε β} {h : α → β} {g : ε → γ}
    (same : y.mapError g = (x.map h).mapError g) :
    SameOutcome (fun a b => b = h a) (fun e e' => g e = g e') x y := by
  cases x with
  | error e =>
    cases y with
    | error e' => exact .error (Except.error.inj same).symm
    | ok b => exact nomatch same
  | ok a =>
    cases y with
    | error e' => exact nomatch same
    | ok b => exact .ok (Except.ok.inj same)

end SameOutcome

end ConnectorQuery
