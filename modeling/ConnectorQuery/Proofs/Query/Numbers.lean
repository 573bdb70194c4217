import ConnectorQuery.Proofs.Batch.Pieces
import ConnectorQuery.Query.Resolve
import Mathlib.Data.List.Induction
import Mathlib.Data.Nat.Digits.Defs

/-!
# The numbers of a statement

A number is written as a *decimal*: one or more of the digits `0` to `9`, with one `+` in
front or none, and blanks around. What number that is follows from the places of the
digits alone (`Text.IsDecimal`), whatever their number, so zeros in front add nothing and
no text is a second spelling of a number by running over.

Counts and sizes are read from just these texts, where the number is from 1 to a bound,
and every other text is shown as it was written in the complaint (`ReadsPositives`).

* `Text.decimal?_eq_some_iff`: the texts that spell a number;
* `numbers_read_exactly`: counts and sizes are read exactly from the decimals in range.
-/

namespace ConnectorQuery

namespace Text

variable {s : String} {n : Nat} {cs : List Char}

/-! ## Trimming -/

/-- Blanks around a text are all that trimming takes off it. -/
theorem IsStripped.trim_append {front back : List Char} (h : IsStripped cs)
    (blank_front : ∀ c ∈ front, isBlank c = true) (blank_back : ∀ c ∈ back, isBlank c = true) :
    trimEnd (trimStart (front ++ cs ++ back)) = cs := by
  have start : trimStart (front ++ cs ++ back) = cs ++ back := by
    rw [trimStart, List.append_assoc, List.dropWhile_append_of_pos blank_front]
    refine dropWhile_isBlank_eq_self fun c hc => h.head c ?_
    rwa [List.head?_append_of_ne_nil _ h.ne_nil] at hc
  rw [start, trimEnd, List.reverse_append,
    List.dropWhile_append_of_pos fun c hc => blank_back c (List.mem_reverse.1 hc)]
  -- the last character of the text is where trimming stops
  have last : ∀ c ∈ cs.reverse.head?, isBlank c = false := by
    rw [List.head?_reverse]
    exact h.last
  rw [dropWhile_isBlank_eq_self last, List.reverse_reverse]

/-- A text is what is left of it by trimming, with blanks around. -/
theorem exists_eq_trim_append (s : String) : ∃ front back,
    s.toList = front ++ (trim s).toList ++ back ∧
    (∀ c ∈ front, isBlank c = true) ∧ ∀ c ∈ back, isBlank c = true := by
  obtain ⟨back, kept, blank⟩ := exists_trimEnd (trimStart s.toList)
  refine ⟨s.toList.takeWhile isBlank, back, ?_, fun c hc => List.mem_takeWhile_imp hc, blank⟩
  rw [trim, String.toList_ofList, List.append_assoc, ← kept, trimStart,
    List.takeWhile_append_dropWhile]

/-! ## Decimals -/

/-- The number that digits spell, each of them ten times as much as at the place behind it. -/
def placeValue (digits : List Char) : Nat :=
  Nat.ofDigits 10 (digits.reverse.map fun c => c.toNat - '0'.toNat)

/-- The text spells the number: digits of this value, behind one sign or none, with blanks
    around. -/
def IsDecimal (s : String) (n : Nat) : Prop :=
  ∃ front sign digits back, s.toList = front ++ (sign ++ digits) ++ back ∧
    (∀ c ∈ front, isBlank c = true) ∧ (∀ c ∈ back, isBlank c = true) ∧
    (sign = [] ∨ sign = ['+']) ∧ digits ≠ [] ∧ (∀ c ∈ digits, '0' ≤ c ∧ c ≤ '9') ∧
    placeValue digits = n

theorem placeValue_concat (cs : List Char) (c : Char) :
    placeValue (cs ++ [c]) = 10 * placeValue cs + (c.toNat - '0'.toNat) := by
  rw [placeValue, List.reverse_append, List.reverse_singleton, List.singleton_append,
    List.map_cons, Nat.ofDigits_cons, Nat.add_comm]
  rfl

/-- Reading digits from the left gives what their places say. -/
theorem digitsValue_eq_placeValue (cs : List Char) : digitsValue cs = placeValue cs := by
  induction cs using List.reverseRecOn with
  | nil => rfl
  | append_singleton cs c ih =>
    rw [placeValue_concat, ← ih, digitsValue, digitsValue, List.foldl_append]
    rfl

theorem isDigit_iff {c : Char} : c.isDigit = true ↔ '0' ≤ c ∧ c ≤ '9' := by
  simp [Char.isDigit, Char.le_def]

theorem isBlank_of_isDigit {c : Char} (h : c.isDigit = true) : isBlank c = false := by
  obtain ⟨low, high⟩ : '0'.toNat ≤ c.toNat ∧ c.toNat ≤ '9'.toNat := isDigit_iff.1 h
  simp only [Char.reduceToNat] at low high
  simp [isBlank]
  omega

/-- A sign and digits are left as they are by trimming. -/
theorem isStripped_digits {sign digits : List Char} (hsign : sign = [] ∨ sign = ['+'])
    (notEmpty : digits ≠ []) (hdigits : ∀ c ∈ digits, c.isDigit = true) :
    IsStripped (sign ++ digits) where
  ne_nil := List.append_ne_nil_of_right_ne_nil _ notEmpty
  head := by
    intro c hc
    rcases hsign with rfl | rfl
    · exact isBlank_of_isDigit (hdigits c (List.mem_of_mem_head? hc))
    · obtain rfl := Option.some.inj hc
      rfl
  last := by
    intro c hc
    rw [List.getLast?_append_of_ne_nil _ notEmpty] at hc
    exact isBlank_of_isDigit (hdigits c (List.mem_of_getLast? hc))

/-- What is behind the sign, which may be missing. -/
theorem exists_eq_append_unsigned (cs : List Char) :
    ∃ sign, cs = sign ++ unsigned cs ∧ (sign = [] ∨ sign = ['+']) := by
  unfold unsigned
  split
  · exact ⟨['+'], rfl, .inr rfl⟩
  · exact ⟨[], rfl, .inl rfl⟩

theorem unsigned_append {sign digits : List Char} (hsign : sign = [] ∨ sign = ['+'])
    (hdigits : ∀ c ∈ digits, c.isDigit = true) : unsigned (sign ++ digits) = digits := by
  rcases hsign with rfl | rfl
  · -- a plus is no digit
    unfold unsigned
    split
    · rename_i cs plus
      have first : '+' ∈ digits := List.nil_append digits ▸ plus ▸ List.mem_cons_self
      exact absurd (hdigits '+' first) (by decide)
    · rfl
  · rfl

theorem decimal?_eq_some_iff : decimal? s = some n ↔ IsDecimal s n := by
  constructor
  · intro h
    rw [decimal?] at h
    split at h
    · rename_i spelled
      obtain ⟨notEmpty, digits⟩ := spelled
      obtain ⟨front, back, whole, blank_front, blank_back⟩ := exists_eq_trim_append s
      obtain ⟨sign, split, hsign⟩ := exists_eq_append_unsigned (trim s).toList
      rw [split] at whole
      refine ⟨front, sign, _, back, whole, blank_front, blank_back, hsign, notEmpty,
        fun c hc => isDigit_iff.1 (List.all_eq_true.1 digits c hc), ?_⟩
      rw [← digitsValue_eq_placeValue]
      exact Option.some.inj h
    · cases h
  · rintro ⟨front, sign, digits, back, whole, blank_front, blank_back, hsign, notEmpty, hdigits,
      rfl⟩
    have digit : ∀ c ∈ digits, c.isDigit = true := fun c hc => isDigit_iff.2 (hdigits c hc)
    -- no sign or digit is a blank, so trimming takes off what is around the number and no more
    have stripped := isStripped_digits hsign notEmpty digit
    have trimmed : (trim s).toList = sign ++ digits := by
      rw [trim, String.toList_ofList, whole, stripped.trim_append blank_front blank_back]
    rw [decimal?, trimmed, unsigned_append hsign digit, digitsValue_eq_placeValue]
    exact if_pos ⟨notEmpty, List.all_eq_true.2 digit⟩

/-- A text spells one number. -/
theorem IsDecimal.unique {m : Nat} (h : IsDecimal s m) (h' : IsDecimal s n) : m = n :=
  Option.some.inj ((decimal?_eq_some_iff.2 h).symm.trans (decimal?_eq_some_iff.2 h'))

/-- Zeros in front of the digits of a number add nothing. -/
theorem isDecimal_padded (k n : Nat) :
    IsDecimal (String.ofList (List.replicate k '0' ++ Nat.toDigits 10 n)) n := by
  refine ⟨[], [], _, [], by simp; rfl, List.forall_mem_nil _, List.forall_mem_nil _, .inl rfl,
    List.append_ne_nil_of_right_ne_nil _ Nat.toDigits_ne_nil, ?_, ?_⟩
  · intro c hc
    rcases List.mem_append.1 hc with zero | digit
    · rw [List.eq_of_mem_replicate zero]
      decide
    · exact isDigit_iff.1 (Nat.isDigit_of_mem_toDigits (by decide) (by decide) digit)
  · rw [← digitsValue_eq_placeValue, digitsValue, ← Nat.ofDigitChars_eq_foldl,
      Nat.ofDigitChars_append, Nat.ofDigitChars_replicate_zero, Nat.mul_zero,
      Nat.ofDigitChars_ten_toDigits]

end Text

/-! ## Counts and sizes -/

/-- Numbers from 1 to `bound` are read from the decimals that spell them, and from no other
    texts; the complaint about another text shows it as it was written. -/
structure ReadsPositives {α : Type} (read : String → Located String → Except RuleError α)
    (toNat : α → Nat) (bound : Nat) (expected : String) : Prop where
  reads : ∀ clause x a, read clause x = .ok a ↔
    Text.IsDecimal x.val (toNat a) ∧ 1 ≤ toNat a ∧ toNat a ≤ bound
  refuses : ∀ clause x, (¬∃ n, Text.IsDecimal x.val n ∧ 1 ≤ n ∧ n ≤ bound) →
    read clause x = .error (.invalidNumber clause x.val expected x.span)
  /-- A number above the bound is refused, however far above. -/
  above : ∀ clause x n, Text.IsDecimal x.val n → bound < n →
    read clause x = .error (.invalidNumber clause x.val expected x.span)
  /-- Each number in range is read from its digits, with any number of zeros in front. -/
  padded : ∀ clause span k n, 1 ≤ n → n ≤ bound → ∃ a, toNat a = n ∧
    read clause ⟨String.ofList (List.replicate k '0' ++ Nat.toDigits 10 n), span⟩ = .ok a

section Readers

variable {α : Type} {read : String → Located String → Except RuleError α} {toNat : α → Nat}
  {bound : Nat} {expected : String}

/-- A reader that goes by the number of the text reads just the decimals in range. -/
theorem readsPositives_of_eq (ofNat : Nat → α)
    (read_eq : ∀ clause x, read clause x = (Text.positive? bound x.val).elim
      (.error (.invalidNumber clause x.val expected x.span)) fun n => .ok (ofNat n))
    (toNat_ofNat : ∀ n ≤ bound, toNat (ofNat n) = n) (ofNat_toNat : ∀ a, ofNat (toNat a) = a) :
    ReadsPositives read toNat bound expected := by
  have inRange (x : String) (n : Nat) :
      Text.positive? bound x = some n ↔ Text.IsDecimal x n ∧ 1 ≤ n ∧ n ≤ bound := by
    rw [Text.positive?_eq_some_iff, Text.decimal?_eq_some_iff]
  have refuses (clause : String) (x : Located String)
      (h : ¬∃ n, Text.IsDecimal x.val n ∧ 1 ≤ n ∧ n ≤ bound) :
      read clause x = .error (.invalidNumber clause x.val expected x.span) := by
    have noNumber : Text.positive? bound x.val = none :=
      Option.eq_none_iff_forall_ne_some.2 fun n hn => h ⟨n, (inRange x.val n).1 hn⟩
    rw [read_eq, noNumber]
    rfl
  refine ⟨fun clause x a => ?_, refuses, fun clause x n spells large => ?_,
    fun clause span k n low high => ⟨ofNat n, toNat_ofNat n high, ?_⟩⟩
  · rw [← inRange, read_eq]
    cases h : Text.positive? bound x.val with
    | none => exact ⟨nofun, nofun⟩
    | some n =>
      have high := ((inRange x.val n).1 h).2.2
      rw [Option.elim_some, Except.ok.injEq, Option.some.injEq]
      exact ⟨fun same => same ▸ (toNat_ofNat n high).symm, fun same => same ▸ ofNat_toNat a⟩
  · -- the text spells no other number, so none that is in range
    refine refuses clause x fun ⟨m, spells', _, high⟩ => ?_
    exact absurd large (Nat.not_lt.2 (spells.unique spells' ▸ high))
  · rw [read_eq, (inRange _ n).2 ⟨Text.isDecimal_padded k n, low, high⟩]
    rfl

end Readers

/-- Counts and sizes are read exactly from the decimals from 1 to `2 ^ 31 - 1`, and to
    `2 ^ 63 - 1`. -/
theorem numbers_read_exactly :
    ReadsPositives countOf UInt32.toNat (2 ^ 31 - 1) "an integer" ∧
      ReadsPositives longOf UInt64.toNat (2 ^ 63 - 1) "a long" := by
  constructor
  · refine readsPositives_of_eq UInt32.ofNat (fun clause x => ?_) (fun n high => ?_)
      fun a => UInt32.ofNat_toNat
    · rw [countOf.eq_def, maxCount]
      cases Text.positive? (2 ^ 31 - 1) x.val <;> rfl
    · exact UInt32.toNat_ofNat_of_lt' (Nat.lt_of_le_of_lt high (by decide))
  · refine readsPositives_of_eq UInt64.ofNat (fun clause x => ?_) (fun n high => ?_)
      fun a => UInt64.ofNat_toNat
    · rw [longOf.eq_def, maxLong]
      cases Text.positive? (2 ^ 63 - 1) x.val <;> rfl
    · exact UInt64.toNat_ofNat_of_lt' (Nat.lt_of_le_of_lt high (by decide))

/-- Zeros in front and blanks around make no difference. -/
example : countOf "LIMIT" (.nowhere " +0042\u00a0") = .ok 42 := by
  decide +kernel

end ConnectorQuery
