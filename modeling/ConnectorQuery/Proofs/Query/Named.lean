import ConnectorQuery.Mapping
import ConnectorQuery.Proofs.Query.ClauseOrder
import ConnectorQuery.Proofs.Text.ByteOrder
import Mathlib.Data.List.Nodup

/-!
# Storage parameters and properties

Storage parameters and properties are pairs of a name and a value, kept in a dictionary.
The names of the parameters differ even if letter case is ignored, those of the
properties as they are. Both are lists of names with different keys, where the key of a
name is the name without letter case or the name itself.

A pair is entered behind others if no name there has its key, so the dictionary has the
pairs in the order of their names and the keys stay different (`Dictionary.Holds`). That
makes a lookup by key find the only pair there is, wherever it was written
(`Dictionary.Holds.findBy?_eq_some_iff`), though it stops at the first one.

* `Dictionary.Enters.exists_foldlM_iff`: a list is accepted exactly if its keys differ;
* `Query.exists_ofStatement_replace_iff`: a statement accepts a clause in place of another
  one with its keyword exactly if the clause can be resolved;
* `Query.unsupported_iff`: what is wrong with properties that are not allowed;
* `Query.named_values_faithful`: what becomes of all parameters and properties.
-/

namespace ConnectorQuery

/-! ## Dictionaries -/

namespace Dictionary

variable {key : String → String} {d d' : Dictionary} {name value k v : String}
  {pairs : List (String × String)}

/-- A new name is put between the others. -/
theorem perm_insertInto {es : List (String × String)} (new : ∀ e ∈ es, e.1 ≠ name) :
    (insertInto name value es).Perm ((name, value) :: es) := by
  induction es with
  | nil => exact .refl _
  | cons e es ih =>
    obtain ⟨other, new⟩ := List.forall_mem_cons.1 new
    rw [insertInto]
    split
    · exact .refl _
    · rw [if_neg other.symm]
      exact ((ih new).cons e).trans (.swap _ _ _)

/-- The dictionary has the given pairs, whose names have different keys. -/
structure Holds (key : String → String) (pairs : List (String × String)) (d : Dictionary) :
    Prop where
  perm : d.entries.Perm pairs
  keys : (pairs.map fun p => key p.1).Nodup

theorem holds_empty : Holds key [] empty :=
  ⟨.refl _, .nil⟩

theorem Holds.ne_iff (h : d.Holds key pairs) :
    (∀ n ∈ d.names, key n ≠ k) ↔ k ∉ pairs.map fun p => key p.1 := by
  rw [names, List.forall_mem_map, List.mem_map]
  constructor
  · rintro new ⟨p, hp, same⟩
    exact new p (h.perm.mem_iff.2 hp) same
  · exact fun new p hp same => new ⟨p, h.perm.mem_iff.1 hp, same⟩

/-- A dictionary holds one more pair once a new name is put in. -/
theorem Holds.insert (h : d.Holds key pairs) (new : ∀ n ∈ d.names, key n ≠ key name) :
    (d.insert name value).Holds key (pairs ++ [(name, value)]) := by
  have notThere : ∀ e ∈ d.entries, e.1 ≠ name :=
    fun e he same => new e.1 (List.mem_map_of_mem he) (congrArg key same)
  refine ⟨((perm_insertInto notThere).trans (h.perm.cons _)).trans
    (List.perm_append_singleton _ _).symm, ?_⟩
  rw [List.map_append, List.map_singleton, ← List.concat_eq_append]
  exact h.keys.concat (h.ne_iff.1 new)

/-- The pair that a lookup finds first is the only one with its key. -/
theorem Holds.findBy?_eq_some_iff (h : d.Holds key pairs) :
    d.findBy? (key · == k) = some v ↔ ∃ p ∈ pairs, key p.1 = k ∧ p.2 = v := by
  rw [findBy?, Option.map_eq_some_iff]
  constructor
  · rintro ⟨e, found, rfl⟩
    have fits := List.find?_some found
    exact ⟨e, h.perm.mem_iff.1 (List.mem_of_find?_eq_some found), beq_iff_eq.1 fits, rfl⟩
  · rintro ⟨p, hp, rfl, rfl⟩
    have isFound : (d.entries.find? fun e => key e.1 == key p.1).isSome :=
      List.find?_isSome.2 ⟨p, h.perm.mem_iff.2 hp, beq_self_eq_true _⟩
    obtain ⟨e, found⟩ := Option.isSome_iff_exists.1 isFound
    have fits := List.find?_some found
    have same : key e.1 = key p.1 := beq_iff_eq.1 fits
    have he := h.perm.mem_iff.1 (List.mem_of_find?_eq_some found)
    exact ⟨e, found, congrArg Prod.snd (List.inj_on_of_nodup_map h.keys he hp same)⟩

/-! ### Lists of assignments -/

/-- The pair of an assignment. -/
def pairOf (a : Assignment) : String × String :=
  (a.name.val, a.value.val)

/-- The step enters an assignment exactly if no name has its key already. -/
def Enters (key : String → String)
    (step : Dictionary → Assignment → Except RuleError Dictionary) : Prop :=
  ∀ d a d', step d a = .ok d' ↔
    (∀ n ∈ d.names, key n ≠ key a.name.val) ∧ d.insert a.name.val a.value.val = d'

variable {step : Dictionary → Assignment → Except RuleError Dictionary}
  {before entries : List Assignment} {a : Assignment}

/-- A step that looks for the key among those of the names. -/
theorem Enters.of_guard {taken : Dictionary → Assignment → Bool} {refusal : Assignment → RuleError}
    (h : ∀ d a, taken d a = true ↔ ∃ n ∈ d.names, key n = key a.name.val) :
    Enters key fun d a =>
      if taken d a then .error (refusal a) else .ok (d.insert a.name.val a.value.val) := by
  intro d a d'
  beta_reduce
  by_cases isTaken : taken d a = true
  · obtain ⟨n, hn, same⟩ := (h d a).1 isTaken
    rw [if_pos isTaken]
    exact ⟨nofun, fun entered => absurd same (entered.1 n hn)⟩
  · have new : ∀ n ∈ d.names, key n ≠ key a.name.val :=
      fun n hn same => isTaken ((h d a).2 ⟨n, hn, same⟩)
    rw [if_neg isTaken]
    exact ⟨fun same => ⟨new, Except.ok.inj same⟩, fun entered => congrArg _ entered.2⟩

/-- A step that enters a pair leaves a dictionary that holds it too. -/
theorem Enters.holds_concat (enters : Enters key step) (h : d.Holds key (before.map pairOf))
    (entered : step d a = .ok d') : d'.Holds key ((before ++ [a]).map pairOf) := by
  obtain ⟨new, rfl⟩ := (enters d a d').1 entered
  rw [List.map_append]
  exact h.insert new

/-- After all steps the dictionary holds all pairs. -/
theorem Enters.holds_foldlM (enters : Enters key step)
    (h : entries.foldlM step .empty = .ok d) : d.Holds key (entries.map pairOf) :=
  foldlM_follows (fun before d => d.Holds key (before.map pairOf))
    (fun _ _ _ _ => enters.holds_concat) [] holds_empty h

/-- The value that was written with the name is found, whatever the order. -/
theorem Enters.findBy?_eq_some_iff (enters : Enters key step)
    (h : entries.foldlM step .empty = .ok d) : d.findBy? (key · == k) = some v ↔
      ∃ a ∈ entries, key a.name.val = k ∧ a.value.val = v := by
  rw [(enters.holds_foldlM h).findBy?_eq_some_iff]
  simp only [List.mem_map, exists_exists_and_eq_and, pairOf]

/-- All pairs are entered if and only if no two have the same key. -/
theorem Enters.exists_foldlM_iff (enters : Enters key step) :
    (∃ d, entries.foldlM step .empty = .ok d) ↔
      entries.Pairwise fun a b => key a.name.val ≠ key b.name.val := by
  have pairwise (entries : List Assignment) :
      ((entries.map pairOf).map fun p => key p.1).Nodup ↔
        entries.Pairwise fun a b => key a.name.val ≠ key b.name.val := by
    rw [List.map_map, List.Nodup, List.pairwise_map]
    rfl
  refine ConnectorQuery.exists_foldlM_iff (fun before d => d.Holds key (before.map pairOf))
    (fun _ _ _ _ => enters.holds_concat) (fun _ _ all => (List.pairwise_append.1 all).1)
    (fun before d a h all => ?_) (fun _ _ h => (pairwise _).1 h.keys) holds_empty
  -- the key of the next name is not among those in front of it
  refine ⟨_, (enters d a _).2 ⟨h.ne_iff.2 ?_, rfl⟩⟩
  obtain ⟨-, -, differ⟩ := List.pairwise_append.1 all
  rintro mem
  obtain ⟨p, hp, same⟩ := List.mem_map.1 mem
  obtain ⟨b, hb, rfl⟩ := List.mem_map.1 hp
  exact differ b hb a (List.mem_singleton_self a) same

end Dictionary

open Dictionary (Enters)

variable {entries : List Assignment} {d : Dictionary} {name v : String}

/-- A storage parameter is told from others by its name without letter case. -/
theorem enters_storageParameter : Enters Text.foldCase addStorageParameter :=
  .of_guard fun d a => by simp only [List.any_eq_true, Text.eqIgnoringCase_iff]

/-- A property is told from others by its name. -/
theorem enters_property : Enters id addPropertyEntry :=
  .of_guard fun d a => by simp

/-- Parameters are accepted if their names differ in more than letter case. -/
theorem exists_storageParameters_iff : (∃ d, storageParameters entries = .ok d) ↔
    entries.Pairwise fun a b => Text.eqIgnoringCase a.name.val b.name.val = false := by
  rw [storageParameters, enters_storageParameter.exists_foldlM_iff]
  refine List.Pairwise.iff fun a b => ?_
  rw [Bool.eq_false_iff, Ne, Ne, Text.eqIgnoringCase_iff]

/-- Properties are accepted if their names differ. -/
theorem exists_propertyEntries_iff : (∃ d, propertyEntries entries = .ok d) ↔
    entries.Pairwise fun a b => a.name.val ≠ b.name.val :=
  enters_property.exists_foldlM_iff

/-- A parameter is found by its name in any letter case. -/
theorem findBy?_of_storageParameters (h : storageParameters entries = .ok d) :
    d.findBy? (Text.eqIgnoringCase · name) = some v ↔
      ∃ a ∈ entries, Text.eqIgnoringCase a.name.val name = true ∧ a.value.val = v := by
  simp only [Text.eqIgnoringCase_iff]
  exact enters_storageParameter.findBy?_eq_some_iff h

/-- A property is found by its name as it is written. -/
theorem get?_of_propertyEntries (h : propertyEntries entries = .ok d) :
    d.get? name = some v ↔ ∃ a ∈ entries, a.name.val = name ∧ a.value.val = v :=
  enters_property.findBy?_eq_some_iff h

/-! ## Statements -/

namespace Query

variable {text : String} {st : Statement} {before after : List (Located Clause)} {c : Clause}
  {span : Span} {q : Query}

variable {type : Located String} {entries : List Assignment}

/-- A statement with these parameters is accepted if it is without them, and they are. -/
theorem exists_storeAs_iff :
    (∃ q, ofStatement text (st.withClauses (before ++ ⟨.storeAs type entries, span⟩ :: after)) =
      .ok q) ↔
      (∃ q, ofStatement text (st.withClauses (before ++ ⟨.storeAs type [], span⟩ :: after)) =
        .ok q) ∧
        entries.Pairwise fun a b => Text.eqIgnoringCase a.name.val b.name.val = false := by
  rw [← exists_storageParameters_iff]
  refine (exists_ofStatement_replace_iff (.storeAs type entries) (.storeAs type []) rfl
    ⟨_, rfl⟩).trans ?_
  exact and_congr_right fun _ => exists_bind_pure_iff

/-- A statement with these properties is accepted if it is without them, and they are. -/
theorem exists_properties_iff :
    (∃ q, ofStatement text (st.withClauses (before ++ ⟨.properties entries, span⟩ :: after)) =
      .ok q) ↔
      (∃ q, ofStatement text (st.withClauses (before ++ ⟨.properties [], span⟩ :: after)) =
        .ok q) ∧
        entries.Pairwise fun a b => a.name.val ≠ b.name.val := by
  rw [← exists_propertyEntries_iff]
  refine (exists_ofStatement_replace_iff (.properties entries) (.properties []) rfl
    ⟨_, rfl⟩).trans ?_
  exact and_congr_right fun _ => exists_bind_pure_iff

/-- The parameters of a query are those of the clause, wherever it stands. -/
theorem storedAsParameter_eq_some_iff (h : ofStatement text
      (st.withClauses (before ++ ⟨.storeAs type entries, span⟩ :: after)) = .ok q)
    {n v : String} : q.storedAsParameter n = some v ↔
      ∃ a ∈ entries, Text.eqIgnoringCase a.name.val n = true ∧ a.value.val = v := by
  obtain ⟨q₀, u, hu, own⟩ := get_of_ofStatement h .storedAsParameters rfl
  obtain ⟨d, hd, hu⟩ := except_bind_eq_ok.1 hu
  cases hu
  have kept : q.storedAsParameters = d := own
  rw [storedAsParameter, kept, findBy?_of_storageParameters hd]

/-- The properties of a query are those of the clause, wherever it stands. -/
theorem property_eq_some_iff (h : ofStatement text
      (st.withClauses (before ++ ⟨.properties entries, span⟩ :: after)) = .ok q)
    {n v : String} : q.property n = some v ↔
      ∃ a ∈ entries, a.name.val = n ∧ a.value.val = v := by
  obtain ⟨q₀, u, hu, own⟩ := get_of_ofStatement h .properties rfl
  obtain ⟨d, hd, hu⟩ := except_bind_eq_ok.1 hu
  cases hu
  have kept : q.properties = d := own
  rw [property, kept, get?_of_propertyEntries hd]

/-! ### Allowed properties -/

theorem isSome_property_iff (q : Query) (n : String) :
    (q.property n).isSome ↔ n ∈ q.properties.names := by
  rw [property, Dictionary.get?, Dictionary.findBy?, Option.isSome_map, List.find?_isSome,
    Dictionary.names, List.mem_map]
  simp only [beq_iff_eq]

/-- The names of the properties that are not among the allowed ones. -/
def unsupported (q : Query) (allowed : List String) : List String :=
  q.properties.names.filter (· ∉ allowed)

/-- Unsupported are the properties that a query has and that are not allowed. -/
theorem mem_unsupported_iff {allowed : List String} {n : String} :
    n ∈ q.unsupported allowed ↔ (q.property n).isSome ∧ n ∉ allowed := by
  rw [unsupported, List.mem_filter, isSome_property_iff, decide_eq_true_iff]

/-- Unsupported properties are in the order of their bytes. -/
theorem pairwise_unsupported (q : Query) (allowed : List String) :
    (q.unsupported allowed).Pairwise fun m n => Text.bytes m < Text.bytes n := by
  have ascending : q.properties.names.Pairwise (· < ·) :=
    List.pairwise_map.2 q.properties.ascending
  exact (ascending.imp Text.bytes_lt_iff.2).filter _

/-- The check passes if every property is allowed. -/
theorem checkProperties_eq_ok_iff {allowed : List String} :
    q.checkProperties allowed = .ok () ↔ ∀ n, (q.property n).isSome → n ∈ allowed := by
  have none : q.unsupported allowed = [] ↔ ∀ n, (q.property n).isSome → n ∈ allowed := by
    simp only [List.eq_nil_iff_forall_not_mem, mem_unsupported_iff, not_and, not_not]
  rw [← none, ← List.isEmpty_iff]
  change (if (q.unsupported allowed).isEmpty then _ else _) = _ ↔ _
  split
  · rename_i h
    exact ⟨fun _ => h, fun _ => rfl⟩
  · rename_i h
    exact ⟨nofun, fun h' => absurd h' h⟩

/-- The complaint lists what is unsupported and what would be allowed. -/
theorem checkProperties_eq_error {allowed : List String} {e : RuleError}
    (h : q.checkProperties allowed = .error e) :
    e = .unsupportedProperties (q.unsupported allowed) allowed := by
  change (if (q.unsupported allowed).isEmpty then _ else _) = _ at h
  split at h
  · cases h
  · exact (Except.error.inj h).symm

/-- Parameters and properties are accepted, kept and found as they were written. A
    statement accepts a list of storage parameters in place of none exactly if no two names
    are equal but for letter case; then every name finds, in any letter case, the value
    that was written with it. It accepts a list of properties in place of none exactly if
    no two names are equal; then every name finds the value that was written with it.
    Properties pass the check for allowed ones exactly if each name is allowed, and a
    complaint has the others, in the order of their bytes and so each once, with the
    allowed ones as they were given. -/
theorem named_values_faithful (text : String) (st : Statement)
    (before after : List (Located Clause)) (span : Span) :
    (∀ type entries,
      ((∃ q, ofStatement text
          (st.withClauses (before ++ ⟨.storeAs type entries, span⟩ :: after)) = .ok q) ↔
        (∃ q, ofStatement text
          (st.withClauses (before ++ ⟨.storeAs type [], span⟩ :: after)) = .ok q) ∧
          entries.Pairwise fun a b => Text.eqIgnoringCase a.name.val b.name.val = false) ∧
      ∀ q, ofStatement text
          (st.withClauses (before ++ ⟨.storeAs type entries, span⟩ :: after)) = .ok q →
        ∀ n v, q.storedAsParameter n = some v ↔
          ∃ a ∈ entries, Text.eqIgnoringCase a.name.val n = true ∧ a.value.val = v) ∧
    (∀ entries,
      ((∃ q, ofStatement text
          (st.withClauses (before ++ ⟨.properties entries, span⟩ :: after)) = .ok q) ↔
        (∃ q, ofStatement text
          (st.withClauses (before ++ ⟨.properties [], span⟩ :: after)) = .ok q) ∧
          entries.Pairwise fun a b => a.name.val ≠ b.name.val) ∧
      ∀ q, ofStatement text
          (st.withClauses (before ++ ⟨.properties entries, span⟩ :: after)) = .ok q →
        ∀ n v, q.property n = some v ↔ ∃ a ∈ entries, a.name.val = n ∧ a.value.val = v) ∧
    ∀ (q : Query) allowed,
      (q.checkProperties allowed = .ok () ↔ ∀ n, (q.property n).isSome → n ∈ allowed) ∧
      ∀ e, q.checkProperties allowed = .error e →
        ∃ names, e = .unsupportedProperties names allowed ∧
          (∀ n, n ∈ names ↔ (q.property n).isSome ∧ n ∉ allowed) ∧
          names.Pairwise fun m n => Text.bytes m < Text.bytes n := by
  refine ⟨fun type entries => ⟨exists_storeAs_iff, fun q h n v => storedAsParameter_eq_some_iff h⟩,
    fun entries => ⟨exists_properties_iff, fun q h n v => property_eq_some_iff h⟩,
    fun q allowed => ⟨checkProperties_eq_ok_iff, fun e h => ?_⟩⟩
  exact ⟨_, checkProperties_eq_error h, fun _ => mem_unsupported_iff, pairwise_unsupported _ _⟩

end Query

/-- A statement with storage parameters and with properties whose names differ in letter
    case. -/
def Statement.named : Statement where
  verb := none
  target := none
  columns := [⟨["*"], false, none, .nowhere⟩]
  source := .nowhere "s"
  clauses := [
    .nowhere (.storeAs (.nowhere "T") [⟨.nowhere "b", .nowhere "1"⟩, ⟨.nowhere "A", .nowhere "2"⟩]),
    .nowhere (.properties [⟨.nowhere "p", .nowhere "3"⟩, ⟨.nowhere "P", .nowhere "4"⟩])]
  span := .nowhere

theorem Query.named_values_faithful_cased : ∃ q, Query.ofStatement "" .named = .ok q ∧
    q.storedAsParameter "a" = some "2" ∧ q.property "P" = some "4" ∧ q.property "q" = none ∧
    q.checkProperties ["p"] ≠ .ok () ∧ q.checkProperties ["p", "P"] = .ok () := by
  obtain ⟨q, h⟩ := exists_of_isOk (x := Query.ofStatement "" .named) (by decide +kernel)
  obtain ⟨parameters, -⟩ :=
    named_values_faithful "" .named [] (Statement.named.clauses.drop 1) .nowhere
  obtain ⟨-, properties, check⟩ :=
    named_values_faithful "" .named (Statement.named.clauses.take 1) [] .nowhere
  have parameter := (parameters _ _).2 q h
  have property := (properties _).2 q h
  have hP : q.property "P" = some "4" :=
    (property "P" "4").2 ⟨⟨.nowhere "P", .nowhere "4"⟩, by simp, rfl, rfl⟩
  -- the clause names two properties
  have names {n v : String} (hn : q.property n = some v) : n = "p" ∨ n = "P" := by
    obtain ⟨a, ha, rfl, -⟩ := (property n v).1 hn
    rcases List.mem_pair.1 ha with rfl | rfl
    · exact .inl rfl
    · exact .inr rfl
  refine ⟨q, h, ?_, hP, ?_, fun passes => ?_, (check q _).1.2 fun n hn => ?_⟩
  · exact (parameter "a" "2").2 ⟨⟨.nowhere "A", .nowhere "2"⟩, by simp, by decide, rfl⟩
  · refine Option.eq_none_iff_forall_ne_some.2 fun v hv => ?_
    exact absurd (names hv) (by decide)
  · have allowed := (check q ["p"]).1.1 passes "P" (Option.isSome_of_eq_some hP)
    exact absurd allowed (by decide)
  · obtain ⟨v, hv⟩ := Option.isSome_iff_exists.1 hn
    exact List.mem_pair.2 (names hv)

end ConnectorQuery
