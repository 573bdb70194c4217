import ConnectorQuery.Proofs.Statement.Places
import ConnectorQuery.Query.Json
import Mathlib.Data.List.Nodup

/-!
# Reading JSON forms back

A value is written as JSON and read back (`Serial.ReadsBack`). Whether that gives
the value again is a matter of its parts: of the items of a list, of the members
of a record, each found under a name of its own (`Json.lookup_of_mem`), and of what
a choice carries. A value that may be missing is `null` then, so what is there must
not be written as `null` (`Serial.Present`).

Queries are read back whatever they hold (`Serial.Faithful`). The parts of a
statement hold places, which are read as machine words, so a statement is read back
as long as its places fit into these (`Span.Fits`, `Serial.PlacedFaithful`).

* `Query.readsBack`: of a query nothing is lost;
* `Serial.ReadsBack.inj`: so two values never have one form;
* `readsBack_query_statement`: both for queries and statements.
-/

namespace ConnectorQuery

open Spanned (spans)

/-- In a record whose names differ, each member is found under its name. -/
theorem Json.lookup_of_mem {ms : List (String × Json)} (names : (ms.map Prod.fst).Nodup) :
    ∀ m ∈ ms, ms.lookup m.1 = some m.2 := by
  induction ms with
  | nil => exact List.forall_mem_nil _
  | cons m ms ih =>
    obtain ⟨new, names⟩ := List.nodup_cons.1 names
    refine List.forall_mem_cons.2 ⟨List.lookup_cons_self, fun m' hm' => ?_⟩
    have ne : (m'.1 == m.1) = false := by
      refine beq_eq_false_iff_ne.2 fun same => new ?_
      exact same ▸ List.mem_map_of_mem hm'
    rw [List.lookup_cons, ne]
    exact ih names m' hm'

/-- What reads each item back from its form reads the list of them back. -/
theorem mapM_map_eq_some {α β : Type} {write : α → β} {read : β → Option α} {as : List α}
    (h : ∀ a ∈ as, read (write a) = some a) : (as.map write).mapM read = some as := by
  induction as with
  | nil => rfl
  | cons a as ih =>
    obtain ⟨first, others⟩ := List.forall_mem_cons.1 h
    rw [List.map_cons, List.mapM_cons, first, ih others]
    rfl

namespace Serial

variable {α : Type} [Serial α]

/-- The value is read back from its JSON form. -/
def ReadsBack (a : α) : Prop :=
  ofJson? (toJson a) = some a

/-- Values that are read back have different forms. -/
theorem ReadsBack.inj {a b : α} (ha : ReadsBack a) (hb : ReadsBack b) (h : toJson a = toJson b) :
    a = b :=
  Option.some.inj (ha.symm.trans ((congrArg ofJson? h).trans hb))

/-- No value of the type is written as `null`. -/
class Present (α : Type) [Serial α] : Prop where
  toJson_ne_null (a : α) : toJson a ≠ .null

/-- Every value of the type is read back. -/
class Faithful (α : Type) [Serial α] : Prop where
  readsBack (a : α) : ReadsBack a

/-- A faithful value is read back from what it was written as. -/
theorem ofJson?_toJson [Faithful α] (a : α) : ofJson? (toJson a) = some a :=
  Faithful.readsBack a

/-! ## Values -/

instance : Present String := ⟨nofun⟩

instance : Present UInt32 := ⟨nofun⟩

instance : Present UInt64 := ⟨nofun⟩

instance : Present (List α) := ⟨nofun⟩

instance : Present (Located α) := ⟨nofun⟩

instance : Faithful Bool := ⟨fun _ => rfl⟩

instance : Faithful String := ⟨fun _ => rfl⟩

/-- A number is read back when it is below the bound. -/
theorem natBelow?_nat {bound n : Nat} (h : n < bound) : natBelow? bound (.nat n) = some n :=
  if_pos h

instance : Faithful UInt32 where
  readsBack n := by
    have below := natBelow?_nat n.toNat_lt
    exact (congrArg (Option.map UInt32.ofNat) below).trans (congrArg some n.ofNat_toNat)

instance : Faithful UInt64 where
  readsBack n := by
    have below := natBelow?_nat n.toNat_lt
    exact (congrArg (Option.map UInt64.ofNat) below).trans (congrArg some n.ofNat_toNat)

theorem readsBack_none : ReadsBack (none : Option α) :=
  rfl

/-- What is there is read as if it could not be missing. -/
theorem ofJson?_option {j : Json} (h : j ≠ .null) :
    (ofJson? j : Option (Option α)) = (ofJson? j).map some := by
  cases j with
  | null => exact absurd rfl h
  | _ => rfl

/-- A value that is never written as null is read back where it may be missing. -/
theorem readsBack_some [Present α] {a : α} (h : ReadsBack a) : ReadsBack (some a) :=
  (ofJson?_option (Present.toJson_ne_null a)).trans (congrArg (Option.map some) h)

/-- A list is read back if all its items are. -/
theorem readsBack_list {as : List α} (h : ∀ a ∈ as, ReadsBack a) : ReadsBack as :=
  mapM_map_eq_some h

/-- Of a record comes what comes of members each of which is found under its
    name. -/
theorem record?_bind {γ : Type} {c : γ} {names : List String} {ms : List (String × Json)}
    {read : List (String × Json) → Option γ} (distinct : (ms.map Prod.fst).Nodup)
    (h : ∀ ms', (∀ m ∈ ms, ms'.lookup m.1 = some m.2) → read ms' = some c) :
    ((Json.object ms).record? names).bind read = some c :=
  h ms (Json.lookup_of_mem distinct)

/-- A record is read back if its members are, whatever their order. -/
theorem readsBack_record {a : α} {names : List String} {ms : List (String × Json)}
    {read : List (String × Json) → Option α} (form : toJson a = .object ms)
    (reads : ∀ j, ofJson? j = (j.record? names).bind read) (distinct : (ms.map Prod.fst).Nodup)
    (h : ∀ ms', (∀ m ∈ ms, ms'.lookup m.1 = some m.2) → read ms' = some a) : ReadsBack a := by
  rw [ReadsBack, form, reads]
  exact record?_bind distinct h

instance [Present α] [Faithful α] : Faithful (Option α) where
  readsBack
    | none => readsBack_none
    | some a => readsBack_some (Faithful.readsBack a)

instance [Faithful α] : Faithful (List α) where
  readsBack _ := readsBack_list fun a _ => Faithful.readsBack a

end Serial

open Serial

/-! ## Dictionaries -/

namespace Dictionary

/-- A name behind all others is put behind them. -/
theorem insertInto_of_forall_lt {name value : String} {es : List (String × String)}
    (h : ∀ e ∈ es, e.1 < name) : insertInto name value es = es ++ [(name, value)] := by
  induction es with
  | nil => rfl
  | cons e es ih =>
    obtain ⟨before, others⟩ := List.forall_mem_cons.1 h
    have notBefore : ¬name < e.1 := String.lt_asymm before
    have other : name ≠ e.1 := fun same => String.lt_irrefl name (same ▸ before)
    rw [insertInto, if_neg notBefore, if_neg other, ih others, List.cons_append]

/-- Entries in ascending order are put one behind the other. -/
theorem entries_foldl_insert {es : List (String × String)} {d : Dictionary}
    (h : (d.entries ++ es).Pairwise (·.1 < ·.1)) :
    (es.foldl (fun d e => d.insert e.1 e.2) d).entries = d.entries ++ es := by
  induction es generalizing d with
  | nil => exact (List.append_nil _).symm
  | cons e es ih =>
    have last : ∀ e' ∈ d.entries, e'.1 < e.1 :=
      fun e' he' => (List.pairwise_append.1 h).2.2 e' he' e List.mem_cons_self
    have put : (d.insert e.1 e.2).entries = d.entries ++ [e] := insertInto_of_forall_lt last
    have whole : (d.insert e.1 e.2).entries ++ es = d.entries ++ e :: es := by
      rw [put, List.append_assoc, List.singleton_append]
    rw [List.foldl_cons, ih (whole ▸ h), whole]

/-- A dictionary is that of its own entries. -/
theorem ofList_entries (d : Dictionary) : ofList d.entries = d := by
  obtain ⟨es, ascending⟩ := d
  have same : (ofList es).entries = es := entries_foldl_insert (d := empty) ascending
  rw [Dictionary.mk.injEq]
  exact same

end Dictionary

instance : Faithful Dictionary where
  readsBack d := by
    have pairs : (d.entries.map fun e => (e.1, toJson e.2)).mapM
        (fun m => do return (m.1, ← ofJson? m.2)) = some d.entries :=
      mapM_map_eq_some fun _ _ => rfl
    refine (congrArg (Option.bind · fun es => some (Dictionary.ofList es)) pairs).trans ?_
    exact congrArg some d.ofList_entries

/-! ## Choices -/

instance : Present WriteMode := ⟨nofun⟩

instance : Present Format := ⟨nofun⟩

instance : Present Compression := ⟨nofun⟩

instance : Present SchemaEvolution := ⟨nofun⟩

instance : Present Partitioning := ⟨nofun⟩

instance : Present Timestamp := ⟨fun t => by cases t <;> exact nofun⟩

instance : Faithful WriteMode := ⟨fun m => by cases m <;> rfl⟩

instance : Faithful FieldType := ⟨fun t => by cases t <;> rfl⟩

instance : Faithful TagType := ⟨fun t => by cases t <;> rfl⟩

instance : Faithful TimeUnit := ⟨fun u => by cases u <;> rfl⟩

instance : Faithful Format := ⟨fun f => by cases f <;> rfl⟩

instance : Faithful Compression := ⟨fun c => by cases c <;> rfl⟩

instance : Faithful SchemaEvolution := ⟨fun s => by cases s <;> rfl⟩

instance : Faithful Partitioning := ⟨fun p => by cases p <;> rfl⟩

instance : Faithful Timestamp := ⟨fun t => by cases t <;> rfl⟩

/-! ## Records of a query -/

instance : Present Bucketing := ⟨nofun⟩

instance : Faithful Field where
  readsBack f := by
    refine readsBack_record rfl (fun _ => rfl) (by simp) fun ms found => ?_
    simp only [List.forall_mem_cons] at found
    simp [required, found, ofJson?_toJson]

instance : Faithful Tag where
  readsBack t := by
    refine readsBack_record rfl (fun _ => rfl) (by simp) fun ms found => ?_
    simp only [List.forall_mem_cons] at found
    simp [required, Serial.optional, found, ofJson?_toJson]

instance : Faithful Bucketing where
  readsBack b := by
    refine readsBack_record rfl (fun _ => rfl) (by simp) fun ms found => ?_
    simp only [List.forall_mem_cons] at found
    simp [required, found, ofJson?_toJson]

/-- A query is read back, whatever it holds. -/
theorem Query.readsBack (q : Query) : ReadsBack q := by
  have form : toJson q = .object q.members := rfl
  refine readsBack_record form (fun _ => rfl) (by simp [members]) fun ms found => ?_
  simp only [members, List.forall_mem_cons] at found
  simp only [required, Serial.optional, found, Option.bind_some, ofJson?_toJson,
    Option.bind_eq_bind, Option.pure_def]

/-! ## Statements and their places -/

/-- Both ends of the span are machine words. -/
def Span.Fits (s : Span) : Prop :=
  s.start < UInt64.size ∧ s.stop < UInt64.size

instance (s : Span) : Decidable s.Fits :=
  inferInstanceAs (Decidable (_ ∧ _))

namespace Serial

variable {α : Type} [Serial α] [Spanned α]

/-- Every value of the type is read back, if its places fit into machine words. -/
class PlacedFaithful (α : Type) [Serial α] [Spanned α] : Prop where
  readsBack (a : α) (fits : ∀ s ∈ spans a, s.Fits) : ReadsBack a

instance [Faithful α] : PlacedFaithful α where
  readsBack a _ := Faithful.readsBack a

/-- An offset is read back if the machine has room for it. -/
theorem readsBack_offset {ms : List (String × Json)} {name : String} {n : Nat}
    (found : ms.lookup name = some (.nat n)) (h : n < UInt64.size) : offset? ms name = some n := by
  rw [offset?, found]
  exact natBelow?_nat h

instance : PlacedFaithful Span where
  readsBack s fits := by
    obtain ⟨start, stop⟩ := fits s List.mem_cons_self
    refine readsBack_record rfl (fun _ => rfl) (by simp) fun ms found => ?_
    simp only [List.forall_mem_cons] at found
    simp [readsBack_offset found.1 start, readsBack_offset found.2.1 stop]

instance [PlacedFaithful α] : PlacedFaithful (Located α) where
  readsBack x fits := by
    obtain ⟨span, val⟩ := List.forall_mem_cons.1 fits
    have hval : ofJson? (toJson x.val) = some x.val := PlacedFaithful.readsBack x.val val
    have hspan : ofJson? (toJson x.span) = some x.span :=
      PlacedFaithful.readsBack x.span (List.forall_mem_singleton.2 span)
    refine readsBack_record rfl (fun _ => rfl) (by simp) fun ms found => ?_
    simp only [List.forall_mem_cons] at found
    simp [required, found, hval, hspan]

instance [PlacedFaithful α] : PlacedFaithful (List α) where
  readsBack _ fits := readsBack_list fun a ha =>
    PlacedFaithful.readsBack a fun s hs => fits s (List.mem_flatMap.2 ⟨a, ha, hs⟩)

instance [Present α] [PlacedFaithful α] : PlacedFaithful (Option α) where
  readsBack
    | none, _ => readsBack_none
    | some a, fits => readsBack_some (PlacedFaithful.readsBack a fun s hs =>
        fits s (List.mem_flatMap.2 ⟨a, List.mem_singleton_self a, hs⟩))

/-- Where the machine has room for all places, a value with places is read back. -/
theorem ofJson?_toJson_of_fits [PlacedFaithful α] {a : α} (fits : ∀ s ∈ spans a, s.Fits) :
    ofJson? (toJson a) = some a :=
  PlacedFaithful.readsBack a fits

end Serial

instance : PlacedFaithful Column where
  readsBack c fits := by
    refine readsBack_record rfl (fun _ => rfl) (by simp) fun ms found => ?_
    simp only [List.forall_mem_cons] at found
    have span := ofJson?_toJson_of_fits (a := c.span) fits
    simp [required, Serial.optional, found, ofJson?_toJson, span]

instance : PlacedFaithful FieldPath where
  readsBack p fits := by
    refine readsBack_record rfl (fun _ => rfl) (by simp) fun ms found => ?_
    simp only [List.forall_mem_cons] at found
    have name := ofJson?_toJson_of_fits (a := p.name) fits
    simp [required, found, ofJson?_toJson, name]

instance : PlacedFaithful TagEntry where
  readsBack e fits := by
    obtain ⟨span, fits⟩ := List.forall_mem_cons.1 fits
    obtain ⟨key, fits⟩ := List.forall_mem_append.1 fits
    obtain ⟨marker, value⟩ := List.forall_mem_append.1 fits
    have span := ofJson?_toJson_of_fits (a := e.span) (List.forall_mem_singleton.2 span)
    have key := ofJson?_toJson_of_fits key
    have marker := ofJson?_toJson_of_fits marker
    have value := ofJson?_toJson_of_fits value
    refine readsBack_record rfl (fun _ => rfl) (by simp) fun ms found => ?_
    simp only [List.forall_mem_cons] at found
    simp [required, Serial.optional, found, span, key, marker, value]

instance : PlacedFaithful Assignment where
  readsBack a fits := by
    obtain ⟨name, value⟩ := List.forall_mem_append.1 fits
    have name := ofJson?_toJson_of_fits name
    have value := ofJson?_toJson_of_fits value
    refine readsBack_record rfl (fun _ => rfl) (by simp) fun ms found => ?_
    simp only [List.forall_mem_cons] at found
    simp [required, found, name, value]

/-! ## Clauses -/

namespace Clause

theorem readsBack_flag (f : Flag) : ReadsBack (flag f) := by
  cases f <;> rfl

/-- The name of a setting is that of no other clause. -/
theorem ofJson?_setting (s : Setting) (j : Json) :
    Clause.ofJson? (.object [(s.jsonName, j)]) =
      (Serial.ofJson? j).bind fun v => some (setting s v) := by
  cases s <;> rfl

theorem ofJson?_bucketing (j : Json) : Clause.ofJson? (.object [("Bucketing", j)]) =
    (j.record? ["names", "count"]).bind fun ms => do
      return bucketing (← required ms "names") (← Serial.optional ms "count") :=
  rfl

theorem ofJson?_storeAs (j : Json) : Clause.ofJson? (.object [("StoreAs", j)]) =
    (j.record? ["type_name", "parameters"]).bind fun ms => do
      return storeAs (← required ms "type_name") (← required ms "parameters") :=
  rfl

theorem ofJson?_timestamp (j : Json) : Clause.ofJson? (.object [("Timestamp", j)]) =
    (j.record? ["value", "call"]).bind fun ms => do
      return timestamp (← required ms "value") (← required ms "call") :=
  rfl

end Clause

instance : PlacedFaithful Clause where
  readsBack c fits := by
    cases c with
    | flag f => exact Clause.readsBack_flag f
    | setting s v =>
      exact (Clause.ofJson?_setting s _).trans
        (congrArg (Option.bind · _) (PlacedFaithful.readsBack v fits))
    | primaryKey columns =>
      exact congrArg (Option.map _) (PlacedFaithful.readsBack columns fits)
    | ignore columns =>
      exact congrArg (Option.map _) (PlacedFaithful.readsBack columns fits)
    | partitionBy names =>
      exact congrArg (Option.map _) (PlacedFaithful.readsBack names fits)
    | bucketing names count =>
      obtain ⟨hnames, hcount⟩ := List.forall_mem_append.1 fits
      have hnames := ofJson?_toJson_of_fits hnames
      have hcount := ofJson?_toJson_of_fits hcount
      refine (Clause.ofJson?_bucketing _).trans (record?_bind (by simp) fun ms found => ?_)
      simp only [List.forall_mem_cons] at found
      simp [required, Serial.optional, found, hnames, hcount]
    | storeAs type parameters =>
      obtain ⟨htype, hparameters⟩ := List.forall_mem_append.1 fits
      have htype := ofJson?_toJson_of_fits htype
      have hparameters := ofJson?_toJson_of_fits hparameters
      refine (Clause.ofJson?_storeAs _).trans (record?_bind (by simp) fun ms found => ?_)
      simp only [List.forall_mem_cons] at found
      simp [required, found, htype, hparameters]
    | timestamp value call =>
      have hvalue := ofJson?_toJson_of_fits (a := value) fits
      refine (Clause.ofJson?_timestamp _).trans (record?_bind (by simp) fun ms found => ?_)
      simp only [List.forall_mem_cons] at found
      simp [required, found, ofJson?_toJson, hvalue]
    | tags entries =>
      exact congrArg (Option.map _) (PlacedFaithful.readsBack entries fits)
    | withKeys keys =>
      exact congrArg (Option.map _) (PlacedFaithful.readsBack keys fits)
    | properties entries =>
      exact congrArg (Option.map _) (PlacedFaithful.readsBack entries fits)

/-- A statement is read back, if its places fit into machine words. -/
instance : PlacedFaithful Statement where
  readsBack st fits := by
    obtain ⟨span, fits⟩ := List.forall_mem_cons.1 fits
    obtain ⟨verb, fits⟩ := List.forall_mem_append.1 fits
    obtain ⟨target, fits⟩ := List.forall_mem_append.1 fits
    obtain ⟨columns, fits⟩ := List.forall_mem_append.1 fits
    obtain ⟨source, clauses⟩ := List.forall_mem_append.1 fits
    have span := ofJson?_toJson_of_fits (a := st.span) (List.forall_mem_singleton.2 span)
    have verb := ofJson?_toJson_of_fits verb
    have target := ofJson?_toJson_of_fits target
    have columns := ofJson?_toJson_of_fits columns
    have source := ofJson?_toJson_of_fits source
    have clauses := ofJson?_toJson_of_fits clauses
    refine readsBack_record rfl (fun _ => rfl) (by simp) fun ms found => ?_
    simp only [List.forall_mem_cons] at found
    simp [required, Serial.optional, found, span, verb, target, columns, source, clauses]

/-! ## Queries and statements -/

/-- Queries and statements are read back from their JSON forms: a query whatever it
    holds, and a statement whose places fit into machine words. So values that
    differ have different forms, however alike they may look. -/
theorem readsBack_query_statement :
    (∀ q : Query, ofJson? (toJson q) = some q) ∧
    (∀ st : Statement, (∀ s ∈ spans st, s.Fits) → ofJson? (toJson st) = some st) ∧
    ∀ q : Query,
      toJson { q with compression := none } ≠ toJson { q with compression := some .none } ∧
      toJson { q with timestamp := some .systemTime } ≠
        toJson { q with timestamp := some (.field "SystemTime") } ∧
      toJson { q with tags := none } ≠ toJson { q with tags := some [] } := by
  have apart {q q' : Query} (ne : q ≠ q') : toJson q ≠ toJson q' :=
    fun same => ne (q.readsBack.inj q'.readsBack same)
  refine ⟨Query.readsBack, PlacedFaithful.readsBack, fun q => ⟨apart ?_, apart ?_, apart ?_⟩⟩
  · exact fun same => nomatch congrArg Query.compression same
  · exact fun same => nomatch congrArg Query.timestamp same
  · exact fun same => nomatch congrArg Query.tags same

/-- A statement with an optional part missing, and one that is there, at the far
    end of what a machine word can hold. -/
def Statement.distant : Statement :=
  let last : Span := ⟨UInt64.size - 1, UInt64.size - 1⟩
  { verb := some ⟨.upsert, last⟩
    target := some ⟨"null", last⟩
    columns := [⟨["a", "*"], false, none, last⟩]
    source := ⟨"s", last⟩
    clauses := [⟨.bucketing [⟨⟨"b", last⟩, true⟩] none, last⟩, ⟨.flag .ack, last⟩,
      ⟨.tags [⟨⟨"k", last⟩, some ⟨"=", last⟩, some ⟨"", last⟩, last⟩], last⟩]
    span := last }

theorem readsBack_query_statement_distant : (∀ s ∈ spans Statement.distant, s.Fits) ∧
    ofJson? (toJson Statement.distant) = some Statement.distant := by
  have fits : ∀ s ∈ spans Statement.distant, s.Fits := by decide +kernel
  exact ⟨fits, readsBack_query_statement.2.1 _ fits⟩

end ConnectorQuery
