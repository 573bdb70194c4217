import ConnectorQuery.Console
import ConnectorQuery.Proofs.Outcome

/-!
# Checks file by file

A check of several files is the checks of the files alone, one after the other. There is
one mapper for all of them, but it keeps nothing from one file to the next: a source or a
target may be mapped in two files, and a file that fails, or that cannot be read, leaves
the reports on all others as they are.

* `IsFileReport`: what is written about a file;
* `checkFile_eq`: one round of the loop over the files, whatever came before it;
* `check_eq`: the whole loop;
* `check_file_by_file`: a check against the checks of the files alone.
-/

namespace ConnectorQuery.Console

/-! ## Outputs in a row -/

namespace Output

variable (os : List Output) (o : Output)

/-- The standard output of a run is that of its parts in a row. -/
theorem out_join : (join os).out = String.join (os.map (·.out)) := by
  induction os with
  | nil => rfl
  | cons o os ih => rw [join, out_append, ih, List.map_cons, String.join_cons]

/-- The error output of a run is that of its parts in a row. -/
theorem err_join : (join os).err = String.join (os.map (·.err)) := by
  induction os with
  | nil => rfl
  | cons o os ih => rw [join, err_append, ih, List.map_cons, String.join_cons]

theorem join_singleton : join [o] = o :=
  append_empty o

/-- Outputs to one stream only are an output to this stream. -/
theorem join_out {α : Type} (f : α → String) (as : List α) :
    join (as.map fun a => { out := f a }) = { out := String.join (as.map f) } := by
  induction as with
  | nil => rfl
  | cons a as ih => rw [List.map_cons, join, ih, List.map_cons, String.join_cons]; rfl

theorem join_err {α : Type} (f : α → String) (as : List α) :
    join (as.map fun a => { err := f a }) = { err := String.join (as.map f) } := by
  induction as with
  | nil => rfl
  | cons a as ih => rw [List.map_cons, join, ih, List.map_cons, String.join_cons]; rfl

end Output

namespace Writing

variable {α β : Type}

/-- What is behind a step starts from its value, and is written behind its output. -/
theorem mk_bind (a : α) (o : Output) (f : α → Writing β) :
    mk a o >>= f = ⟨(f a).value, o ++ (f a).output⟩ := rfl

/-- To write nothing more changes nothing. -/
theorem mk_append_empty (a : α) (o : Output) : mk a (o ++ {}) = mk a o :=
  congrArg (mk a) (Output.append_empty o)

/-- A loop each of whose rounds writes something, whatever is handed to it, is a fold with
    these outputs in a row. -/
theorem forIn_eq {body : α → β → Writing (ForInStep β)} {next : β → α → β} {written : α → Output}
    (round : ∀ a b, body a b = ⟨.yield (next b a), written a⟩) (as : List α) (b : β) :
    forIn as b body = ⟨as.foldl next b, .join (as.map written)⟩ := by
  induction as generalizing b with
  | nil => rfl
  | cons a as ih =>
    rw [List.forIn_cons, round, List.foldl_cons, List.map_cons, Output.join]
    exact congrArg (fun x : Writing β => (⟨x.value, written a ++ x.output⟩ : Writing β)) (ih _)

/-- A loop that only writes. -/
theorem forIn_unit (write : α → Writing Unit) {written : α → Output}
    (round : ∀ a, write a = ⟨(), written a⟩) (as : List α) :
    (forIn as PUnit.unit fun a _ => do
        write a
        return ForInStep.yield PUnit.unit : Writing PUnit) =
      ⟨PUnit.unit, .join (as.map written)⟩ := by
  have each (a : α) (done : PUnit) :
      (do write a; return ForInStep.yield PUnit.unit : Writing (ForInStep PUnit)) =
        ⟨.yield (Function.const α done a), written a⟩ := by
    rw [round]
    exact mk_append_empty _ _
  exact forIn_eq each as PUnit.unit

end Writing

/-- Verdicts one after the other are good together exactly if all of them are. -/
theorem foldl_and {α : Type} (good : α → Bool) (as : List α) (b : Bool) :
    as.foldl (fun b a => b && good a) b = (b && as.all good) := by
  induction as generalizing b with
  | nil => exact (Bool.and_true b).symm
  | cons a as ih => rw [List.foldl_cons, ih, List.all_cons, Bool.and_assoc]

/-! ## Errors and the log -/

namespace Surroundings

variable (w : Surroundings)

/-- What the log writes for records. -/
def logged (rs : List LogRecord) : String :=
  String.join (rs.map w.log)

/-- How an error is told: by its report, or by its message where there is no report. -/
def told (name text : String) (span? : Option Span) (message label : String) : String :=
  (span?.bind fun span => w.draw ⟨name, text, span, message, label⟩).getD ("  " ++ message ++ "\n")

/-- The surroundings with other files. -/
def withFiles (files : Files) : Surroundings :=
  { w with files }

end Surroundings

section Complaints

variable {w : Surroundings}

/-- To log records is to write them to the error output, as far as they are wanted. -/
theorem logAll_eq (rs : List LogRecord) : logAll w rs = ⟨(), { err := w.logged rs }⟩ := by
  rw [logAll, Writing.forIn_unit (log w) fun _ => rfl, Output.join_err]
  exact Writing.mk_append_empty _ _

/-- A report says what is written about the error, at the error output. -/
theorem reportError_eq (name text : String) (span? : Option Span) (message label : String) :
    reportError w name text span? message label =
      ⟨(), { err := w.told name text span? message label }⟩ := by
  rcases span? with _ | span
  · rfl
  · rw [reportError, Surroundings.told, Option.bind_some]
    rcases w.draw ⟨name, text, span, message, label⟩ with _ | drawn <;> rfl

end Complaints

/-! ## Reports on files -/

/-- What is told about a query: where it reads, and where and how it writes. -/
inductive IsDescription : Query → String → Prop
  | writes {q : Query} {mode : WriteMode} {target : String} :
      q.writeMode = some mode → q.target = some target →
      IsDescription q (q.source ++ " -> " ++ target ++ " (" ++ Vocabulary.spelling mode ++ ")")
  | selects {q : Query} : q.writeMode = none ∨ q.target = none →
      IsDescription q (q.source ++ " (select)")

/-- Each query has one description. -/
theorem isDescription_iff {q : Query} {line : String} :
    IsDescription q line ↔ describe q = line := by
  rw [describe]
  constructor
  · rintro (⟨mode, target⟩ | none)
    · simp only [mode, target]
    · rcases none with none | none <;> simp [none]
  · rintro rfl
    split
    · rename_i mode target hmode htarget
      exact .writes hmode htarget
    · rename_i other
      refine .selects ?_
      rcases hmode : q.writeMode with _ | mode
      · exact .inl rfl
      · exact .inr (Option.eq_none_iff_forall_ne_some.2 fun target => other mode target hmode)

/-- Queries have one description each. -/
theorem forall₂_isDescription_iff {qs : List Query} {lines : List String} :
    List.Forall₂ IsDescription qs lines ↔ qs.map describe = lines := by
  rw [← List.forall₂_eq_eq_eq, List.forall₂_map_left_iff]
  exact ⟨.imp fun _ _ => isDescription_iff.1, .imp fun _ _ => isDescription_iff.2⟩

/-- What is written about a file whose names are checked against a policy: the number of its
    statements and a line for each of them, or a complaint. Ahead of these the log tells how
    its text is mapped. -/
inductive IsFileReport (w : Surroundings) (policy : NamePolicy) (name : String) : Output → Prop
  | unreadable {e : FileError} : w.files name = .error e →
      IsFileReport w policy name { err := "Error reading " ++ name ++ ": " ++ e.message ++ "\n" }
  | accepted {text : String} {table : MappingTable} {lines : List String} :
      w.files name = .ok text → ({ policy := policy } : Mapper).map text = .ok table →
      List.Forall₂ IsDescription table.queries lines →
      IsFileReport w policy name
        { out := "✓ " ++ name ++ " - " ++ toString table.queries.length ++ " statements\n" ++
            String.join (lines.map fun line => "  " ++ line ++ "\n")
          err := w.logged (({ policy := policy } : Mapper).mapLog text) ++
            w.log ⟨.info, "kcql", "checked",
              [("file", .shown name), ("statements", .number table.queries.length)]⟩ }
  | rejected {text : String} {e : BatchFailure} :
      w.files name = .ok text → ({ policy := policy } : Mapper).map text = .error e →
      IsFileReport w policy name
        { err := w.logged (({ policy := policy } : Mapper).mapLog text) ++
            ("✗ " ++ name ++ "\n" ++ w.told name text e.span? e.message e.label) }

/-- The file can be read, and its text has a mapping table under the policy. -/
def Accepted (files : Files) (policy : NamePolicy) (name : String) : Prop :=
  ∃ text table, files name = .ok text ∧ ({ policy := policy } : Mapper).map text = .ok table

/-- The policy of a rule on names, where there is one: a text may be no pattern. -/
inductive NameRule.Gives (engine : PatternEngine) : NameRule → NamePolicy → Prop
  | any : Gives engine .any .any
  | topicNames {test : String → Bool} :
      engine.compile NamePattern.topicNamesText = .ok test →
      Gives engine .topicNames (.matching ⟨NamePattern.topicNamesText, test⟩)
  | pattern {text : String} {test : String → Bool} : engine.compile text = .ok test →
      Gives engine (.pattern text) (.matching ⟨text, test⟩)

/-! ## Rounds -/

section Rounds

variable {w : Surroundings} {mapper : Mapper} {name text : String} {allOk : Bool}

/-- A file that cannot be read is reported at once. -/
theorem readFile_eq_error {e : FileError} (read : w.files name = .error e) :
    readFile w name =
      ⟨none, { err := "Error reading " ++ name ++ ": " ++ e.message ++ "\n" }⟩ := by
  rw [readFile, read]
  exact Writing.mk_append_empty _ _

/-- A file that is read leaves no trace in the output. -/
theorem readFile_eq_ok (read : w.files name = .ok text) :
    readFile w name = ⟨some text, {}⟩ := by
  rw [readFile, read]
  rfl

/-- Mapping a text answers what it would without the log, and writes the log. -/
theorem mapLogged_eq (text : String) :
    mapLogged w mapper text = ⟨mapper.map text, { err := w.logged (mapper.mapLog text) }⟩ := by
  rw [mapLogged, logAll_eq]
  exact Writing.mk_append_empty _ _

/-- A round for a file that cannot be read. -/
theorem checkFile_eq_unreadable {e : FileError} (read : w.files name = .error e) :
    checkFile w mapper name allOk =
      ⟨false, { err := "Error reading " ++ name ++ ": " ++ e.message ++ "\n" }⟩ := by
  rw [checkFile, readFile_eq_error read]
  exact Writing.mk_append_empty _ _

/-- A round for a file whose text has no mapping table. -/
theorem checkFile_eq_rejected {e : BatchFailure} (read : w.files name = .ok text)
    (mapped : mapper.map text = .error e) :
    checkFile w mapper name allOk =
      ⟨false,
        { err := w.logged (mapper.mapLog text) ++
            ("✗ " ++ name ++ "\n" ++ w.told name text e.span? e.message e.label) }⟩ := by
  rw [checkFile, readFile_eq_ok read, Writing.mk_bind, Output.empty_append]
  simp only [mapLogged_eq, reportError_eq, Writing.mk_bind, mapped]
  refine congrArg (Writing.mk false) ?_
  ext1 <;> simp [eprintln, eprint]

/-- A round for a file whose text has one. -/
theorem checkFile_eq_accepted {table : MappingTable} (read : w.files name = .ok text)
    (mapped : mapper.map text = .ok table) :
    checkFile w mapper name allOk =
      ⟨allOk,
        { out := "✓ " ++ name ++ " - " ++ toString table.size ++ " statements\n" ++
            String.join (table.queries.map fun q => "  " ++ describe q ++ "\n")
          err := w.logged (mapper.mapLog text) ++ w.log (checkedRecord name table) }⟩ := by
  rw [checkFile, readFile_eq_ok read, Writing.mk_bind, Output.empty_append]
  simp only [mapLogged_eq, Writing.mk_bind, mapped]
  rw [Writing.forIn_unit (fun q => println ("  " ++ describe q)) fun _ => rfl, Output.join_out]
  refine congrArg (Writing.mk allOk) ?_
  ext1 <;> simp [log, println, eprint, String.append_assoc]

/-- One round of a check. What is written does not depend on the files before, and with this
    file all are accepted if they were so far and it is by itself. -/
theorem checkFile_eq (name : String) (allOk : Bool) : checkFile w mapper name allOk =
    ⟨allOk && (checkFile w mapper name true).value, (checkFile w mapper name true).output⟩ := by
  rcases read : w.files name with e | text
  · rw [checkFile_eq_unreadable read, checkFile_eq_unreadable read, Bool.and_false]
  rcases mapped : mapper.map text with e | table
  · rw [checkFile_eq_rejected read mapped, checkFile_eq_rejected read mapped, Bool.and_false]
  · rw [checkFile_eq_accepted read mapped, checkFile_eq_accepted read mapped, Bool.and_true]

/-- The loop over the files: each of them adds its output and its verdict to those of the
    files before. -/
theorem forIn_checkFile (names : List String) :
    (forIn names true fun name allOk => do
        return ForInStep.yield (← checkFile w mapper name allOk) : Writing Bool) =
      ⟨names.all fun name => (checkFile w mapper name true).value,
        .join (names.map fun name => (checkFile w mapper name true).output)⟩ := by
  have round (name : String) (allOk : Bool) :
      (do return ForInStep.yield (← checkFile w mapper name allOk) : Writing (ForInStep Bool)) =
        ⟨.yield (allOk && (checkFile w mapper name true).value),
          (checkFile w mapper name true).output⟩ := by
    rw [checkFile_eq]
    exact Writing.mk_append_empty _ _
  rw [Writing.forIn_eq round, foldl_and, Bool.true_and]

/-- A check under a valid rule. -/
theorem check_eq {rule : NameRule} {policy : NamePolicy} (valid : rule.Gives w.engine policy)
    (names : List String) :
    check w names rule =
      ⟨names.all fun name => (checkFile w { policy := policy } name true).value,
        .join (names.map fun name => (checkFile w { policy := policy } name true).output)⟩ := by
  rcases valid with _ | compiled | compiled
  · exact (Writing.mk_append_empty _ _).trans (forIn_checkFile names)
  · -- the test of the engine for names of topics is the one that their text stands for
    obtain rfl := Except.ok.inj (compiled.symm.trans w.engine.compile_topicNames)
    exact (Writing.mk_append_empty _ _).trans (forIn_checkFile names)
  · simp only [check, NamePattern.ofText_eq_ok compiled]
    exact (Writing.mk_append_empty _ _).trans (forIn_checkFile names)

/-- A check under a rule whose text is no pattern. -/
theorem check_eq_invalid {message : String} (compiled : w.engine.compile text = .error message)
    (names : List String) :
    check w names (.pattern text) =
      ⟨false, { err := "Invalid name pattern: " ++ message ++ "\n" }⟩ := by
  simp only [check, NamePattern.ofText_eq_error compiled]
  exact Writing.mk_append_empty _ _

end Rounds

/-! ## Files by themselves -/

section Alone

variable {w : Surroundings} {policy : NamePolicy} {name : String}

/-- A file by itself is good exactly if it is accepted. -/
theorem value_checkFile_iff :
    (checkFile w { policy := policy } name true).value = true ↔ Accepted w.files policy name := by
  rcases read : w.files name with e | text
  · rw [checkFile_eq_unreadable read]
    refine iff_of_false Bool.false_ne_true fun ⟨text, table, read', _⟩ => ?_
    cases read.symm.trans read'
  rcases mapped : ({ policy := policy } : Mapper).map text with e | table
  · rw [checkFile_eq_rejected read mapped]
    refine iff_of_false Bool.false_ne_true fun ⟨text', table, read', mapped'⟩ => ?_
    cases read.symm.trans read'
    cases mapped.symm.trans mapped'
  · rw [checkFile_eq_accepted read mapped]
    exact iff_of_true rfl ⟨text, table, read, mapped⟩

/-- What is written about a file by itself, and nothing else, is a report on it. -/
theorem isFileReport_iff {o : Output} : IsFileReport w policy name o ↔
    o = (checkFile w { policy := policy } name true).output := by
  constructor
  · rintro (read | ⟨read, mapped, described⟩ | ⟨read, mapped⟩)
    · rw [checkFile_eq_unreadable read]
    · obtain rfl := forall₂_isDescription_iff.1 described
      rw [checkFile_eq_accepted read mapped, List.map_map]
      rfl
    · rw [checkFile_eq_rejected read mapped]
  · rintro rfl
    -- the three ways in which a round of the loop can go
    rcases read : w.files name with e | text
    · rw [checkFile_eq_unreadable read]
      exact .unreadable read
    rcases mapped : ({ policy := policy } : Mapper).map text with e | table
    · rw [checkFile_eq_rejected read mapped]
      exact .rejected read mapped
    · rw [checkFile_eq_accepted read mapped]
      have report := IsFileReport.accepted read mapped (forall₂_isDescription_iff.2 rfl)
      rwa [List.map_map] at report

/-- What is written about a file goes by what is in this file. -/
theorem checkFile_congr {files' : Files} {mapper : Mapper} (same : files' name = w.files name) :
    checkFile (w.withFiles files') mapper name true = checkFile w mapper name true := by
  have readSame : readFile (w.withFiles files') name = readFile w name := by
    rw [readFile, readFile, ← same]
    rfl
  rw [checkFile, checkFile, readSame]
  rfl

end Alone

/-- The exit code is zero if the check succeeds. -/
theorem Outcome.exitCode_eq_zero_iff {x : Writing Bool} :
    (ofWriting x).exitCode = 0 ↔ x.value = true := by
  rcases h : x.value <;> simp [ofWriting, h]

/-- The check of the files ends with exit code 0. -/
def Succeeds (w : Surroundings) (names : List String) (rule : NameRule) : Prop :=
  (Outcome.ofWriting (check w names rule)).exitCode = 0

instance (w : Surroundings) (names : List String) (rule : NameRule) :
    Decidable (Succeeds w names rule) :=
  inferInstanceAs (Decidable (_ = 0))

section Valid

variable {w : Surroundings} {rule : NameRule} {policy : NamePolicy}
  (valid : rule.Gives w.engine policy)

include valid

/-- A check succeeds exactly if all files are accepted. -/
theorem succeeds_iff (names : List String) :
    Succeeds w names rule ↔ ∀ name ∈ names, Accepted w.files policy name := by
  rw [Succeeds, Outcome.exitCode_eq_zero_iff, check_eq valid, List.all_eq_true]
  exact forall₂_congr fun _ _ => value_checkFile_iff

/-- A check of one file writes what the file is reported with. -/
theorem output_check_singleton (name : String) :
    (check w [name] rule).output = (checkFile w { policy := policy } name true).output := by
  rw [check_eq valid]
  exact Output.join_singleton _

/-- Files in two parts, the second of which are as they were. -/
theorem output_check_append {files' : Files} (before : List String) {after : List String}
    (same : ∀ name ∈ after, files' name = w.files name) :
    (check (w.withFiles files') (before ++ after) rule).output =
      (check (w.withFiles files') before rule).output ++ (check w after rule).output := by
  have valid' : rule.Gives (w.withFiles files').engine policy := valid
  rw [check_eq valid', check_eq valid', check_eq valid]
  have later (name : String) (hname : name ∈ after) :
      (checkFile (w.withFiles files') { policy := policy } name true).output =
        (checkFile w { policy := policy } name true).output :=
    congrArg Writing.output (checkFile_congr (same name hname))
  rw [List.map_append, Output.join_append, List.map_congr_left later]

end Valid

/-- A check writes what the checks of the files alone write, one after the other, and
    succeeds exactly if all of these do, each of them by its own file. Whatever is in the
    files before, or if they are gone, the files after them are reported on as they are. With
    a text that is no pattern, no file matters. -/
theorem check_file_by_file (w : Surroundings) (names : List String) (rule : NameRule) :
    (∀ policy, rule.Gives w.engine policy →
      (check w names rule).output.out =
          String.join (names.map fun name => (check w [name] rule).output.out) ∧
        (check w names rule).output.err =
          String.join (names.map fun name => (check w [name] rule).output.err) ∧
        (Succeeds w names rule ↔ ∀ name ∈ names, Succeeds w [name] rule) ∧
        (∀ name, Succeeds w [name] rule ↔ Accepted w.files policy name) ∧
        (∀ name o, IsFileReport w policy name o ↔ o = (check w [name] rule).output) ∧
        ∀ before after (files' : Files), names = before ++ after →
          (∀ name ∈ after, files' name = w.files name) →
          (check (w.withFiles files') names rule).output =
            (check (w.withFiles files') before rule).output ++ (check w after rule).output) ∧
      ∀ text message, rule = .pattern text → w.engine.compile text = .error message →
        Outcome.ofWriting (check w names rule) =
          ⟨{ err := "Invalid name pattern: " ++ message ++ "\n" }, 1⟩ := by
  refine ⟨fun policy valid => ?_, ?_⟩
  · have alone (name : String) : Succeeds w [name] rule ↔ Accepted w.files policy name := by
      rw [succeeds_iff valid, List.forall_mem_singleton]
    -- with one mapper for all files, the output of the loop is that of the files one by one
    have outputs : (check w names rule).output =
        .join (names.map fun name => (check w [name] rule).output) := by
      simp only [output_check_singleton valid]
      rw [check_eq valid]
    refine ⟨?_, ?_, ?_, alone, fun name o => ?_, ?_⟩
    · rw [outputs, Output.out_join, List.map_map]
      rfl
    · rw [outputs, Output.err_join, List.map_map]
      rfl
    · rw [succeeds_iff valid]
      exact forall₂_congr fun name _ => (alone name).symm
    · rw [output_check_singleton valid]
      exact isFileReport_iff
    · rintro before after files' rfl same
      exact output_check_append valid before same
  · rintro text message rfl compiled
    rw [check_eq_invalid compiled]
    rfl

/-- Surroundings whose engine knows the names of topics, in ASCII, and that a bracket has to be
    closed. The log leaves out all but warnings. -/
def plainSurroundings (files : Files) (lines : List String) : Surroundings where
  files := files
  lines := .ok lines
  engine :=
    let isWord (c : Char) : Bool := c.isAlphanum || c == '_'
    let isTopicName (name : String) : Bool :=
      name.toList.head?.any isWord && name.toList.all fun c => isWord c || c == '-' || c == '.'
    { compile := fun text =>
        if text = NamePattern.topicNamesText then .ok isTopicName
        else .error "regex parse error:\n    (\n    ^\nerror: unclosed group"
      topicNames := isTopicName
      compile_topicNames := if_pos rfl }
  draw _ := none
  log r := if r.level = .warn then " WARN " ++ r.target ++ ": " ++ r.message ++ "\n" else ""

/-- Three files with the same mapping, of which the first is gone, under the rule for names of
    topics, and under one that is no pattern. -/
theorem check_file_by_file_missing :
    let files : Files := fun _ => .ok "INSERT INTO t-1 SELECT * FROM s.1"
    let without : Files := fun name => if name = "a" then .error .missing else files name
    let w := plainSurroundings files []
    (check (w.withFiles without) ["a", "b", "c"] .topicNames).output =
        (check (w.withFiles without) ["a"] .topicNames).output ++
          (check w ["b", "c"] .topicNames).output ∧
      Succeeds w ["b", "c"] .topicNames ∧
      ¬Succeeds (w.withFiles without) ["a", "b", "c"] .topicNames ∧
      (Outcome.ofWriting (check w ["b", "c"] (.pattern "("))).exitCode = 1 := by
  intro files without w
  have valid : NameRule.topicNames.Gives w.engine _ := .topicNames w.engine.compile_topicNames
  obtain ⟨-, -, -, -, -, later⟩ := (check_file_by_file w ["a", "b", "c"] .topicNames).1 _ valid
  obtain ⟨-, -, all, alone, -⟩ :=
    (check_file_by_file (w.withFiles without) ["a", "b", "c"] .topicNames).1 _ valid
  -- the pattern that the engine refuses
  have bracket : w.engine.compile "(" =
      .error "regex parse error:\n    (\n    ^\nerror: unclosed group" := by
    simp [w, plainSurroundings, NamePattern.topicNamesText]
  have invalid := (check_file_by_file w ["b", "c"] (.pattern "(")).2 "(" _ rfl bracket
  refine ⟨later ["a"] ["b", "c"] without rfl (by decide), by decide +kernel, fun succeeds => ?_,
    congrArg Outcome.exitCode invalid⟩
  obtain ⟨text, table, read, -⟩ := (alone "a").1 (all.1 succeeds "a" List.mem_cons_self)
  cases read

end ConnectorQuery.Console
