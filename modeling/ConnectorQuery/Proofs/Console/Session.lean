import ConnectorQuery.Proofs.Console.Check
import Mathlib.Algebra.Group.Nat.Even

/-!
# Sessions line by line

The lines of a session are answered up to the first one that quits, each by itself: the
answer goes by the text of the line without the blanks around it, by the files, and by
whether an odd number of the lines before have switched between the two ways to write JSON
(`replies`). Whatever else a line asks for, and however that ends, it could be left out and
all other answers would stay as they are.

* `IsReply`: what is written in answer to each kind of line;
* `value_answer`: what one round of a session hands on to the next;
* `forIn_answers`: the rounds of a session, from the way to write JSON that lines before have
  led to;
* `session_line_by_line`: the whole session.
-/

namespace ConnectorQuery.Console

/-! ## Kinds of lines -/

/-- The line quits the session. -/
def Quits (line : String) : Prop :=
  Text.trim line = ":quit" ∨ Text.trim line = ":q"

instance (line : String) : Decidable (Quits line) :=
  inferInstanceAs (Decidable (_ ∨ _))

/-- The line switches between the ways to write JSON. -/
def Switches (line : String) : Prop :=
  Text.trim line = ":compact"

instance (line : String) : Decidable (Switches line) :=
  inferInstanceAs (Decidable (_ = _))

/-- The text begins with a colon. -/
def IsCommand (text : String) : Prop :=
  ∃ name, text = ":" ++ name

namespace Request

variable {text : String}

/-- A line with a colon in front is a command. -/
theorem ofTrimmed_command (name : String) : ofTrimmed (":" ++ name) = ofCommand name := by
  simp [ofTrimmed]

/-- Any other line is a statement, unless it is empty. -/
theorem ofTrimmed_statement (notEmpty : text ≠ "") (noCommand : ¬IsCommand text) :
    ofTrimmed text = .statement text := by
  unfold ofTrimmed
  split
  · rename_i nothing
    exact absurd (String.toList_eq_nil_iff.1 nothing) notEmpty
  · rename_i name colon
    refine absurd ⟨String.ofList name, ?_⟩ noCommand
    rw [← String.toList_inj, colon]
    simp
  · rfl

/-- A file is loaded by the rest of the line, without the blanks around it. -/
theorem ofCommand_load (file : String) : ofCommand ("load " ++ file) = load (Text.trim file) := by
  have whole : ("load " ++ file).toList = "load ".toList ++ file.toList := String.toList_append
  -- what begins like this is no other command
  have other (word : String) (h : ¬"load ".toList <+: word.toList) : "load " ++ file ≠ word := by
    rintro rfl
    exact h (whole ▸ List.prefix_append _ _)
  rw [ofCommand, if_neg (not_or.2 ⟨other _ (by decide), other _ (by decide)⟩),
    if_neg (not_or.2 ⟨other _ (by decide), other _ (by decide)⟩), if_neg (other _ (by decide)),
    if_pos (whole ▸ List.prefix_append _ _), whole, List.drop_left' (by rfl), String.ofList_toList]

/-- What is none of these commands is unknown. -/
theorem ofCommand_unknown {name : String} (others : name ∉ ["quit", "q", "help", "h", "compact"])
    (noLoad : ∀ file, name ≠ "load " ++ file) : ofCommand name = .unknown := by
  simp only [List.mem_cons, List.not_mem_nil, or_false, not_or] at others
  obtain ⟨quit, q, help, h, compact⟩ := others
  rw [ofCommand, if_neg (not_or.2 ⟨quit, q⟩), if_neg (not_or.2 ⟨help, h⟩), if_neg compact]
  refine if_neg fun ⟨file, whole⟩ => noLoad (String.ofList file) ?_
  rw [← String.toList_inj, ← whole, String.toList_append]
  exact congrArg (_ ++ ·) String.toList_ofList.symm

/-- Only a command quits or switches. -/
theorem isCommand_of_ofTrimmed (h : ofTrimmed text = .quit ∨ ofTrimmed text = .switchCompact) :
    IsCommand text := by
  by_contra noCommand
  by_cases empty : text = ""
  · subst empty
    exact h.elim nofun nofun
  · rw [ofTrimmed_statement empty noCommand] at h
    exact h.elim nofun nofun

/-- Two lines end a session. -/
theorem ofTrimmed_eq_quit_iff : ofTrimmed text = .quit ↔ text = ":quit" ∨ text = ":q" := by
  constructor
  · intro h
    obtain ⟨name, rfl⟩ := isCommand_of_ofTrimmed (.inl h)
    rw [ofTrimmed_command, ofCommand] at h
    split_ifs at h with quits
    exact quits.imp (congrArg (":" ++ ·)) (congrArg (":" ++ ·))
  · rintro (rfl | rfl) <;> rfl

/-- One line switches the output. -/
theorem ofTrimmed_eq_switchCompact_iff : ofTrimmed text = .switchCompact ↔ text = ":compact" := by
  constructor
  · intro h
    obtain ⟨name, rfl⟩ := isCommand_of_ofTrimmed (.inr h)
    rw [ofTrimmed_command, ofCommand] at h
    split_ifs at h with _ _ switches
    exact congrArg (":" ++ ·) switches
  · rintro rfl
    rfl

end Request

/-! ## Answers to lines -/

/-- What is answered to a text without blanks around it, if JSON is written over several
    lines and if it is not. A command is never read as a statement. -/
inductive IsReply (w : Surroundings) (pretty : Bool) : String → Output → Prop
  | blank : IsReply w pretty "" {}
  | help {text : String} : text = ":help" ∨ text = ":h" →
      IsReply w pretty text
        { out := "Commands:\n" ++
            "  <statement>   - Parse a statement and show the query\n" ++
            "  :load <file>  - Check a configuration file\n" ++
            "  :compact      - Toggle compact JSON output\n" ++
            "  :quit         - Exit REPL\n" }
  | compact :
      IsReply w pretty ":compact"
        { out := "Compact output " ++ (if pretty then "on" else "off") ++ "\n" }
  | load {name : String} {o : Output} : IsFileReport w .any (Text.trim name) o →
      IsReply w pretty (":load " ++ name) o
  | unknown {name : String} : name ∉ ["quit", "q", "help", "h", "compact"] →
      (∀ file, name ≠ "load " ++ file) →
      IsReply w pretty (":" ++ name) { out := "Unknown command. Type :help for help.\n" }
  | query {text : String} {q : Query} : text ≠ "" → ¬IsCommand text → Query.parse text = .ok q →
      IsReply w pretty text
        { out := (Serial.toJson q).toText pretty ++ "\n"
          err := w.log ⟨.debug, "kcql", "repl input", [("statement", .text text)]⟩ ++
            w.logged (Query.parseLog text) }
  | refused {text : String} {e : Failure} : text ≠ "" → ¬IsCommand text →
      Query.parse text = .error e →
      IsReply w pretty text
        { err := w.log ⟨.debug, "kcql", "repl input", [("statement", .text text)]⟩ ++
            w.logged (Query.parseLog text) ++ w.told "<repl>" text e.span? e.message e.label }

/-- What is written in answer to a text without blanks around it. -/
def reply (w : Surroundings) (pretty : Bool) (text : String) : Output :=
  (answer w pretty (Request.ofTrimmed text)).output

section Reply

variable {w : Surroundings} {pretty : Bool} {text name : String} {o : Output}

/-- The reply to a command is that to its name. -/
theorem reply_command :
    reply w pretty (":" ++ name) = (answer w pretty (Request.ofCommand name)).output := by
  rw [reply, Request.ofTrimmed_command]

/-- The reply to any other line is that to a statement. -/
theorem reply_statement (notEmpty : text ≠ "") (noCommand : ¬IsCommand text) :
    reply w pretty text = (answer w pretty (.statement text)).output := by
  rw [reply, Request.ofTrimmed_statement notEmpty noCommand]

/-- Reading a statement answers what it would without the log, and writes the log. -/
theorem parseLogged_eq (text : String) :
    parseLogged w text = ⟨Query.parse text, { err := w.logged (Query.parseLog text) }⟩ := by
  rw [parseLogged, logAll_eq]
  exact Writing.mk_append_empty _ _

/-- The commands that there are. -/
theorem output_answer_help : (answer w pretty .help).output =
    { out := "Commands:\n" ++
        "  <statement>   - Parse a statement and show the query\n" ++
        "  :load <file>  - Check a configuration file\n" ++
        "  :compact      - Toggle compact JSON output\n" ++
        "  :quit         - Exit REPL\n" } := by
  rfl

theorem output_answer_switchCompact : (answer w pretty .switchCompact).output =
    { out := "Compact output " ++ (if pretty then "on" else "off") ++ "\n" } := by
  rcases pretty <;> rfl

/-- A file is loaded as a check of this file alone, with any names. -/
theorem output_answer_load : (answer w pretty (.load name)).output =
    (check w [name] .any).output :=
  Output.append_empty _

theorem output_answer_unknown : (answer w pretty .unknown).output =
    { out := "Unknown command. Type :help for help.\n" } :=
  rfl

/-- A statement that is read is shown as the JSON of its query. -/
theorem output_answer_query {q : Query} (read : Query.parse text = .ok q) :
    (answer w pretty (.statement text)).output =
      { out := (Serial.toJson q).toText pretty ++ "\n"
        err := w.log (enteredRecord text) ++ w.logged (Query.parseLog text) } := by
  simp only [answer, parseLogged_eq, Writing.mk_bind, read]
  ext1 <;> simp [log, printJson, println, eprint]

/-- A statement that is refused is answered by the report on its error. -/
theorem output_answer_refused {e : Failure} (read : Query.parse text = .error e) :
    (answer w pretty (.statement text)).output =
      { err := w.log (enteredRecord text) ++ w.logged (Query.parseLog text) ++
          w.told "<repl>" text e.span? e.message e.label } := by
  simp only [answer, parseLogged_eq, reportError_eq, Writing.mk_bind, read]
  ext1 <;> simp [log, eprint, String.append_assoc]

/-- Each command gets the reply that it should, one case for each. -/
theorem isReply_command (stays : ¬(name = "quit" ∨ name = "q")) :
    IsReply w pretty (":" ++ name) (reply w pretty (":" ++ name)) := by
  rw [reply_command, Request.ofCommand, if_neg stays]
  -- the commands in the order in which a line is compared with them
  split_ifs with help compact load
  · rw [output_answer_help]
    exact .help (help.imp (congrArg (":" ++ ·)) (congrArg (":" ++ ·)))
  · subst compact
    rw [output_answer_switchCompact]
    exact .compact
  · obtain ⟨file, whole⟩ := load
    have shape : ":" ++ name = ":load " ++ String.ofList file := by
      rw [← String.toList_inj, String.toList_append, ← whole]
      simp
    rw [shape, ← whole, output_answer_load, output_check_singleton .any]
    exact .load (isFileReport_iff.2 rfl)
  · refine .unknown ?_ fun file whole => load ?_
    · simpa [and_assoc] using And.intro stays (And.intro help compact)
    · rw [whole, String.toList_append]
      exact List.prefix_append _ _

/-- What is written in answer to a text that does not quit is what is said for its kind. -/
theorem isReply_reply (stays : ¬(text = ":quit" ∨ text = ":q")) :
    IsReply w pretty text (reply w pretty text) := by
  by_cases command : IsCommand text
  · obtain ⟨name, rfl⟩ := command
    exact isReply_command fun quits =>
      stays (quits.imp (congrArg (":" ++ ·)) (congrArg (":" ++ ·)))
  by_cases empty : text = ""
  · subst empty
    exact .blank
  rw [reply_statement empty command]
  rcases read : Query.parse text with e | q
  · rw [output_answer_refused read]
    exact .refused empty command read
  · rw [output_answer_query read]
    exact .query empty command read

/-- Nothing else is written in answer to a text. -/
theorem IsReply.eq_reply (h : IsReply w pretty text o) : o = reply w pretty text := by
  rcases h with _ | help | _ | report | ⟨others, noLoad⟩ | ⟨notEmpty, noCommand, read⟩ |
    ⟨notEmpty, noCommand, read⟩
  · rfl
  · -- each form of a reply fixes its line, so that the answer can be computed
    rcases help with rfl | rfl <;> exact output_answer_help.symm
  · exact output_answer_switchCompact.symm
  · rename_i name
    have shape : ":load " ++ name = ":" ++ ("load " ++ name) := by
      rw [← String.append_assoc]
      rfl
    rw [shape, reply_command, Request.ofCommand_load, output_answer_load,
      output_check_singleton .any]
    exact isFileReport_iff.1 report
  · rw [reply_command, Request.ofCommand_unknown others noLoad]
    exact output_answer_unknown.symm
  · rw [reply_statement notEmpty noCommand, output_answer_query read]
    rfl
  · rw [reply_statement notEmpty noCommand, output_answer_refused read]
    rfl

/-- There is one reply to each line that does not end the session, the one that the
    session gives. -/
theorem isReply_iff (stays : ¬(text = ":quit" ∨ text = ":q")) :
    IsReply w pretty text o ↔ o = reply w pretty text :=
  ⟨IsReply.eq_reply, fun same => same ▸ isReply_reply stays⟩

/-- What is written in answer to a text goes by the files, and by how errors and records are
    written. -/
theorem reply_congr {w' : Surroundings} (files : w'.files = w.files) (draw : w'.draw = w.draw)
    (log : w'.log = w.log) : reply w' pretty text = reply w pretty text := by
  obtain ⟨_, lines, engine, _, _⟩ := w
  obtain ⟨_, lines', engine', _, _⟩ := w'
  cases files
  cases draw
  cases log
  rfl

end Reply

/-! ## Lines in a row -/

/-- The lines that are answered: those ahead of the first one that quits. -/
def answered (lines : List String) : List String :=
  lines.takeWhile fun line => ¬Quits line

/-- How many lines switch. -/
def switches (lines : List String) : Nat :=
  lines.countP fun line => Switches line

/-- What is written in answer to lines, one output for each, behind lines of which `n` have
    switched. -/
def replies (w : Surroundings) (n : Nat) (lines : List String) : List Output :=
  (answered lines).mapIdx fun i line =>
    reply w (Even (n + switches (lines.take i))) (Text.trim line)

section Lines

variable {w : Surroundings} {n : Nat} {line : String} {lines : List String}

/-- The switches of a list are those of its first line and those of the others. -/
theorem switches_cons : switches (line :: lines) = switches [line] + switches lines := by
  rw [← List.singleton_append, switches, List.countP_append]
  rfl

theorem switches_singleton : switches [line] = if Switches line then 1 else 0 := by
  simp [switches, List.countP_cons]

/-- Behind a line that ends the session there are no replies. -/
theorem replies_quits (h : Quits line) : replies w n (line :: lines) = [] := by
  rw [replies, answered, List.takeWhile_cons_of_neg (by simpa using h), List.mapIdx_nil]

/-- A line that is answered, then the lines behind it. -/
theorem replies_cons (h : ¬Quits line) : replies w n (line :: lines) =
    reply w (Even n) (Text.trim line) :: replies w (n + switches [line]) lines := by
  rw [replies, answered, List.takeWhile_cons_of_pos (by simpa using h), List.mapIdx_cons]
  refine congrArg (List.cons _) (congrArg (List.mapIdx · _) ?_)
  funext i line'
  rw [List.take_succ_cons, switches_cons, Nat.add_assoc]

/-- A line that neither quits nor switches could be left out. -/
theorem eraseIdx_replies (stays : ¬Quits line) (keeps : ¬Switches line) (before : List String) :
    (replies w n (before ++ line :: lines)).eraseIdx before.length =
      replies w n (before ++ lines) := by
  induction before generalizing n with
  | nil =>
    -- the number of lines that switched is the same behind this one
    rw [List.nil_append, replies_cons stays, switches_singleton, if_neg keeps]
    rfl
  | cons first before ih =>
    by_cases h : Quits first
    · rw [List.cons_append, List.cons_append, replies_quits h, replies_quits h]
      rfl
    · rw [List.cons_append, List.cons_append, replies_cons h, replies_cons h, ← ih]
      rfl

/-! ## Rounds -/

/-- One round of a session. All that it hands on is how JSON is written, and no request but
    the one to switch has a say in that, however it ends. -/
theorem value_answer {pretty : Bool} {r : Request} : (answer w pretty r).value =
    if r = .quit then none else some (if r = .switchCompact then !pretty else pretty) := by
  rcases r with _ | _ | _ | _ | name | _ | text
  case statement =>
    rcases read : Query.parse text with e | q <;> simp [answer, parseLogged, read]
  all_goals rfl

theorem ofLine_eq_quit_iff : Request.ofLine line = .quit ↔ Quits line :=
  Request.ofTrimmed_eq_quit_iff

theorem ofLine_eq_switchCompact_iff : Request.ofLine line = .switchCompact ↔ Switches line :=
  Request.ofTrimmed_eq_switchCompact_iff

/-- A line that ends the session is the last one to be answered. -/
theorem value_answer_quits {pretty : Bool} (h : Quits line) :
    (answer w pretty (Request.ofLine line)).value = none := by
  rw [value_answer]
  exact if_pos (ofLine_eq_quit_iff.2 h)

/-- The way to write JSON goes by the number of lines that switch. -/
theorem value_answer_stays (h : ¬Quits line) :
    (answer w (Even n) (Request.ofLine line)).value =
      some (decide (Even (n + switches [line]))) := by
  rw [value_answer, if_neg (mt ofLine_eq_quit_iff.1 h), switches_singleton]
  refine congrArg some ?_
  by_cases switches : Switches line
  · rw [if_pos (ofLine_eq_switchCompact_iff.2 switches), if_pos switches, ← decide_not,
      decide_eq_decide]
    exact Nat.even_add_one.symm
  · rw [if_neg (mt ofLine_eq_switchCompact_iff.1 switches), if_neg switches, Nat.add_zero]

/-- The rounds of a session, each of which starts from what the one before hands on, and
    breaks the session off where that is nothing. -/
theorem forIn_answers (w : Surroundings) {body : String → Bool → Writing (ForInStep Bool)}
    (round : ∀ line pretty, body line pretty =
      ⟨((answer w pretty (Request.ofLine line)).value.map ForInStep.yield).getD (.done pretty),
        (answer w pretty (Request.ofLine line)).output⟩)
    (n : Nat) {pretty : Bool} (start : pretty = decide (Even n)) :
    (forIn lines pretty body).output = .join (replies w n lines) := by
  subst start
  -- the lines behind the first one are answered with one more that may have switched
  induction lines generalizing n with
  | nil => rfl
  | cons line lines ih =>
    rw [List.forIn_cons, round, Writing.mk_bind]
    by_cases h : Quits line
    · rw [value_answer_quits h, replies_quits h, ofLine_eq_quit_iff.2 h]
      rfl
    · rw [value_answer_stays h, replies_cons h, Output.join, ← ih]
      rfl

/-- A session is the greeting, the replies to its lines, and the farewell. -/
theorem session_eq (entered : w.lines = .ok lines) : session w =
    ⟨true,
      { out := "KCQL REPL v0.1.0\nType :help for help, :quit to exit\n\n" ++
          String.join ((replies w 0 lines).map (·.out)) ++ "Goodbye!\n"
        err := String.join ((replies w 0 lines).map (·.err)) }⟩ := by
  rw [session, entered]
  refine congrArg (Writing.mk true) ?_
  rw [Writing.output_bind, forIn_answers w (fun line pretty => ?_) 0 (by decide)]
  · ext1 <;> simp [greet, takeLeave, println, Output.out_join, Output.err_join, String.append_assoc]
  · -- the session goes on or breaks off, and nothing is written there
    dsimp only
    generalize answer w pretty (Request.ofLine line) = given
    obtain ⟨_ | next, o⟩ := given <;> exact Writing.mk_append_empty _ o

end Lines

end ConnectorQuery.Console
