import ConnectorQuery.Proofs.Grammar.Lookahead
import ConnectorQuery.Proofs.Statement.Places

/-!
# Where a text is refused

A text that is no statement is refused at one of its tokens (`RefusedAt`), and that
is the first one that is wrong. What is in front of it can be completed to a
statement (`OpensStatement`), while no text that goes on with that token is one:
texts that begin with the same tokens are refused at the same token.

There is one exception. A parenthesis behind the path of a timestamp opens a call,
which must be empty, so whether the parenthesis is wrong shows at the token behind
it. A text is refused at such a parenthesis (`CallAt`) where none closes it, though
with a closing one it could still become a statement.

* `Token.index_unique`: the tokens of a text are told apart by their places;
* `exists_parse_of_completable`: what completes the tokens of a text can be written
  behind the text that they end with;
* `Statement.refused_at_first_wrong`: where a text is refused.
-/

namespace ConnectorQuery

open Grammar
open Token (tokenize scan stopOf)

/-! ## The tokens of a text are told apart by their places -/

theorem Token.index_unique {text : String} {i j : Nat} {t u : Token}
    (hi : (tokenize text)[i]? = some t) (hj : (tokenize text)[j]? = some u)
    (same : t.span = u.span) : i = j := by
  have apart := List.pairwise_iff_getElem.1 (orderly_tokenize text).pairwise
  -- a token that stands in front of another one is not empty, so it begins earlier
  have earlier {i j : Nat} (hi : i < (tokenize text).length) (hj : j < (tokenize text).length)
      (lt : i < j) : (tokenize text)[i].span.start < (tokenize text)[j].span.start := by
    obtain ⟨notEnd, -, later⟩ := apart i j hi hj lt
    exact Nat.lt_of_lt_of_le (start_lt_stop_of_mem_tokenize (List.getElem_mem hi) notEnd) later
  obtain ⟨hi', rfl⟩ := List.getElem?_eq_some_iff.1 hi
  obtain ⟨hj', rfl⟩ := List.getElem?_eq_some_iff.1 hj
  rcases Nat.lt_trichotomy i j with lt | rfl | gt
  · exact absurd (congrArg Span.start same) (Nat.ne_of_lt (earlier hi' hj' lt))
  · rfl
  · exact absurd (congrArg Span.start same).symm (Nat.ne_of_lt (earlier hj' hi' gt))

/-! ## Writing on -/

theorem Grammar.IsSequence.concat {α : Type} {p : Phrase α} {ts mid rest : List Token} {as : List α}
    {a : α} (h : IsSequence p ts as mid) (ha : p mid a rest) : IsSequence p ts (as ++ [a]) rest := by
  induction h with
  | nil => exact .cons ha .nil
  | cons first _ ih => exact .cons first (ih ha)

namespace Parser

theorem framed_isTimestampField : Framed Free IsTimestampField := by
  rintro ts field rest ⟨behind, path, opens, equals, isField⟩
  exact ((framed_isPath isField).mayOpen equals).opens opens nofun
    fun _ behind _ opens ⟨path, equals, isField⟩ => ⟨behind, path, opens, equals, isField⟩

theorem IsTimestampField.call {ts parens inside rest : List Token} {field : FieldPath}
    (h : IsTimestampField ts field parens) (opening : Opens (.mark .openParen) parens inside)
    (closing : Opens (.mark .closeParen) inside rest) :
    IsStatementClause ts (.nowhere (.timestamp field true)) rest := by
  obtain ⟨behind, path, opens, equals, isField⟩ := h
  exact ⟨rfl, .timestamp opens equals isField (.call opening closing)⟩

/-- The tokens up to the parenthesis of a call spell the beginning of a statement,
    whatever comes behind the parenthesis. -/
theorem StatementCall.exists_frame {ts : List Token} {k : Nat} (h : StatementCall ts (ts.drop k)) :
    ∃ read paren, ts.take (k + 1) = read ++ [paren] ∧ Recognised read ∧
      paren.kind = .mark .openParen ∧
      ∀ rest, ∃ opened, Then IsOpening (Then (IsSequence IsStatementClause) IsTimestampField)
        (read ++ paren :: rest) opened (paren :: rest) := by
  obtain ⟨opened, behind, ⟨select, isInto, list, hselect, origin, areColumns, text, hfrom, isSource⟩,
    cs, clause, areClauses, field, others, isField, paren, hk, hparens⟩ := h
  have clauses := (framed_isSequence framed_isStatementClause areClauses).then
    (framed_isTimestampField isField) fun _ _ _ => id
  obtain ⟨read, whole, recognised, frame⟩ :=
    (framedAt_isOpening isInto hselect areColumns hfrom isSource).then clauses fun _ _ _ => id
  -- the frame begins at the first token, so what it read is what stands before the parenthesis
  have front : ts.take k = read :=
    List.append_cancel_right ((List.take_append_drop k ts).trans whole)
  have next : ts[k]? = some paren := by
    rw [← List.head?_drop, hparens]
    rfl
  refine ⟨read, paren, ?_, recognised, hk, fun rest => ⟨_, frame 0 _ (.inl ?_)⟩⟩
  · rw [List.take_add_one, front, next]
    rfl
  · rw [hparens]
    rfl

/-- A closing parenthesis completes a call. -/
theorem StatementCall.completable {ts : List Token} {k : Nat} (h : StatementCall ts (ts.drop k)) :
    Recognised (ts.take (k + 1)) ∧ Completable Anything IsBody (ts.take (k + 1)) := by
  obtain ⟨read, paren, taken, recognised, hk, frame⟩ := h.exists_frame
  rw [taken]
  refine ⟨List.forall_mem_append.2 ⟨recognised, List.forall_mem_singleton.2 (hk ▸ nofun)⟩,
    [Part.mark .closeParen], List.forall_mem_singleton.2 (Part.fits_mark _), fun n rest _ =>
    ⟨?_, fun nothing => absurd nothing (List.append_ne_nil_of_right_ne_nil _ nofun)⟩⟩
  let close := (Part.mark .closeParen).token (stopOf n (read ++ [paren]))
  obtain ⟨_, behind, isOpening, clause, areClauses, isField⟩ := frame (close :: rest)
  have isClause := isField.call ⟨paren, hk, rfl⟩ ⟨close, rfl, rfl⟩
  rw [List.append_assoc]
  exact ⟨(_, _ ++ [.nowhere _], ()), behind, isOpening, rest, areClauses.concat isClause, .inl rfl⟩

/-- The parenthesis of a call is not the last token. -/
theorem StatementCall.drop_ne_nil {ts : List Token} {k : Nat} (ho : Orderly ts)
    (h : StatementCall ts (ts.drop k)) : ts.drop (k + 1) ≠ [] := by
  obtain ⟨_, _, _, _, _, _, _, others, _, paren, hk, hparens⟩ := h
  have orderly : Orderly (paren :: others) :=
    ho.of_suffix (hparens ▸ List.drop_suffix k ts) (List.cons_ne_nil _ _)
  rw [← List.tail_drop, hparens]
  exact (orderly.tail (hk ▸ nofun)).ne_nil

end Parser

/-- Where tokens of a text can be completed to a statement, so can the text up to
    the last of them. -/
theorem exists_parse_of_completable {text : String} {read others : List Token}
    (whole : tokenize text = read ++ others) (hne : others ≠ []) (recognised : Recognised read)
    (complete : Completable Anything Parser.IsBody read) :
    ∃ front, Text.slice? text ⟨0, stopOf 0 read⟩ = some front ∧
      ∃ w st, Statement.parse (front ++ w) = .ok st := by
  obtain ⟨ps, hps, complete⟩ := complete
  -- the end of the text is not among the tokens that were read
  have scanned : scan 0 text.toList = read ++ others.dropLast := by
    rw [← List.dropLast_append_of_ne_nil hne, ← whole, tokenize, List.dropLast_concat]
  obtain ⟨front, behind, cut, hread, hstop⟩ := Token.exists_cut 0 text.toList read scanned
  rw [Nat.zero_add] at hstop
  refine ⟨String.ofList front, ?_, String.ofList (Part.behind ps), ?_⟩
  · rw [Text.slice?_eq_some_iff]
    refine ⟨[], behind, ?_, ?_⟩
    · rw [String.toList_ofList, List.nil_append, cut]
    · rw [String.toList_ofList, List.nil_append, hstop]
      rfl
  have tokens : tokenize (String.ofList front ++ String.ofList (Part.behind ps)) =
      read ++ (Part.tokens (stopOf 0 read) ps ++
        [.endAt (Text.width (front ++ Part.behind ps))]) := by
    rw [tokenize, String.toList_append, String.toList_ofList, String.toList_ofList,
      Token.scan_append 0 front (hread.symm ▸ recognised) (Part.endsWord_behind hps), hread,
      Nat.zero_add, hstop, Part.scan_behind _ (fun p hp => (hps p hp).isLexeme)
        (fun p hp => hps p (List.mem_of_mem_tail hp)), List.append_assoc]
  have spelled :=
    (complete 0 _ (free_endAt _ (Text.width (front ++ Part.behind ps)))).1
  rw [← tokens] at spelled
  obtain ⟨st, isStatement⟩ := Parser.isStatement_of_isBody spelled ⟨_, rfl, rfl⟩
  exact (Statement.parse_iff_isStatement _).1.2 ⟨st, isStatement⟩

namespace Statement

theorem parse_eq_error_iff {text : String} {f : Failure} : parse text = .error f ↔
    ∃ e, ofTokens? (Text.width text.toList) (tokenize text) = some (.error e) ∧
      f = Failure.ofGrammar text e := by
  obtain ⟨r, hr, hparse⟩ := exists_ofTokens? text
  rw [hparse, hr, mapError_eq_error]
  simp only [Option.some.injEq, eq_comm]

/-- Reading the text fails with a syntax error at its token `k`. -/
def RefusedAt (text : String) (k : Nat) : Prop :=
  ∃ position cause t, parse text = .error (.grammar position cause) ∧
    (tokenize text)[k]? = some t ∧ cause.span = t.span

/-- Something can be written behind the first `k` tokens of the text that makes a
    statement of it. -/
def OpensStatement (text : String) (k : Nat) : Prop :=
  ∃ front, Text.slice? text ⟨0, stopOf 0 ((tokenize text).take k)⟩ = some front ∧
    ∃ w st, parse (front ++ w) = .ok st

/-- The token `k` of the text is a parenthesis right behind the path of a
    timestamp. -/
def CallAt (text : String) (k : Nat) : Prop :=
  Parser.StatementCall (tokenize text) ((tokenize text).drop k)

/-- A text that is no statement is refused at one of its tokens. What is in front
    of that one opens a statement, and texts that begin with the same tokens are
    refused there too, unless it is a parenthesis behind the path of a timestamp,
    which still opens a statement. -/
theorem refused_at_first_wrong {text : String} {f : Failure} (h : parse text = .error f) :
    ∃ k, (∀ i, RefusedAt text i ↔ i = k) ∧ OpensStatement text k ∧
      (∀ text', Agree (k + 1) (tokenize text) (tokenize text') →
        RefusedAt text' k ∨ CallAt text k) ∧
      (CallAt text k → OpensStatement text (k + 1)) := by
  obtain ⟨e, herr, rfl⟩ := parse_eq_error_iff.1 h
  have ho := Token.orderly_tokenize text
  obtain ⟨read, t, rest, whole, span, recognised, complete⟩ :=
    Parser.recoversAt_ofTokens? ho herr
  rw [Cursor.tokens_ofTokens ho] at whole
  -- the refused token is the one behind what was recognised
  have here : (tokenize text)[read.length]? = some t := by
    rw [whole, List.getElem?_append_right (Nat.le_refl _), Nat.sub_self]
    rfl
  have front : (tokenize text).take read.length = read := by
    rw [whole, List.take_left]
  refine ⟨read.length, fun i => ⟨?_, ?_⟩, ?_, fun text' agree => ?_, fun call => ?_⟩
  · rintro ⟨_, _, u, herr', hu, span'⟩
    cases h.symm.trans herr'
    exact Token.index_unique hu here (span'.symm.trans span)
  · rintro rfl
    exact ⟨_, e, t, h, here, span⟩
  · rw [OpensStatement, front]
    exact exists_parse_of_completable whole (List.cons_ne_nil _ _) recognised complete
  · -- the other text is refused where this one is, unless the parenthesis comes between
    obtain ⟨i, u, hu, span', same⟩ := refuses_of_agree herr (Nat.succ_pos _) ho
      (Token.orderly_tokenize text') agree
    obtain rfl : i = read.length := Token.index_unique hu here (span'.symm.trans span)
    refine (same (Nat.lt_succ_self _)).symm.imp ?_ id
    rintro ⟨v, e', hv, span'', herr'⟩
    exact ⟨_, e', v, parse_eq_error_iff.2 ⟨e', herr', rfl⟩, hv, span''⟩
  · obtain ⟨recognised, complete⟩ := call.completable
    exact exists_parse_of_completable (List.take_append_drop _ _).symm (call.drop_ne_nil ho)
      recognised complete

theorem refused_at_first_wrong_paren :
    RefusedAt "SELECT a FROM b WITHTIMESTAMP c (" 6 ∧
      OpensStatement "SELECT a FROM b WITHTIMESTAMP c (" 6 := by
  have failed : parse "SELECT a FROM b WITHTIMESTAMP c (" = .error (.grammar ⟨1, 33⟩
      (.unexpectedToken "a clause keyword" "'('" ⟨32, 33⟩)) := by decide +kernel
  have here : (tokenize "SELECT a FROM b WITHTIMESTAMP c (")[6]? =
      some ⟨.mark .openParen, "(", ⟨32, 33⟩⟩ := by decide +kernel
  have refused : RefusedAt "SELECT a FROM b WITHTIMESTAMP c (" 6 := ⟨_, _, _, failed, here, rfl⟩
  obtain ⟨k, unique, opens, -⟩ := refused_at_first_wrong failed
  obtain rfl := (unique 6).1 refused
  exact ⟨refused, opens⟩

example : (parse "SELECT a FROM b WITHTIMESTAMP c ()").isOk = true := by decide +kernel

end Statement

end ConnectorQuery
