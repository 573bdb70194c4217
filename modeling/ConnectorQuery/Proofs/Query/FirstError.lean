import ConnectorQuery.Proofs.Query.Columns
import ConnectorQuery.Proofs.Query.Places
import ConnectorQuery.Proofs.Statement.Nesting

/-!
# The first item that breaks a rule

The columns and the clauses of a statement are its *items*. A statement is resolved item
by item, so the resolution is one fold over its items (`Query.ofStatement_eq_foldlM`), and
a fold that fails does so at one step: with the items in front of it there is an answer,
and with the item itself the complaint is the same whatever comes behind
(`exists_failsAt`). The item is told from the others by this (`FailsAt.unique`).

A clause breaks a rule by its keyword before its content is looked at. The fold knows the
keywords that it has seen, none of them twice, so a clause that repeats one is the second
with it.

* `Statement.upTo`: a statement that breaks off behind some items;
* `Query.fails_at_first_item`: where a statement that is read from a text breaks a rule.
-/

namespace ConnectorQuery

open Spanned (spans)

/-! ## Folds that fail -/

section Folds

variable {α β ε : Type} {step : β → α → Except ε β} {as : List α} {b b' : β} {a : α} {e : ε}
  {i j : Nat}

/-- A run over two lists is one over the first and then one over the second. -/
theorem foldlM_append_eq_ok {xs ys : List α} : (xs ++ ys).foldlM step b = .ok b' ↔
    ∃ b₁, xs.foldlM step b = .ok b₁ ∧ ys.foldlM step b₁ = .ok b' := by
  rw [List.foldlM_append, except_bind_eq_ok]

/-- The fold gets to the item at the index `i` and fails there. -/
def FailsAt (step : β → α → Except ε β) (b : β) (as : List α) (e : ε) (i : Nat) : Prop :=
  ∃ b' a, (as.take i).foldlM step b = .ok b' ∧ as[i]? = some a ∧ step b' a = .error e

/-- A fold that fails does so at one of the items. -/
theorem exists_failsAt (h : as.foldlM step b = .error e) : ∃ i, FailsAt step b as e i := by
  induction as generalizing b with
  | nil => cases h
  | cons a as ih =>
    rw [List.foldlM_cons] at h
    rcases except_bind_eq_error.1 h with failed | ⟨b₁, h₁, failed⟩
    · exact ⟨0, b, a, rfl, rfl, failed⟩
    · obtain ⟨i, b', a', front, item, fails⟩ := ih failed
      refine ⟨i + 1, b', a', ?_, item, fails⟩
      rw [List.take_succ_cons, List.foldlM_cons, h₁]
      exact front

/-- What is behind the item does not matter. -/
theorem FailsAt.foldlM_take (h : FailsAt step b as e i) (hj : i < j) :
    (as.take j).foldlM step b = .error e := by
  obtain ⟨b', a, front, item, fails⟩ := h
  obtain ⟨k, rfl⟩ := Nat.exists_eq_add_of_lt hj
  obtain ⟨hi, rfl⟩ := List.getElem?_eq_some_iff.1 item
  rw [Nat.add_assoc, List.take_add, List.drop_eq_getElem_cons hi, List.take_succ_cons,
    List.foldlM_append, front]
  exact except_bind_eq_error.2 (.inr ⟨b', rfl, except_bind_eq_error.2 (.inl fails)⟩)

/-- There is no other index up to which the fold gets and then fails. -/
theorem FailsAt.unique (h : FailsAt step b as e i) (ok : (as.take j).foldlM step b = .ok b')
    {e' : ε} (error : (as.take (j + 1)).foldlM step b = .error e') : j = i := by
  rcases Nat.lt_trichotomy j i with less | same | greater
  · -- the items up to `i` are those up to `j`, the one there, and others
    obtain ⟨b₁, -, front, -, -⟩ := h
    rw [← List.take_append_drop (j + 1) (as.take i), List.take_take, Nat.min_eq_left less] at front
    obtain ⟨_, inFront, -⟩ := foldlM_append_eq_ok.1 front
    exact nomatch inFront.symm.trans error
  · exact same
  · exact nomatch ok.symm.trans (h.foldlM_take greater)

end Folds

/-! ## Items -/

/-- A column or a clause of a statement. -/
inductive Item
  | column (c : Column)
  | clause (c : Located Clause)

namespace Item

/-- The span of an item. -/
def span : Item → Span
  | column c => c.span
  | clause c => c.span

/-- The keyword of a clause. -/
def keyword? : Item → Option Keyword
  | column _ => none
  | clause c => some c.val.keyword

/-- What an item does to a query, behind clauses with the keywords `seen`. -/
def apply (s : Query × List Keyword) : Item → Except RuleError (Query × List Keyword)
  | column c => do return (← s.1.addColumn c, s.2)
  | clause c =>
    let k := c.val.keyword
    if k ∈ s.2 then .error (.repeatedClause k.spelling c.span)
    else do
      let update ← c.val.update c.span
      return (update s.1, k :: s.2)

/-- A clause with a keyword that was seen is refused, whatever it says. -/
theorem apply_clause_of_mem {s : Query × List Keyword} {c : Located Clause}
    (h : c.val.keyword ∈ s.2) :
    apply s (clause c) = .error (.repeatedClause c.val.keyword.spelling c.span) :=
  if_pos h

/-- An item complains about a place of its own. -/
theorem pointsInto_apply (s : Query × List Keyword) (item : Item) :
    PointsInto (match item with
      | column c => [c.span]
      | clause c => c.span :: spans c.val) (apply s item) := by
  cases item with
  | column c => exact (s.1.pointsInto_addColumn c).bind fun _ _ => pointsInto_ok _
  | clause c =>
    rw [apply]
    dsimp only
    split
    · exact pointsInto_error List.mem_cons_self rfl
    · exact (c.val.pointsInto_update c.span).bind fun _ _ => pointsInto_ok _

end Item

namespace Statement

/-- The columns and the clauses of a statement, in order. -/
def items (st : Statement) : List Item :=
  st.columns.map .column ++ st.clauses.map .clause

/-- The statement up to the item with the index `n`. -/
def upTo (st : Statement) (n : Nat) : Statement :=
  { st with
    columns := st.columns.take n
    clauses := st.clauses.take (n - st.columns.length) }

/-- The statement up to an item has just the items before it. -/
theorem items_upTo (st : Statement) (n : Nat) : (st.upTo n).items = st.items.take n := by
  simp only [items, upTo, List.take_append, List.map_take, List.length_map]

theorem filterMap_keyword?_items (st : Statement) :
    st.items.filterMap Item.keyword? = st.clauses.map fun c => c.val.keyword := by
  have none : (st.columns.map Item.column).filterMap Item.keyword? = [] := by
    simp [Item.keyword?]
  rw [items, List.filterMap_append, none, List.filterMap_map, List.nil_append]
  exact congrFun List.filterMap_eq_map st.clauses

end Statement

namespace Query

variable {text : String} {st : Statement} {e : RuleError}

/-- Columns do not touch the keywords that were seen. -/
theorem foldlM_column (cs : List Column) (q : Query) (seen : List Keyword) :
    (cs.map Item.column).foldlM Item.apply (q, seen) =
      (cs.foldlM addColumn q).map fun q => (q, seen) := by
  induction cs generalizing q with
  | nil => rfl
  | cons c cs ih =>
    rw [List.map_cons, List.foldlM_cons, List.foldlM_cons, Item.apply]
    cases q.addColumn c with
    | error e => rfl
    | ok q' => exact ih q'

/-- Clauses as items are applied as clauses are. -/
theorem foldlM_clause (cs : List (Located Clause)) (q : Query) (seen : List Keyword) :
    ((cs.map Item.clause).foldlM Item.apply (q, seen)).map (·.1) = q.applyClauses seen cs := by
  induction cs generalizing q seen with
  | nil => rfl
  | cons c cs ih =>
    rw [List.map_cons, List.foldlM_cons, applyClauses, Item.apply]
    dsimp only
    split
    · rfl
    · cases c.val.update c.span with
      | error e => rfl
      | ok u => exact ih (u q) (c.val.keyword :: seen)

/-- A statement is resolved item by item. -/
theorem ofStatement_eq_foldlM (text : String) (st : Statement) :
    ofStatement text st = (st.items.foldlM Item.apply (opened text st, [])).map (·.1) := by
  rw [ofStatement_eq, Statement.items, List.foldlM_append, foldlM_column]
  cases st.columns.foldlM addColumn (opened text st) with
  | error e => rfl
  | ok q => exact (foldlM_clause st.clauses q []).symm

/-- Building the statement up to an item is running over the items before it. -/
theorem ofStatement_upTo (text : String) (st : Statement) (n : Nat) : ofStatement text (st.upTo n) =
    ((st.items.take n).foldlM Item.apply (opened text st, [])).map (·.1) := by
  rw [ofStatement_eq_foldlM, Statement.items_upTo]
  rfl

/-- The fold knows the keywords of the clauses in front, none of which repeats another. -/
theorem seen_of_foldlM {items : List Item} {q : Query} {s : Query × List Keyword}
    (h : items.foldlM Item.apply (q, []) = .ok s) :
    s.2 = (items.filterMap Item.keyword?).reverse ∧ (items.filterMap Item.keyword?).Nodup := by
  -- along the run the keywords seen are those of the clauses so far, the last one first
  refine foldlM_follows (fun before (s : Query × List Keyword) =>
    s.2 = (before.filterMap Item.keyword?).reverse ∧ (before.filterMap Item.keyword?).Nodup)
    ?_ [] ⟨rfl, .nil⟩ h
  rintro before s (c | c) s' ⟨seen, nodup⟩ applied
  · obtain ⟨_, -, h⟩ := except_bind_eq_ok.1 applied
    cases h
    have keyword : [Item.column c].filterMap Item.keyword? = [] := rfl
    rw [List.filterMap_append, keyword, List.append_nil]
    exact ⟨seen, nodup⟩
  · rw [Item.apply] at applied
    split at applied
    · cases applied
    rename_i new
    obtain ⟨_, -, h⟩ := except_bind_eq_ok.1 applied
    cases h
    have keyword : [Item.clause c].filterMap Item.keyword? = [c.val.keyword] := rfl
    rw [seen, List.mem_reverse] at new
    rw [List.filterMap_append, keyword, List.reverse_append, seen]
    exact ⟨rfl, List.concat_eq_append ▸ nodup.concat new⟩

/-- The places that an item complains about lie in its span. -/
theorem within_of_apply_eq_error (parsed : Statement.parse text = .ok st) {item : Item}
    (mem : item ∈ st.items) {s : Query × List Keyword} (h : item.apply s = .error e) :
    ∃ place, e.span? = some place ∧ place.Within item.span := by
  have own : item.span.Within item.span := ⟨Nat.le_refl _, Nat.le_refl _⟩
  obtain ⟨place, hplace, span⟩ := Item.pointsInto_apply s item e h
  refine ⟨place, span, ?_⟩
  rcases List.mem_append.1 mem with column | clause
  · obtain ⟨c, -, rfl⟩ := List.mem_map.1 column
    rw [List.mem_singleton.1 hplace]
    exact own
  · obtain ⟨c, hc, rfl⟩ := List.mem_map.1 clause
    rcases List.mem_cons.1 hplace with rfl | inside
    · exact own
    · exact Statement.within_of_clause parsed hc place inside

/-- The statement breaks the rule `e` by the item with the index `n`: the items in front of
    it can be resolved, with the item the complaint is `e`, and the place of the complaint
    lies in the item. -/
structure BreaksAt (text : String) (st : Statement) (e : RuleError) (n : Nat) (item : Item) :
    Prop where
  getElem? : st.items[n]? = some item
  before : ∃ q, ofStatement text (st.upTo n) = .ok q
  behind : ofStatement text (st.upTo (n + 1)) = .error e
  place : ∃ s, e.span? = some s ∧ s.Within item.span

/-- Where the run over the items fails, the statement breaks. -/
theorem breaksAt_of_failsAt (parsed : Statement.parse text = .ok st) {n : Nat} {item : Item}
    (h : FailsAt Item.apply (opened text st, []) st.items e n) (found : st.items[n]? = some item) :
    BreaksAt text st e n item := by
  have behind := h.foldlM_take (Nat.lt_succ_self n)
  obtain ⟨s, a, front, found', fails⟩ := h
  obtain rfl := Option.some.inj (found.symm.trans found')
  refine ⟨found, ⟨s.1, ?_⟩, ?_, within_of_apply_eq_error parsed (List.mem_of_getElem? found) fails⟩
  · rw [ofStatement_upTo, front]
    rfl
  · rw [ofStatement_upTo, behind]
    rfl

/-- A statement breaks at one item. -/
theorem BreaksAt.unique {n m : Nat} {item : Item} (h : BreaksAt text st e n item)
    (fails : FailsAt Item.apply (opened text st, []) st.items e m) : n = m := by
  obtain ⟨q, before⟩ := h.before
  have behind := h.behind
  rw [ofStatement_upTo] at before behind
  obtain ⟨s, front, -⟩ := map_eq_ok.1 before
  exact fails.unique front (map_eq_error.1 behind)

/-- A statement that is read from a text and breaks a rule breaks it by one item. A clause
    that repeats a keyword, behind items that can be resolved, is this item: it is the
    second with the keyword, and the complaint is about this, whatever else the clause
    says. -/
theorem fails_at_first_item (parsed : Statement.parse text = .ok st)
    (h : ofStatement text st = .error e) :
    (∃! n, ∃ item, BreaksAt text st e n item) ∧
    ∀ n c, st.items[n]? = some (.clause c) →
      (∃ q, ofStatement text (st.upTo n) = .ok q) →
      c.val.keyword ∈ (st.upTo n).clauses.map (fun c => c.val.keyword) →
      BreaksAt text st e n (.clause c) ∧
      e = .repeatedClause c.val.keyword.spelling c.span ∧
      ((st.upTo n).clauses.map fun c => c.val.keyword).count c.val.keyword = 1 := by
  rw [ofStatement_eq_foldlM, map_eq_error] at h
  refine ⟨?_, fun n c found before repeated => ?_⟩
  · obtain ⟨n, fails⟩ := exists_failsAt h
    have found : ∃ item, st.items[n]? = some item := by
      obtain ⟨-, item, -, found, -⟩ := fails
      exact ⟨item, found⟩
    obtain ⟨item, found⟩ := found
    refine ⟨n, ⟨item, breaksAt_of_failsAt parsed fails found⟩, ?_⟩
    rintro m ⟨item', breaks⟩
    exact breaks.unique fails
  · obtain ⟨q, before⟩ := before
    rw [ofStatement_upTo] at before
    obtain ⟨s, front, -⟩ := map_eq_ok.1 before
    obtain ⟨seen, nodup⟩ := seen_of_foldlM front
    rw [← Statement.filterMap_keyword?_items, Statement.items_upTo] at repeated ⊢
    -- the fold comes to the clause and finds its keyword among those that it has seen
    have inSeen : c.val.keyword ∈ s.2 := seen ▸ List.mem_reverse.2 repeated
    have fails : FailsAt Item.apply (opened text st, []) st.items
        (.repeatedClause c.val.keyword.spelling c.span) n :=
      ⟨s, .clause c, front, found, Item.apply_clause_of_mem inSeen⟩
    obtain ⟨inside, -⟩ := List.getElem?_eq_some_iff.1 found
    have error := fails.foldlM_take inside
    rw [List.take_length] at error
    obtain rfl := Except.error.inj (h.symm.trans error)
    exact ⟨breaksAt_of_failsAt parsed fails found, rfl, List.count_eq_one_of_mem nodup repeated⟩

end Query

/-- A statement with two limits, the second of which is no number. -/
def Statement.limitedTwice : Statement where
  verb := none
  target := none
  columns := [⟨["*"], false, none, ⟨7, 8⟩⟩]
  source := ⟨"s", ⟨14, 15⟩⟩
  clauses := [⟨.setting .limit ⟨"1", ⟨22, 23⟩⟩, ⟨16, 23⟩⟩,
    ⟨.setting .limit ⟨"x", ⟨30, 31⟩⟩, ⟨24, 31⟩⟩]
  span := ⟨0, 31⟩

theorem Query.fails_at_first_item_limit :
    let text := "SELECT * FROM s LIMIT 1 LIMIT x"
    let e := RuleError.repeatedClause "LIMIT" ⟨24, 31⟩
    Statement.parse text = .ok .limitedTwice ∧ Query.ofStatement text .limitedTwice = .error e ∧
      (∃! n, ∃ item, BreaksAt text .limitedTwice e n item) ∧
      BreaksAt text .limitedTwice e 2
        (.clause ⟨.setting .limit ⟨"x", ⟨30, 31⟩⟩, ⟨24, 31⟩⟩) := by
  intro text e
  have parsed : Statement.parse text = .ok .limitedTwice := by decide +kernel
  have fails : Query.ofStatement text .limitedTwice = .error e := by decide +kernel
  obtain ⟨unique, repeated⟩ := fails_at_first_item parsed fails
  have before : ∃ q, Query.ofStatement text (Statement.limitedTwice.upTo 2) = .ok q :=
    exists_of_isOk (by decide +kernel)
  exact ⟨parsed, fails, unique, (repeated 2 _ rfl before (by decide)).1⟩

end ConnectorQuery
