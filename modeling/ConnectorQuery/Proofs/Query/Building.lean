import ConnectorQuery.Proofs.Query.Member
import ConnectorQuery.Proofs.Token.Writing

/-!
# The builder against the parts

A builder has one state for all parts of a statement. Between two columns or clauses this
holds no segments any more (`Builder.between`), and a clause finds the members of its keyword
as they were at the start, since no keyword comes twice (`Query.Untouched`). So what it adds
to a list there, one by one, is what it comes to by itself.

* `Builder.run_addColumn_select`, `Builder.run_apply`: one step on a column or a clause;
* `Query.ofStatement_eq`: the run over a statement.
-/

namespace ConnectorQuery

/-- Keywords are told apart by how they are spelled. -/
theorem Keyword.spelling_injective : Function.Injective spelling := fun k k' same =>
  Option.some.inj ((ofText?_spelling k).symm.trans (same ▸ ofText?_spelling k'))

/-! ## Members that no clause has laid down -/

namespace Query

/-- The members of keywords that were not seen are what they are in an empty query. -/
def Untouched (q : Query) (seen : List Keyword) : Prop :=
  ∀ m : Member, ∀ k ∉ seen, m.keyword? = some k → q.get m = ({} : Query).get m

variable {q q' : Query} {seen : List Keyword} {k : Keyword}

/-- A clause leaves the members of other keywords as they are. -/
theorem Untouched.update (h : q.Untouched seen) {u : Update} (lays : u.Lays k) :
    (u q).Untouched (k :: seen) := by
  intro m k' new hm
  obtain ⟨other, unseen⟩ := not_or.1 (mt List.mem_cons.2 new)
  rw [lays.get_of_ne fun same => other (Option.some.inj (hm.symm.trans same))]
  exact h m k' unseen hm

/-- At the start nothing has been laid down. -/
theorem untouched_opened (text : String) (st : Statement) : (opened text st).Untouched [] := by
  intro m k _ hm
  -- the members that are filled in belong to no keyword
  cases m with
  | flag f => cases f <;> rfl
  | setting s => cases s <;> rfl
  | statement | source | target | writeMode => cases hm
  | _ => rfl

/-- A column of the select list lays down no member of a keyword. -/
theorem Untouched.addColumn (h : q.Untouched seen) {c : Column} (added : q.addColumn c = .ok q') :
    q'.Untouched seen := by
  obtain ⟨f, -, added⟩ := except_bind_eq_ok.1 added
  intro m k unseen hm
  rw [← h m k unseen hm]
  split at added
  all_goals
    obtain ⟨fs, -, added⟩ := except_bind_eq_ok.1 added
    cases added
    cases m with
    | flag f => cases f <;> rfl
    | setting s => cases s <;> rfl
    | fields | keyFields | headerFields => cases hm
    | _ => rfl

end Query

namespace Builder

/-! ## Loops -/

section Loops

variable {α γ : Type} {body : α → Step Unit} {state : γ → Builder}
  {next : γ → α → Except RuleError γ}

/-- A loop whose rounds lead from state to state is a fold. -/
theorem run_forIn (round : ∀ g a, (body a).run (state g) = (next g a).map fun g => ((), state g))
    (as : List α) (g : γ) :
    (forIn as PUnit.unit fun a _ => do body a; pure (ForInStep.yield PUnit.unit)).run (state g) =
      (as.foldlM next g).map fun g => ((), state g) := by
  induction as generalizing g with
  | nil => rfl
  | cons a as ih =>
    rw [List.forIn_cons, bind_assoc, StateT.run_bind, round, List.foldlM_cons]
    cases next g a with
    | error e => rfl
    | ok g => exact ih g

theorem run_for (round : ∀ g a, (body a).run (state g) = (next g a).map fun g => ((), state g))
    (as : List α) (g : γ) : (do for a in as do body a : Step Unit).run (state g) =
      (as.foldlM next g).map fun g => ((), state g) := by
  rw [bind_pure_unit, run_forIn round]

end Loops

/-- A step that starts with a look at what is kept. -/
theorem run_get_bind {α : Type} (f : Builder → Step α) (b : Builder) :
    (get >>= f).run b = (f b).run b := rfl

/-- A step that starts with something found without a look at what is kept. -/
theorem run_liftM_bind {α β : Type} (x : Except RuleError α) (f : α → Step β) (b : Builder) :
    (liftM x >>= f).run b = x >>= fun a => (f a).run b := by
  cases x <;> rfl

/-- What is kept between two parts of a statement. -/
def between (q : Query) (seen : List Keyword) : Builder :=
  ⟨q, [], seen.map Keyword.spelling⟩

/-! ## Columns -/

section Columns

variable (c : Column) (q : Query) (seen : List Keyword)

/-- Pushing one segment after the other is adding all of them. -/
theorem foldlM_push (before segments : List String) :
    segments.foldlM (fun path s => .ok (path ++ [s])) before =
      (.ok (before ++ segments) : Except RuleError (List String)) := by
  induction segments generalizing before with
  | nil => rw [List.append_nil]; rfl
  | cons s segments ih =>
    rw [List.append_cons]
    exact ih (before ++ [s])

/-- A column is resolved by itself: the segments of the one before it are forgotten, and its
    own are taken at the end. -/
theorem run_resolve : (resolve c).run (between q seen) =
    c.resolve.map fun path => (path, between q seen) := by
  let pushing (path : List String) : Builder := { between q seen with path }
  have entered : enterColumn.run (between q seen) = pure ((), pushing []) := rfl
  have taken (path : List String) : exitColumn.run (pushing path) =
      pure (path.getLast?.map fun name => (name, path.dropLast), between q seen) := rfl
  have push (path : List String) (s : String) : (pushSegment s).run (pushing path) =
      (.ok (path ++ [s]) : Except RuleError _).map fun path => ((), pushing path) := rfl
  -- the loop pushes the segments one by one, and the name is the last of them
  have pushed : (forIn c.segments PUnit.unit fun s _ => do
      pushSegment s; pure (ForInStep.yield PUnit.unit)).run (pushing []) =
      pure ((), pushing c.segments) := by
    rw [run_forIn push, foldlM_push]
    rfl
  unfold resolve Column.resolve
  split
  · rfl
  · -- the segments are all pushed, and then taken
    simp only [StateT.run_bind, entered, pushed, taken, pure_bind]
    cases c.segments.getLast? <;> rfl

/-- A field goes to the end of its list, unless the list has the same one. -/
theorem run_pushUnique (list : FieldList) (f : Field) (span : Span) :
    (pushUnique list f span).run (between q seen) =
      (addField list (q.listed list) f span).map fun fs =>
        ((), between (Query.putListed list fs q) seen) := by
  rw [pushUnique, run_get_bind]
  dsimp only [between]
  cases addField list (q.listed list) f span <;> rfl

/-- A column of the select list is routed by its parents. -/
theorem routedField_eq : c.routedField = c.resolve.map fun (name, parents) =>
    ⟨name, c.rename.getD name, routeOf parents,
      if routeOf parents = .value then parents else parents.tail⟩ := by
  unfold Column.routedField Column.plainField
  cases c.resolve with
  | error e => rfl
  | ok path =>
    obtain ⟨name, parents⟩ := path
    refine congrArg Except.ok ?_
    cases parents with
    | nil => rfl
    | cons first parents =>
      simp only [routeOf, List.head?_cons, List.tail_cons]
      split_ifs <;> simp_all

/-- The three lists of the select list are treated alike. -/
theorem addColumn_eq : q.addColumn c = c.routedField >>= fun f =>
    (addField (.ofPart f.type) (q.listed (.ofPart f.type)) f c.span).map
      (Query.putListed (.ofPart f.type) · q) := by
  refine congrArg (c.routedField >>= ·) (funext fun f => ?_)
  obtain ⟨name, outputName, type, parents⟩ := f
  cases type with
  | value | key | header =>
    dsimp only [FieldList.ofPart, Query.listed]
    cases addField _ _ _ c.span <;> rfl

/-- A step on a column of the select list. -/
theorem run_addColumn_select : (addColumn c .select).run (between q seen) =
    (q.addColumn c).map fun q => ((), between q seen) := by
  rw [addColumn, StateT.run_bind, run_resolve, addColumn_eq, routedField_eq]
  cases c.resolve with
  | error e => rfl
  | ok path =>
    let f : Field := ⟨path.1, c.rename.getD path.1, routeOf path.2,
      if routeOf path.2 = .value then path.2 else path.2.tail⟩
    change (pushUnique (.ofPart f.type) f c.span).run (between q seen) =
      ((addField (.ofPart f.type) (q.listed (.ofPart f.type)) f c.span).map
        (Query.putListed (.ofPart f.type) · q)).map fun q => ((), between q seen)
    rw [run_pushUnique]
    cases addField (.ofPart f.type) _ f c.span <;> rfl

/-- A step on a column that is ignored. -/
theorem run_addColumn_ignore (fs : List Field) :
    (addColumn c .ignore).run (between { q with ignoredFields := fs } seen) =
      (do addField .ignoredFields fs (← c.plainField) c.span).map fun fs =>
        ((), between { q with ignoredFields := fs } seen) := by
  rw [addColumn, StateT.run_bind, run_resolve, Column.plainField]
  cases c.resolve with
  | error e => rfl
  | ok path => exact run_pushUnique ..

/-- A step on a column of the primary key. -/
theorem run_addKey (fs : List Field) :
    (addKey c).run (between { q with primaryKeys := fs } seen) =
      (do return fs ++ [← c.keyColumn]).map fun fs =>
        ((), between { q with primaryKeys := fs } seen) := by
  rw [addKey, StateT.run_bind, run_resolve, Column.keyColumn]
  cases c.resolve <;> rfl

end Columns

/-! ## Clauses -/

section Clauses

variable (q : Query) (seen : List Keyword)

/-- A step on a storage parameter. -/
theorem run_addParameter (a : Assignment) (d : Dictionary) :
    (addParameter a).run (between { q with storedAsParameters := d } seen) =
      (addStorageParameter d a).map fun d =>
        ((), between { q with storedAsParameters := d } seen) := by
  rw [addParameter, addStorageParameter, run_get_bind]
  by_cases taken : d.names.any (Text.eqIgnoringCase · a.name.val) = true
  · rw [if_pos taken]
    exact congrFun (if_pos taken) _
  · rw [if_neg taken]
    exact congrFun (if_neg taken) _

/-- A step on a property. -/
theorem run_addProperty (a : Assignment) (d : Dictionary) :
    (addProperty a).run (between { q with properties := d } seen) =
      (addPropertyEntry d a).map fun d => ((), between { q with properties := d } seen) := by
  rw [addProperty, addPropertyEntry, run_get_bind]
  by_cases taken : d.names.contains a.name.val = true
  · rw [if_pos taken]
    exact congrFun (if_pos taken) _
  · rw [if_neg taken]
    exact congrFun (if_neg taken) _

/-- Results that are added one by one are the list of all of them. -/
theorem foldlM_concat_eq {α β ε : Type} (f : α → Except ε β) (as : List α) (bs : List β) :
    as.foldlM (fun bs a => do return bs ++ [← f a]) bs = (as.mapM f).map (bs ++ ·) := by
  induction as generalizing bs with
  | nil => simp [Except.map, pure, Except.pure]
  | cons a as ih =>
    rw [List.foldlM_cons, List.mapM_cons]
    cases f a with
    | error e => rfl
    | ok b =>
      refine (ih (bs ++ [b])).trans ?_
      cases as.mapM f with
      | error e => rfl
      | ok bs' => exact congrArg Except.ok (List.append_cons bs b bs').symm

/-- A clause that adds to one member, item by item, comes to the member with all items, if it
    finds the member as it was at the start. -/
theorem run_collect {α γ : Type} {body : α → Step Unit} {start : γ}
    {next : γ → α → Except RuleError γ} (put : γ → Query) (fresh : put start = q)
    (round : ∀ g a, (body a).run (between (put g) seen) =
      (next g a).map fun g => ((), between (put g) seen)) (as : List α) :
    (do for a in as do body a : Step Unit).run (between q seen) =
      (as.foldlM next start).map fun g => ((), between (put g) seen) := by
  rw [← fresh]
  exact run_for round as start

/-- What a clause fills in, with the members of its keyword as they were at the start, is
    what it comes to by itself. -/
theorem run_fill (c : Clause) (span : Span) (start : ∀ m : Query.Member,
      m.keyword? = some c.keyword → q.get m = ({} : Query).get m) :
    (fill c.keyword.spelling span c).run (between q seen) =
      (c.update span).map fun u => ((), between (u q) seen) := by
  cases c with
  | flag f => rfl
  | setting s v =>
    rw [fill, Clause.update]
    cases s.update v <;> rfl
  | primaryKey columns =>
    have empty : q.primaryKeys = [] := start .primaryKeys rfl
    have fresh : { q with primaryKeys := [] } = q := by rw [← empty]
    refine (run_collect q seen (fun fs => { q with primaryKeys := fs }) fresh
      (fun fs c => run_addKey c q seen fs) columns).trans ?_
    rw [foldlM_concat_eq, Clause.update]
    cases columns.mapM Column.keyColumn <;> rfl
  | ignore columns =>
    have empty : q.ignoredFields = [] := start .ignoredFields rfl
    have fresh : { q with ignoredFields := [] } = q := by rw [← empty]
    refine (run_collect q seen (fun fs => { q with ignoredFields := fs }) fresh
      (fun fs c => run_addColumn_ignore c q seen fs) columns).trans ?_
    rw [Clause.update, ← ignoredFields]
    cases ignoredFields columns <;> rfl
  | partitionBy names =>
    rw [fill, Clause.update, run_liftM_bind]
    exact bind_eq_map fun _ => rfl
  | bucketing names number =>
    rw [fill, Clause.update, run_liftM_bind]
    exact bind_eq_map fun _ => rfl
  | storeAs type parameters =>
    have empty : q.storedAsParameters = .empty := start .storedAsParameters rfl
    let typed : Query := { q with storedAs := some type.val }
    have fresh : { typed with storedAsParameters := .empty } = typed := by rw [← empty]
    refine (run_collect typed seen (fun d => { typed with storedAsParameters := d }) fresh
      (fun d a => run_addParameter typed seen a d) parameters).trans ?_
    rw [Clause.update, ← storageParameters]
    cases storageParameters parameters <;> rfl
  | timestamp value call =>
    rw [fill, Clause.update, run_liftM_bind]
    refine bind_eq_map fun value => ?_
    rw [run_liftM_bind]
    exact bind_eq_map fun _ => rfl
  | tags entries =>
    rw [fill, Clause.update, run_liftM_bind]
    refine bind_eq_map fun ts => ?_
    -- an empty list of tags fills in nothing
    cases ts <;> rfl
  | withKeys keys => rfl
  | properties entries =>
    have empty : q.properties = .empty := start .properties rfl
    have fresh : { q with properties := .empty } = q := by rw [← empty]
    refine (run_collect q seen (fun d => { q with properties := d }) fresh
      (fun d a => run_addProperty q seen a d) entries).trans ?_
    rw [Clause.update, ← propertyEntries]
    cases propertyEntries entries <;> rfl

/-- A step on a clause. The keywords that were seen are told apart by how they are spelled. -/
theorem run_apply (c : Located Clause) (untouched : q.Untouched seen) :
    (apply c).run (between q seen) =
      if c.val.keyword ∈ seen then
        .error (.repeatedClause c.val.keyword.spelling c.span)
      else (c.val.update c.span).map fun u =>
        ((), between (u q) (c.val.keyword :: seen)) := by
  have spelled : c.val.keyword.spelling ∈ (between q seen).seen ↔ c.val.keyword ∈ seen :=
    List.mem_map_of_injective Keyword.spelling_injective
  rw [apply, run_get_bind]
  by_cases taken : c.val.keyword ∈ seen
  · rw [if_pos taken]
    exact congrFun (if_pos (spelled.2 taken)) _
  · rw [if_neg taken, if_neg (mt spelled.1 taken)]
    exact run_fill q (c.val.keyword :: seen) c.val c.span fun m hm =>
      untouched m _ taken hm

/-- A run over the clauses. -/
theorem run_clauses (cs : List (Located Clause)) (untouched : q.Untouched seen) :
    (·.1) <$> (do
      for c in cs do
        apply c
      return (← get).query : Step Query).run (between q seen) = q.applyClauses seen cs := by
  induction cs generalizing q seen with
  | nil => rfl
  | cons c cs ih =>
    rw [List.forIn_cons, bind_assoc, bind_assoc, StateT.run_bind, run_apply q seen c untouched,
      Query.applyClauses]
    split
    · rfl
    · cases hu : c.val.update c.span with
      | error e => rfl
      | ok u => exact ih (u q) _ (untouched.update (Clause.lays_update hu))

end Clauses

/-! ## Statements -/

/-- A run over the select list. -/
theorem run_select (text : String) (st : Statement) : (select st).run (ofText text) =
    (st.columns.foldlM Query.addColumn (.opened text st)).map fun q => ((), between q []) := by
  have named : (takeNames st).run (ofText text) = pure ((), between (.opened text st) []) := rfl
  rw [select, StateT.run_bind, named, pure_bind]
  exact run_for (fun q c => run_addColumn_select c q []) st.columns _

end Builder

/-- The builder makes of a statement what its columns and then its clauses come to. -/
theorem Query.ofStatement_eq (text : String) (st : Statement) : ofStatement text st =
    st.columns.foldlM addColumn (opened text st) >>= (·.applyClauses [] st.clauses) := by
  rw [ofStatement, Builder.build, StateT.run'_eq, StateT.run_bind, Builder.run_select]
  cases selected : st.columns.foldlM addColumn (opened text st) with
  | error e => rfl
  | ok q =>
    have untouched : q.Untouched [] := foldlM_preserves (Untouched · [])
      (fun _ _ _ h added => h.addColumn added) (untouched_opened text st) selected
    exact Builder.run_clauses q [] st.clauses untouched

end ConnectorQuery
