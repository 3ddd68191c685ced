import QueryMachine.Proofs.Database.Filtered
import QueryMachine.Proofs.Query.Distinct
import QueryMachine.Proofs.Query.WholeTable

/-!
# One filter in three statements

A SELECT, an UPDATE and a DELETE of a table resolve the same filter. UPDATE and DELETE see the table under
its own name. SELECT sees it under the name that the statement gives it, which may differ in the case of its
letters. Qualifiers are compared exactly, so a name qualified by one of the two is found by the one statement
and not by the others. Where no such name comes first, the three agree, and what a DELETE deletes is what the
SELECT gives.

* `Table.readsAlike` — no name qualified by one of the two comes first.
* `Database.filters_agree` — the three statements.
* `Database.filters_agree_qualified` — a filter on which they differ.
-/

namespace QueryMachine

open Machine Emit

/-! ## References, one after the other -/

namespace Expr

variable {ε ρ τ : Type} {f g : ρ → Except ε τ}

/-- Why a reference is not replaced. -/
def failure? (f : ρ → Except ε τ) (r : ρ) : Option ε :=
  match f r with
  | .ok _ => none
  | .error x => some x

theorem failure?_ok {r : ρ} {s : τ} (h : f r = .ok s) : failure? f r = none := by rw [failure?, h]

theorem failure?_error {r : ρ} {x : ε} (h : f r = .error x) : failure? f r = some x := by rw [failure?, h]

/-- An expression fails to be traversed as the first of its references that fails. -/
theorem traverse_error_iff {x : ε} : ∀ {e : Expr ρ}, e.containsAggregate = false →
    (e.traverse f = .error x ↔ e.refs.findSome? (failure? f) = some x)
  | .ref r, _ => by
    cases hr : f r <;> simp [traverse, refs, failure?, hr]
  | .lit _, _ => by simp [traverse, refs]
  | .aggregate _ _, h => by cases h
  | .binary _ left right, h => by
    obtain ⟨hl, hr⟩ := Bool.or_eq_false_iff.mp h
    rw [refs, List.findSome?_append, Option.or_eq_some_iff, ← traverse_error_iff hl, ← traverse_error_iff hr, traverse]
    cases hleft : left.traverse f with
    | error y => simp [(traverse_error_iff hl).mp hleft]
    | ok left' =>
      have hnone : left.refs.findSome? (failure? f) = none := by
        refine Option.eq_none_iff_forall_ne_some.mpr fun y hy => ?_
        cases ((traverse_error_iff hl).mpr hy).symm.trans hleft
      cases hright : right.traverse f <;> simp [hnone]

theorem traverse_congr : ∀ {e : Expr ρ}, e.containsAggregate = false → (∀ r ∈ e.refs, f r = g r) →
    e.traverse f = e.traverse g
  | .ref r, _, h => by rw [traverse, traverse, h r (List.mem_singleton_self r)]
  | .lit _, _, _ => rfl
  | .aggregate _ _, h, _ => by cases h
  | .binary _ left right, h, hsame => by
    obtain ⟨hl, hr⟩ := Bool.or_eq_false_iff.mp h
    rw [traverse, traverse, traverse_congr hl fun r hr => hsame r (List.mem_append_left _ hr),
      traverse_congr hr fun r hr => hsame r (List.mem_append_right _ hr)]

/-- Two traversals agree if their first failures do. -/
theorem traverse_eq_iff {e : Expr ρ} (hplain : e.containsAggregate = false)
    (hsame : ∀ r s t, f r = .ok s → g r = .ok t → s = t) :
    e.traverse f = e.traverse g ↔ e.refs.findSome? (failure? f) = e.refs.findSome? (failure? g) := by
  constructor
  · intro heq
    refine Option.ext fun x => ?_
    rw [← traverse_error_iff hplain, ← traverse_error_iff hplain, heq]
  · intro heq
    cases hfirst : e.refs.findSome? (failure? f) with
    | some x =>
      rw [(traverse_error_iff hplain).mpr hfirst, (traverse_error_iff hplain).mpr (heq ▸ hfirst)]
    | none =>
      refine traverse_congr hplain fun r hr => ?_
      have hf := List.findSome?_eq_none_iff.mp hfirst r hr
      have hg := List.findSome?_eq_none_iff.mp (heq ▸ hfirst) r hr
      cases hfr : f r with
      | error => simp [failure?, hfr] at hf
      | ok s =>
        cases hgr : g r with
        | error => simp [failure?, hgr] at hg
        | ok t => rw [hsame r s t hfr hgr]

theorem traverse_unique {e : Expr ρ} {a b : Expr τ} (hplain : e.containsAggregate = false)
    (hsame : ∀ r s t, f r = .ok s → g r = .ok t → s = t) (ha : e.traverse f = .ok a) (hb : e.traverse g = .ok b) :
    a = b := by
  have hnone : ∀ {h : ρ → Except ε τ} {c}, e.traverse h = .ok c → e.refs.findSome? (failure? h) = none := by
    intro h c hc
    refine Option.eq_none_iff_forall_ne_some.mpr fun x hx => ?_
    cases ((traverse_error_iff hplain).mpr hx).symm.trans hc
  have heq := (traverse_eq_iff hplain hsame).mpr ((hnone ha).trans (hnone hb).symm)
  exact Except.ok.inj ((ha.symm.trans heq).trans hb)

end Expr

/-! ## A table under two names -/

/-- The name is qualified by one of two names. -/
def Name.qualifiedBy (m n : String) : Name → Bool
  | .column (some qualifier) _ => qualifier == m || qualifier == n
  | _ => false

namespace Table

/-- Whether a filter is resolved alike under `n` and under the name of the table: these are one name, or the
first name in the filter that is not found or is qualified by one of them is not qualified by one of them. -/
def readsAlike (table : Table) (n : String) (w : Term) : Bool :=
  n == table.name ||
    (w.refs.find? fun r => r.qualifiedBy n table.name || !((Scope.single table 0).resolveName r).toBool).all
      fun r => !r.qualifiedBy n table.name

variable {table : Table} {n : String}

theorem resolveName_eq {r : Name} (h : r.qualifiedBy n table.name = false) :
    Scope.resolveName [⟨table, n, 0⟩] r = (Scope.single table 0).resolveName r := by
  match r with
  | .place _ | .column none _ => rfl
  | .column (some qualifier) _ =>
    obtain ⟨hn, htable⟩ := Bool.or_eq_false_iff.mp h
    simp [Scope.resolveName, Scope.find?, Scope.single, BEq.comm (a := n), hn, BEq.comm (a := table.name), htable]

/-- A scope of one table has that table. -/
theorem resolveName_ne_noSuchTable {m : String} (r : Name) :
    Scope.resolveName [⟨table, m, 0⟩] r ≠ .error (.noSuchTable m) := by
  rcases r with ⟨_ | qualifier, name⟩ | p
  · rw [Scope.resolveName]
    split <;> simp
  · rw [Scope.resolveName]
    split
    · rename_i hnone
      intro heq
      cases heq
      simp [Scope.find?] at hnone
    · split <;> simp
  · simp [Scope.resolveName]

theorem findSome?_ne_noSuchTable {m : String} (rs : List Name) :
    rs.findSome? (Expr.failure? (Scope.resolveName [⟨table, m, 0⟩])) ≠ some (.noSuchTable m) := by
  intro hfirst
  obtain ⟨r, -, hr⟩ := List.exists_of_findSome?_eq_some hfirst
  unfold Expr.failure? at hr
  split at hr
  · cases hr
  · rename_i hresolve
    cases hr
    exact resolveName_ne_noSuchTable r hresolve

/-- The first failures under two names are the same unless a name qualified by one of them comes first. -/
theorem findSome?_eq_iff (hne : n ≠ table.name) (rs : List Name) :
    rs.findSome? (Expr.failure? (Scope.resolveName [⟨table, n, 0⟩])) =
        rs.findSome? (Expr.failure? (Scope.single table 0).resolveName) ↔
      (rs.find? fun r => r.qualifiedBy n table.name || !((Scope.single table 0).resolveName r).toBool).all
        (fun r => !r.qualifiedBy n table.name) = true := by
  induction rs with
  | nil => simp
  | cons r rs ih =>
    cases hq : r.qualifiedBy n table.name with
    | true =>
      simp only [List.find?_cons, hq, Bool.true_or, Option.all_some, Bool.not_true, Bool.false_eq_true, iff_false]
      match r with
      | .place _ | .column none _ => cases hq
      | .column (some qualifier) name =>
        intro heq
        rcases Bool.or_eq_true_iff.mp hq with h | h
        · obtain rfl := eq_of_beq h
          refine findSome?_ne_noSuchTable _ (heq.trans ?_)
          rw [List.findSome?_cons, Expr.failure?_error (x := .noSuchTable qualifier)]
          simp [Scope.resolveName, Scope.find?, Scope.single, hne.symm]
        · obtain rfl := eq_of_beq h
          refine findSome?_ne_noSuchTable _ (heq.symm.trans ?_)
          rw [List.findSome?_cons, Expr.failure?_error (x := .noSuchTable table.name)]
          simp [Scope.resolveName, Scope.find?, hne]
    | false =>
      have hsame := resolveName_eq hq
      simp only [List.find?_cons, hq, Bool.false_or]
      cases hr : (Scope.single table 0).resolveName r with
      | error x =>
        rw [List.findSome?_cons, List.findSome?_cons, Expr.failure?_error hr, Expr.failure?_error (hsame.trans hr)]
        simp [Except.toBool, hq]
      | ok p =>
        rw [List.findSome?_cons, List.findSome?_cons, Expr.failure?_ok hr, Expr.failure?_ok (hsame.trans hr)]
        simpa [Except.toBool] using ih

/-- A name that is found under both names is found at one place. -/
theorem resolveName_unique {r : Name} {p q : Place} (hp : Scope.resolveName [⟨table, n, 0⟩] r = .ok p)
    (hq : (Scope.single table 0).resolveName r = .ok q) : p = q := by
  by_cases hne : n = table.name
  · subst hne
    exact Except.ok.inj (hp.symm.trans hq)
  · cases hby : r.qualifiedBy n table.name with
    | false => exact Except.ok.inj ((hp.symm.trans (resolveName_eq hby)).trans hq)
    | true =>
      match r with
      | .place _ | .column none _ => cases hby
      | .column (some qualifier) name =>
        rcases Bool.or_eq_true_iff.mp hby with h | h
        · obtain rfl := eq_of_beq h
          simp [Scope.resolveName, Scope.find?, Scope.single, Ne.symm hne] at hq
        · obtain rfl := eq_of_beq h
          simp [Scope.resolveName, Scope.find?, hne] at hp

/-- **A filter without aggregates is resolved alike under two names exactly if it reads alike.** -/
theorem resolve_eq_iff {w : Term} (hplain : w.containsAggregate = false) :
    Scope.resolve [⟨table, n, 0⟩] w = (Scope.single table 0).resolve w ↔ table.readsAlike n w = true := by
  by_cases hne : n = table.name
  · subst hne
    simp [readsAlike, Scope.single]
  · rw [readsAlike, Bool.or_eq_true_iff, Scope.resolve, Scope.resolve,
      Expr.traverse_eq_iff hplain fun _ _ _ => resolveName_unique, findSome?_eq_iff hne]
    simp [hne]

end Table

/-- Where no aggregate is called, none is refused. -/
theorem Scope.resolvePlain?_of_plain {scope : Scope} {w : Term} (h : w.containsAggregate = false) :
    scope.resolvePlain? (some w) = (scope.resolve w).map some := by
  unfold resolvePlain? resolvePlain rejectAggregates
  cases hw : scope.resolve w with
  | error =>
    simp only [hw]
    rfl
  | ok e =>
    rw [← Expr.containsAggregate_of_traverse hw] at h
    simp only [hw, Expr.firstAggregate?_eq_none.mpr h]
    rfl

/-! ## The three statements -/

/-- All columns of the rows of a table that pass a filter. -/
def Query.filtered (name : String) (w : Term) : Query :=
  ⟨⟨false, [.star], [⟨name, none⟩], some w, [], none⟩, [], [], none⟩

/-- The plan of all columns of the rows that pass a filter. -/
def Table.filteredPlan (table : Table) (n : String) (f : Resolved) : Plan :=
  { table.wholePlan n with filter := some f }

/-- The rows of a table that pass a filter. -/
def Deletion.filtered (name : String) (w : Term) : Deletion := ⟨name, some w, none⟩

section Statements

variable {schema : Schema} {n : String} {table : Table} {w : Term}

theorem Scope.ranging_filtered (hlookup : schema.lookup n = .ok table) :
    Scope.ranging schema 0 (Query.filtered n w).first.tables = .ok [⟨table, n, 0⟩] := by
  simp [Query.filtered, Scope.ranging, hlookup, bind, Except.bind, pure, Except.pure, TableRef.visibleName]

theorem Schema.plan_filtered (hlookup : schema.lookup n = .ok table) (hplain : w.containsAggregate = false) :
    schema.plan (.filtered n w) = (Scope.resolve [⟨table, n, 0⟩] w).map (table.filteredPlan n) := by
  have hnames : table.columns.zipIdx.map (fun x => x.1.name) = table.columns.map (·.name) := by
    rw [← List.zipIdx_map_fst 0 table.columns, List.map_map, List.zipIdx_map_fst]
    rfl
  rw [Schema.plan, Scope.ranging_filtered hlookup]
  show Scope.plan [⟨table, n, 0⟩] (Query.filtered n w).first [] none = _
  cases hw : Scope.resolve [⟨table, n, 0⟩] w with
  | error e =>
    simp [Scope.plan, Query.filtered, Scope.expandAll, Scope.expand, ScopeTable.items,
      Scope.resolvePlain?_of_plain hplain, hw, bind, Except.bind, Except.map]
  | ok f =>
    simp [Scope.plan, Query.filtered, Scope.expandAll, Scope.expand, ScopeTable.items,
      Scope.resolvePlain?_of_plain hplain, hw, bind, Except.bind, Except.map, Scope.groupTerms, Scope.resolve?,
      Scope.orderTerms, resolveLimit, Plan.checkHaving, Table.filteredPlan, Table.wholePlan, Function.comp_def, hnames]

/-- Where a query over known tables cannot be planned, it is not compiled. -/
theorem compileQuery_of_plan_error {q : Query} {scope : Scope} {e : Error} (options : Options) (harms : q.arms = [])
    (hscope : Scope.ranging schema 0 q.first.tables = .ok scope)
    (h : schema.plan q = .error e) : compileQuery schema options q = .error e := by
  obtain ⟨_, b, hinit, -⟩ := total_emitInit.gives (Builder.fresh options.reuseTemps)
  have hcursors : b.cursors = 0 := (emitInit_spec hinit (Builder.valid_fresh _)).2
  refine build_of_fails (fails_bind.mpr (.inr ⟨_, b, hinit, fails_bind.mpr (.inl ?_)⟩))
  rw [emitQuery, harms, List.isEmpty_nil, if_pos rfl]
  refine fails_bind.mpr (.inl (fails_bind.mpr (.inr ⟨scope, _, Scope.openScope_gives.mpr ⟨hcursors ▸ hscope, rfl⟩, ?_⟩)))
  rw [Schema.plan, hscope] at h
  have hplan : scope.plan q.first q.orderBy q.limit = .error e := h
  rw [hplan]
  exact ⟨_, rfl⟩

theorem Change.validate_filtered {c : Change} {r : Resolution} (hlookup : schema.lookup n = .ok table)
    (hplain : w.containsAggregate = false) (htable : c.table = n) (hfilter : c.filter = some w)
    (h : { c with filter := none }.validate schema = .ok r) :
    c.validate schema = ((Scope.single table 0).resolve w).map fun f => { r with filter := some f } := by
  subst htable
  simp only [Change.validate, hlookup, bind, Except.bind] at h ⊢
  split at h
  · cases h
  · rename_i hlength
    rw [if_neg hlength]
    split at h
    · cases h
    · rename_i assigned hassigned
      cases h
      rw [hfilter, Scope.resolvePlain?_of_plain hplain]
      show _ = Except.map _ ((Scope.single table tableCursor).resolve w)
      cases (Scope.single table tableCursor).resolve w <;> rfl

theorem Expr.eval_congr {read read' : Place → Value} : ∀ {e : Resolved}, (∀ q ∈ e.places, read q = read' q) →
    e.eval read = e.eval read'
  | .ref p, h => h p (List.mem_singleton_self p)
  | .lit _, _ => rfl
  | .aggregate _ _, _ => rfl
  | .binary _ left right, h => by
    rw [eval, eval, left.eval_congr fun q hq => h q (List.mem_append_left _ hq),
      right.eval_congr fun q hq => h q (List.mem_append_right _ hq)]

theorem readFrom_singleton {e : Entry} {q : Place} (h : q.cursor = 0) : readFrom [0] [e] q = e.read q := by
  simp [readFrom, h]

/-- What the columns of a table read from an entry. -/
theorem Table.map_eval_projection (table : Table) (n : String) (e : Entry) :
    (table.wholePlan n).projection.map (·.eval (readFrom [0] [e])) = table.shown e := by
  refine List.ext_getElem? fun j => ?_
  simp only [wholePlan, shown, List.map_map, List.getElem?_map, List.getElem?_zipIdx, List.getElem?_mapIdx,
    Option.map_map]
  cases hcolumn : table.columns[j]? with
  | none => rfl
  | some column =>
    simp only [Option.map_some, Function.comp_apply, Expr.eval, Nat.zero_add]
    rw [readFrom_singleton (Scope.cursor_place ..), ScopeTable.place, Table.isRowidAt, hcolumn]
    cases hrowid : column.isRowid <;> simp [hrowid, Entry.read]

/-- The rows of the plan of a filtered table are those that pass, as their columns read. -/
theorem Table.rows_filtered (table : Table) (n : String) {f : Resolved} (hf : ∀ q ∈ f.refs, q.cursor = 0)
    (rows : List (Int64 × Bytes)) : (table.filteredPlan n f).rows [Rows.entries rows] =
      (Deletion.passing (some f) none rows).map fun row => table.shown (Rows.entry row) := by
  have hholds : ∀ e : Entry, Expr.holds (readFrom [0] [e]) (some f) = Expr.holds e.read (some f) := by
    intro e
    rw [Expr.holds, Expr.holds, Expr.eval_congr fun q hq =>
      readFrom_singleton (hf q (Expr.refs_of_mem_places hq))]
  have hsort : ∀ rows : List (List Value × List Value),
      rows.mergeSort (fun a b => orderTuples [] a.1 b.1 != .gt) = rows :=
    fun rows => List.mergeSort_of_pairwise (List.pairwise_of_forall fun _ _ => rfl)
  have hone : combinations [Rows.entries rows] = rows.map fun row => [Rows.entry row] := by
    simp [combinations, Rows.entries_eq_map, List.map_eq_flatMap, List.flatMap_assoc]
  have hcursors : (table.filteredPlan n f).cursors = [0] := rfl
  have horder : (table.filteredPlan n f).orderBy = [] := rfl
  have hshown : ∀ e, (table.filteredPlan n f).keyed (readFrom [0] [e]) = ([], table.shown e) :=
    fun e => Prod.ext rfl (table.map_eval_projection n e)
  rw [Plan.rows, Plan.arrange, Plan.found, hcursors, hone]
  have hfilter : (table.filteredPlan n f).filter = some f := rfl
  simp only [horder, List.map_nil, hsort, List.filter_map, List.map_map, Function.comp_def, hshown, hfilter, hholds]
  rfl

end Statements

theorem Except.map_eq_map_iff {ε α β : Type} {f : α → β} (hf : Function.Injective f) {x y : Except ε α} :
    x.map f = y.map f ↔ x = y := by
  cases x <;> cases y <;> simp [Except.map, hf.eq_iff]

namespace Database

variable {db db' : Database} {answer : Answer} {n : String} {table : Table} {w : Term} {rows : List (Int64 × Bytes)}

/-- What a filtered SELECT gives. -/
theorem select_filtered (hdb : db.Reachable) (hlookup : db.schema.lookup n = .ok table) (hnamed : w.Named)
    (hplain : w.containsAggregate = false) (htree : db.store.tree? table.root = some (.table rows))
    (hrun : db.execute (.select (.filtered n w)) = (.ok answer, db')) :
    ∃ f, Scope.resolve [⟨table, n, 0⟩] w = .ok f ∧ answer.execution.rows.toList =
      (Deletion.passing (some f) none rows).map fun row => table.shown (Rows.entry row) := by
  have hq : (Query.filtered n w).Named := by
    refine ⟨⟨?_, ?_, nofun, nofun⟩, nofun, nofun, nofun⟩
    · simp [Query.filtered, ResultColumn.Named]
    · rintro _ ⟨⟩
      exact hnamed
  have hplans : ∀ p, db.schema.plan (.filtered n w) = .ok p →
      ∃ f, Scope.resolve [⟨table, n, 0⟩] w = .ok f ∧ p = table.filteredPlan n f := by
    intro p hp
    rw [Schema.plan_filtered hlookup hplain] at hp
    cases hresolve : Scope.resolve [⟨table, n, 0⟩] w with
    | error =>
      rw [hresolve] at hp
      cases hp
    | ok f =>
      rw [hresolve] at hp
      exact ⟨f, rfl, (Except.ok.inj hp).symm⟩
  have htables : ∀ ref ∈ (Query.filtered n w).first.tables, ∀ table', db.schema.lookup ref.name = .ok table' →
      ∃ rows, db.store.tree? table'.root = some (.table rows) := by
    intro ref href table' hlookup'
    obtain rfl := List.mem_singleton.mp href
    cases hlookup.symm.trans hlookup'
    exact ⟨rows, htree⟩
  obtain ⟨p, o, b, b', hp, hprepared, hanswer⟩ := plain_delivers hdb rfl hq (fun p hp => by
    obtain ⟨f, -, rfl⟩ := hplans p hp
    exact table.isAggregate_wholePlan) htables hrun
  obtain ⟨f, hf, rfl⟩ := hplans p hp
  refine ⟨f, hf, hanswer.trans ?_⟩
  have hcursor : ∀ q ∈ f.refs, q.cursor = 0 := fun q hq => List.mem_singleton.mp (Scope.cursor_resolve hf hnamed q hq)
  rw [hprepared.deliver_eq rfl fun row hrow => ?_, ← table.rows_filtered n hcursor rows]
  · have hentries : (table.filteredPlan n f).sources.map (fun source => source.entries db.store) = [Rows.entries rows] := by
      simp [Table.filteredPlan, Table.wholePlan, Source.entries, Source.rows, htree]
    rw [hentries]
    rfl
  · obtain ⟨read, -, rfl⟩ := List.mem_map.mp hrow
    rfl

/-- What a filtered DELETE deletes. -/
theorem delete_passing (hdb : db.Reachable) (hlookup : db.schema.lookup n = .ok table)
    (hplain : w.containsAggregate = false) (htree : db.store.tree? table.root = some (.table rows))
    (hrun : db.execute (.delete (.filtered n w)) = (.ok answer, db')) :
    ∃ f, (Scope.single table 0).resolve w = .ok f ∧ db'.store.tree? table.root =
      some (.table (rows.filter (· ∉ Deletion.passing (some f) none rows))) := by
  obtain ⟨program, columns, hcompile, hmachine, -⟩ := execute_ok hrun
  obtain ⟨table', filter, final, hlookup', hfilter, hgives, hcode⟩ :=
    Deletion.compile_gives (compile_of_compile hcompile nofun)
  cases hlookup.symm.trans hlookup'
  obtain ⟨f, hf, rfl⟩ : ∃ f, (Scope.single table 0).resolve w = .ok f ∧ filter = some f := by
    rw [show (Deletion.filtered n w).filter = some w from rfl, Scope.resolvePlain?_of_plain hplain] at hfilter
    cases hresolve : (Scope.single table 0).resolve w with
    | error =>
      rw [hresolve] at hfilter
      cases hfilter
    | ok f =>
      rw [hresolve] at hfilter
      exact ⟨f, rfl, (Except.ok.inj hfilter).symm⟩
  have hrows := hdb.ascending _ _ htree
  have hwritten := Deletion.emitRows_writes hgives hcode hmachine
    (fun n hn => Deletion.effectiveLimit?_nonneg hn) htree hrows
  exact ⟨f, hf, by rw [hwritten.tree, Deletion.remaining_eq_filter _ hrows]; rfl⟩

/-- **A filter means the same in a SELECT, an UPDATE and a DELETE of one table, if it reads alike under the name
that the statement gives the table and under its own.** UPDATE and DELETE always agree. SELECT agrees with them
exactly if the filter reads alike. What a DELETE deletes is what the SELECT gives. -/
theorem filters_agree {schema : Schema} (hlookup : schema.lookup n = .ok table) (hnamed : w.Named)
    (hplain : w.containsAggregate = false) :
    (∀ options, (Deletion.filtered n w).compile schema options = ((Scope.single table 0).resolve w).bind fun f =>
      (Emit.build options.reuseTemps (Deletion.emitRows options table (some f) none)).map (·.1)) ∧
    (∀ (c : Change) (r : Change.Resolution), c.table = n → c.filter = some w →
      { c with filter := none }.validate schema = .ok r →
      c.validate schema = ((Scope.single table 0).resolve w).map fun f => { r with filter := some f }) ∧
    (schema.plan (.filtered n w) = ((Scope.single table 0).resolve w).map (table.filteredPlan n) ↔
      table.readsAlike n w = true) ∧
    (∀ options e, schema.plan (.filtered n w) = .error e →
      compileQuery schema options (.filtered n w) = .error e) ∧
    ∀ (db : Database) (rows : List (Int64 × Bytes)) answer answer' db₁ db₂, db.Reachable → db.schema = schema →
      db.store.tree? table.root = some (.table rows) →
      db.execute (.select (.filtered n w)) = (.ok answer, db₁) →
      db.execute (.delete (.filtered n w)) = (.ok answer', db₂) →
      ∃ removed : List (Int64 × Bytes), removed.Sublist rows ∧
        db₂.store.tree? table.root = some (.table (rows.filter (· ∉ removed))) ∧
        answer.execution.rows.toList = removed.map fun row => table.shown (Rows.entry row) := by
  have hplan := Schema.plan_filtered hlookup hplain
  refine ⟨fun options => ?_, fun c r => Change.validate_filtered hlookup hplain, ?_, fun options e he => ?_, ?_⟩
  · rw [Deletion.compile, show (Deletion.filtered n w).table = n from rfl, hlookup]
    show ((Scope.single table 0).resolvePlain? (some w)).bind _ = _
    rw [Scope.resolvePlain?_of_plain hplain]
    cases (Scope.single table 0).resolve w with
    | error => rfl
    | ok f =>
      show Except.bind (Emit.build options.reuseTemps (Deletion.emitRows options table (some f) none)) _ =
        Except.map _ (Emit.build options.reuseTemps (Deletion.emitRows options table (some f) none))
      cases Emit.build options.reuseTemps (Deletion.emitRows options table (some f) none) <;> rfl
  · rw [hplan, Except.map_eq_map_iff, Table.resolve_eq_iff hplain]
    intro f g hfg
    exact Option.some.inj (congrArg Plan.filter hfg)
  · exact compileQuery_of_plan_error options rfl (Scope.ranging_filtered hlookup) he
  · rintro db rows answer answer' db₁ db₂ hdb rfl htree hselect hdelete
    obtain ⟨f, hf, hanswer⟩ := select_filtered hdb hlookup hnamed hplain htree hselect
    obtain ⟨g, hg, htree'⟩ := delete_passing hdb hlookup hplain htree hdelete
    obtain rfl := Expr.traverse_unique hplain (fun _ _ _ => Table.resolveName_unique) hf hg
    exact ⟨_, Deletion.passing_sublist none, htree', hanswer⟩

/-- The texts of a table that are not before `a`. -/
def fromA (qualifier : Option String) : Term := .binary .ge (.ref (.column qualifier "a")) (.lit (.text "a"))

/-- The table `t` under the name `T`: two of three rows pass. -/
theorem filters_agree_letters : letters.schema.lookup "T" = .ok ⟨"t", 2, [⟨"a", "TEXT", .text, false, false, none⟩], [], []⟩ ∧
    ∃ answer answer' db₁ db₂, ∃ removed : List (Int64 × Bytes),
      letters.execute (.select (.filtered "T" (fromA none))) = (.ok answer, db₁) ∧
      letters.execute (.delete (.filtered "T" (fromA none))) = (.ok answer', db₂) ∧
      answer.execution.rows = #[[.text "b"], [.text "a"]] ∧
      db₂.store.tree? 2 = some (.table ([(1, [2, 15, 98]), (2, [2, 15, 97]), (3, [2, 0])].filter (· ∉ removed))) ∧
      answer.execution.rows.toList = removed.map fun row => Table.shown
        ⟨"t", 2, [⟨"a", "TEXT", .text, false, false, none⟩], [], []⟩ (Rows.entry row) := by
  have hlookup : letters.schema.lookup "T" = .ok ⟨"t", 2, [⟨"a", "TEXT", .text, false, false, none⟩], [], []⟩ := by
    decide +kernel
  have htree : letters.store.tree? 2 = some (.table [(1, [2, 15, 98]), (2, [2, 15, 97]), (3, [2, 0])]) := by
    decide +kernel
  have hselects : (letters.execute (.select (.filtered "T" (fromA none)))).1.toOption.map (·.execution.rows) =
      some #[[.text "b"], [.text "a"]] := by decide +kernel
  have hdeletes : (letters.execute (.delete (.filtered "T" (fromA none)))).1.toBool = true := by decide +kernel
  refine ⟨hlookup, ?_⟩
  rcases hselect : letters.execute (.select (.filtered "T" (fromA none))) with ⟨_ | answer, db₁⟩
  · rw [hselect] at hselects
    cases hselects
  rcases hdelete : letters.execute (.delete (.filtered "T" (fromA none))) with ⟨_ | answer', db₂⟩
  · rw [hdelete] at hdeletes
    cases hdeletes
  rw [hselect] at hselects
  obtain ⟨removed, -, hleft, hrows⟩ := (filters_agree (w := fromA none) hlookup (by simp [Expr.Named, fromA, Expr.refs])
    rfl).2.2.2.2 letters _ answer answer' db₁ db₂ reachable_letters rfl htree hselect hdelete
  exact ⟨answer, answer', db₁, db₂, removed, rfl, rfl, Option.some.inj hselects, hleft, hrows⟩

/-- The same filter with its name qualified as the statement writes the table: the SELECT finds it, and the
DELETE does not. -/
theorem filters_agree_qualified : letters.Reachable ∧
    (letters.execute (.select (.filtered "T" (fromA (some "T"))))).1.toOption.map (·.execution.rows) =
      some #[[.text "b"], [.text "a"]] ∧
    ∀ options, (Deletion.filtered "T" (fromA (some "T"))).compile letters.schema options =
      .error (.noSuchTable "T") := by
  refine ⟨reachable_letters, by decide +kernel, fun options => ?_⟩
  have hlookup : letters.schema.lookup "T" = .ok ⟨"t", 2, [⟨"a", "TEXT", .text, false, false, none⟩], [], []⟩ := by
    decide +kernel
  rw [Deletion.compile, show (Deletion.filtered "T" (fromA (some "T"))).table = "T" from rfl, hlookup]
  rfl

end Database

end QueryMachine
