import QueryMachine.Proofs.Compile.Plain
import QueryMachine.Proofs.Compile.Whole
import QueryMachine.Proofs.Database.Reachable
import QueryMachine.Proofs.Query.Resolution

/-!
# Queries that neither group nor drop duplicates

A query with one selection is planned, compiled and run. Where the run succeeds, its rows are those
that the plan means: the combinations of rows that the filter lets pass, in the order of ORDER BY,
from OFFSET on and as far as LIMIT goes.

* `Database.query_ends` — a query that succeeded ran through the code of its plan.
* `Database.select_rows` — the rows of a query are the rows of its plan.
-/

namespace QueryMachine

open Machine Emit

variable {db db' : Database} {q : Query} {answer : Answer} {p : Plan}

/-- A query that succeeded ran through the code of its plan. -/
theorem Database.query_ends (hrun : db.execute (.select q) = (.ok answer, db')) (harms : q.arms = []) :
    ∃ p b b', db.schema.plan q = .ok p ∧ (emitPlan p .output).Gives b () b' ∧ b.Valid ∧
      (∀ k ∈ p.cursors, k < b.cursors) ∧ ∀ Q : State → Prop, (∀ σ : Setting, σ.Free → b'.Begins σ.final → b.Grows b' ∧
          σ.Leads (fun pc s => pc = b'.address ∧ Q s) b.address (State.start db.store)) →
        ∃ s, Q s ∧ answer.execution.rows = s.rows := by
  unfold Database.execute at hrun
  split at hrun
  · cases hrun
  · rename_i program columns hcompile
    obtain ⟨final, hgives, hcode⟩ := build_gives (show compileQuery .. = _ from hcompile)
    simp only [emitQuery, harms, List.isEmpty_nil, if_true, gives_bind, gives_pure] at hgives
    obtain ⟨_, b1, hinit, names, b3, ⟨p, b2, hselection, _, b3', hemit, -, rfl⟩, _, b4, hhalt, -,
      rfl⟩ := hgives
    obtain rfl := gives_op.mp hhalt
    obtain ⟨hvalid, hcursors⟩ := emitInit_spec hinit (Builder.valid_fresh _)
    obtain ⟨hplan, hbelow, rfl⟩ := Schema.planSelection_gives hcursors hselection
    refine ⟨p, _, b3, hplan, hemit, hvalid, hbelow, fun Q hbody => ?_⟩
    unfold Database.run at hrun
    dsimp only at hrun
    cases hresult : Machine.run ⟨program.code, db.schema, db.foreignKeys, db.stepLimit⟩ db.store with
    | mk result store =>
      rw [hresult] at hrun
      cases result with
      | error f => cases hrun
      | ok execution =>
        cases hrun
        obtain ⟨s, hQ, hrows, -⟩ := run_of_body rfl hinit hcode (fun σ hall hend => by
          obtain ⟨hgrows, hleads⟩ := hbody σ hall hend
          exact ⟨⟨hgrows.begins.code, hgrows.begins.labels, hgrows.labels_le⟩, hleads⟩) hresult
        exact ⟨s, hQ, hrows⟩

/-- Where the roots of the sources hold tables, a scan walks over their rows. -/
theorem stored_of_ascending {store : Store} {sources : List Source} (hstore : store.Ascending)
    (h : ∀ source ∈ sources, ∃ root name rows, source.table = some (root, name) ∧
      store.tree? root = some (.table rows)) :
    List.Forall₂ (Source.Stored store) sources
      (sources.map fun source => Rows.walk (source.rows store)) := by
  rw [List.forall₂_map_right_iff, List.forall₂_same]
  intro source hin
  obtain ⟨root, name, rows, htable, hroot⟩ := h source hin
  have hrows : source.rows store = rows := by
    simp only [Source.rows, htable, Option.bind_some, hroot]
  rw [hrows]
  exact ⟨root, name, _, htable, hroot, Tree.lists_table (hstore root rows hroot)⟩

/-- **The rows of a query are the rows of its plan.** -/
theorem Database.select_rows (hdb : db.Reachable) (harms : q.arms = []) (hnamed : q.Named)
    (hdistinct : q.first.distinct = false)
    (hplain : ∀ p, db.schema.plan q = .ok p → p.isAggregate = false)
    (htables : ∀ ref ∈ q.first.tables, ∀ table, db.schema.lookup ref.name = .ok table →
      ∃ rows, db.store.tree? table.root = some (.table rows))
    (hrun : db.execute (.select q) = (.ok answer, db')) :
    ∃ p, db.schema.plan q = .ok p ∧
      answer.execution.rows.toList = p.rows (p.sources.map fun source => source.entries db.store) := by
  obtain ⟨p, b, b', hplan, hemit, hb, hbelow, hends⟩ := Database.query_ends hrun harms
  refine ⟨p, hplan, ?_⟩
  have hscoped := Schema.plan_scoped hplan hnamed
  have hkeeps : p.distinct = false := by
    obtain ⟨scope, -, hp⟩ := bind_eq_ok.mp hplan
    obtain ⟨-, -, -, -, -, -, -, -, hd, -⟩ := Scope.plan_gives hp
    rw [hd, hdistinct]
  have hsources : ∀ source ∈ p.sources, ∃ root name rows, source.table = some (root, name) ∧
      db.store.tree? root = some (.table rows) := by
    intro source hin
    obtain ⟨ref, href, table, hlookup, htable⟩ := Schema.lookup_of_plan hplan source hin
    obtain ⟨rows, hrows⟩ := htables ref href table hlookup
    exact ⟨table.root, table.name, rows, htable, hrows⟩
  have hstored := stored_of_ascending hdb.ascending hsources
  unfold emitPlan at hemit
  rw [hplain p hplan, if_neg Bool.false_ne_true] at hemit
  obtain ⟨s, hrows, hanswer⟩ := hends (fun s => s.rows.toList =
      p.rows (p.sources.map fun source => source.entries db.store)) <| by
    intro σ _ hend
    refine ⟨hemit.grows hb, ?_⟩
    have hnone : (Sink.output σ).Received [] (State.start db.store) := rfl
    obtain ⟨o, b₁, b₂, hprepared, hleads⟩ := emitPlain_leads hemit hb hend hscoped hbelow
      (fun _ => False.elim) (fun _ => False.elim) (hstored.imp fun _ _ h => h.ready) hnone
    refine hleads.mono ?_
    rintro pc s ⟨rfl, hreceived⟩
    refine ⟨rfl, Eq.trans hreceived ?_⟩
    rw [hprepared.deliver_eq hkeeps]
    · simp only [List.map_map, Function.comp_def, Rows.map_walk]
      rfl
    · intro row hrow
      obtain ⟨read, -, rfl⟩ := List.mem_map.mp hrow
      simp [Plan.keyed]
  rw [hanswer, hrows]

/-! ## A join -/

/-- A table of three texts, one of them NULL. -/
def Database.letters : Database :=
  (((empty .standard).execute (.createTable ⟨"t", [⟨"a", "TEXT", false, false⟩], false⟩)).2.execute
    (.insert ⟨"t", [], [[.lit (.text "b")], [.lit (.text "a")], [.lit .null]]⟩)).2

theorem Database.reachable_letters : letters.Reachable := .execute (.execute (.empty _) _) _

/-- The pairs of rows with different texts, the first of them passed over. -/
def Query.unequalPairs : Query where
  first := {
    distinct := false
    columns := [.term (.ref (.column (some "t") "rowid")) none,
      .term (.ref (.column (some "s") "rowid")) none]
    tables := [⟨"t", none⟩, ⟨"t", some "s"⟩]
    filter := some (.binary .ne (.ref (.column (some "t") "a")) (.ref (.column (some "s") "a")))
    groupBy := []
    having := none }
  arms := []
  orderBy := []
  limit := some ⟨.lit (.int 5), some (.lit (.int 1))⟩

theorem Query.named_unequalPairs : unequalPairs.Named := by
  refine ⟨⟨?_, ?_, nofun, nofun⟩, nofun, nofun, ?_⟩
  · simp [unequalPairs, ResultColumn.Named, Expr.Named, Expr.refs]
  · simp [unequalPairs, Expr.Named, Expr.refs]
  · simp [unequalPairs, Expr.Named, Expr.refs]

theorem Database.lookup_letters : letters.schema.lookup "t" =
    .ok ⟨"t", 2, [⟨"a", "TEXT", .text, false, false, none⟩], [], []⟩ := by decide +kernel

theorem Database.select_rows_letters : ∃ answer db',
    letters.execute (.select .unequalPairs) = (.ok answer, db') ∧
      answer.execution.rows.toList = [[.int 2, .int 1]] ∧
      ∃ p, letters.schema.plan .unequalPairs = .ok p ∧ answer.execution.rows.toList =
        p.rows (p.sources.map fun source => source.entries letters.store) := by
  have hresult : (letters.execute (.select .unequalPairs)).1.toOption.map (·.execution.rows) =
      some #[[.int 2, .int 1]] := by decide +kernel
  have hplans : (letters.schema.plan .unequalPairs).toOption.map (·.isAggregate) = some false := by
    decide +kernel
  rcases hrun : letters.execute (.select .unequalPairs) with ⟨result, db'⟩
  rw [hrun] at hresult
  cases result with
  | error f => cases hresult
  | ok answer =>
    refine ⟨answer, db', rfl, congrArg Array.toList (Option.some.inj hresult), ?_⟩
    refine Database.select_rows Database.reachable_letters rfl Query.named_unequalPairs rfl ?_ ?_ hrun
    · intro p hp
      rw [hp] at hplans
      exact Option.some.inj hplans
    · intro ref href table hlookup
      have hname : ref.name = "t" := by
        rcases List.mem_cons.mp href with rfl | href
        · rfl
        · rw [List.mem_singleton.mp href]
      rw [hname, Database.lookup_letters] at hlookup
      cases hlookup
      exact ⟨[(1, [2, 15, 98]), (2, [2, 15, 97]), (3, [2, 0])], by decide +kernel⟩

/-! ## A table that is no table

A CREATE INDEX that is cut off leaves its catalog row behind. A table of the same name that is made
later is looked up in the catalog by its name, and the root of the index is found. -/

/-- The index `x` is cut off after its last key; then the table `x` is made. -/
def Database.interrupted : Database :=
  let cut := ({ letters with stepLimit := 30 }.execute
    (.createIndex ⟨"x", "t", ["a"], false, false⟩)).2
  ({ cut with stepLimit := 1000000 }.execute
    (.createTable ⟨"x", [⟨"b", "TEXT", false, false⟩], false⟩)).2

/-- All rows of `x`. -/
def Query.wholeTable : Query where
  first := {
    distinct := false
    columns := [.term (.ref (.column none "rowid")) none, .term (.ref (.column none "b")) none]
    tables := [⟨"x", none⟩]
    filter := none
    groupBy := []
    having := none }
  arms := []
  orderBy := []
  limit := none

/-- The new table shows the keys of the index, and not in the order of their rowids. -/
theorem Database.select_rows_interrupted : interrupted.Reachable ∧ ∃ answer db' p,
    interrupted.execute (.select .wholeTable) = (.ok answer, db') ∧
      interrupted.schema.plan .wholeTable = .ok p ∧
      answer.execution.rows.toList =
        [[.int 3, .null], [.int 2, .text "a"], [.int 1, .text "b"]] ∧
      p.rows (p.sources.map fun source => source.entries interrupted.store) = [] := by
  refine ⟨.execute (.limit (.execute (.limit reachable_letters 30) _) _) _, ?_⟩
  have hresult : (interrupted.execute (.select .wholeTable)).1.toOption.map (·.execution.rows) =
      some #[[.int 3, .null], [.int 2, .text "a"], [.int 1, .text "b"]] := by decide +kernel
  have hentries : (interrupted.schema.plan .wholeTable).toOption.map (fun p =>
      (p.sources.map fun source => source.entries interrupted.store, p.window)) =
      some ([[]], ⟨0, none⟩) := by decide +kernel
  rcases hrun : interrupted.execute (.select .wholeTable) with ⟨result, db'⟩
  rw [hrun] at hresult
  cases result with
  | error f => cases hresult
  | ok answer =>
    cases hplan : interrupted.schema.plan .wholeTable with
    | error e =>
      rw [hplan] at hentries
      cases hentries
    | ok p =>
      rw [hplan] at hentries
      obtain ⟨hsources, hwindow⟩ := Prod.mk.inj (Option.some.inj hentries)
      refine ⟨answer, db', p, rfl, rfl, congrArg Array.toList (Option.some.inj hresult), ?_⟩
      rw [hsources, Plan.rows, hwindow]
      simp [Plan.found, combinations, Plan.arrange, Window.apply]

/-! ## Calls that differ in the sign of a zero

The calls of a query are gathered each once, and two calls are one where their literals are: the two zeros
are. -/

/-- Joins the texts of both zeros, each in a call of its own. -/
def Query.bothZeros : Query where
  first := {
    distinct := false
    columns := [.term (.aggregate .groupConcat [.lit (.real .zero)]) none,
      .term (.aggregate .groupConcat [.lit (.real Binary64.zero.neg)]) none]
    tables := []
    filter := none
    groupBy := []
    having := none }
  arms := []
  orderBy := []
  limit := none

/-- There is one group of one row. The second call gives what the first one does, and not what its own
accumulator makes of the row. -/
theorem Database.calls_bothZeros : (empty .standard).Reachable ∧ ∃ answer db',
    (empty .standard).execute (.select .bothZeros) = (.ok answer, db') ∧
      answer.execution.rows.toList = [[.text "0.0", .text "0.0"]] ∧
      ((Accumulator.start .groupConcat).step [.real .zero]).result = .text "0.0" ∧
      ((Accumulator.start .groupConcat).step [.real Binary64.zero.neg]).result = .text "-0.0" := by
  refine ⟨.empty .standard, ?_⟩
  have hresult : ((empty .standard).execute (.select .bothZeros)).1.toOption.map (·.execution.rows) =
      some #[[.text "0.0", .text "0.0"]] := by decide +kernel
  rcases hrun : (empty .standard).execute (.select .bothZeros) with ⟨result, db'⟩
  rw [hrun] at hresult
  cases result with
  | error f => cases hresult
  | ok answer =>
    exact ⟨answer, db', rfl, congrArg Array.toList (Option.some.inj hresult), by decide +kernel,
      by decide +kernel⟩

end QueryMachine
