import QueryMachine.Compile.Query
import QueryMachine.Proofs.Compile.Whole
import QueryMachine.Proofs.Machine.Walk

/-!
# All columns of all rows of a table

The program for `SELECT * FROM table`, instruction by instruction. It opens the table, reads each column of
each row into a register of its own, and gives the row out. A column that is another name of the rowid is read
from the rowid.

* `Table.compileQuery_whole` — the query compiles to that program.
* `Table.run_reading` — on a table with one row, the program gives that row out.
-/

namespace QueryMachine

open Machine Emit

/-- The builder after instructions without labels. -/
def Builder.emitAll (b : Builder) (is : List Instruction) : Builder :=
  { b with drafts := b.drafts ++ (is.map fun i => ⟨i, none⟩).toArray }

/-- All columns of all rows of a table. -/
def Query.whole (name : String) : Query :=
  ⟨⟨false, [.star], [⟨name, none⟩], none, [], none⟩, [], [], none⟩

namespace Table

variable {table : Table} {name : String}

/-- The instruction that reads a column of the row under cursor 0. -/
def load (index : Nat) (column : Column) : Instruction :=
  if column.isRowid then .plain .rowid 0 (1 + index) 0 else .plain .column 0 index (1 + index)

/-- The program that puts out all columns of all rows. -/
def reading (table : Table) : List Instruction :=
  [.plain .init 0 1 0, ⟨.openRead, 0, table.root, 0, .table table.name, 0⟩,
    .plain .rewind 0 (table.columns.length + 5) 0] ++ table.columns.mapIdx load ++
  [.plain .resultRow 1 table.columns.length 0, .plain .next 0 3 0, .plain .close 0 0 0, .plain .halt 0 0 0]

theorem emitExpr_load {index : Nat} {column : Column} (hindex : index < 0x80000000)
    (hcolumn : table.columns[index]? = some column) (b : Builder) :
    (emitExpr [] (.ref (ScopeTable.place ⟨table, name, 0⟩ index)) (1 + index)).Gives b ()
      (b.emit (load index column)) := by
  simp only [emitExpr, Bindings.register?, List.find?_nil, Option.map_none, emitPlace, ScopeTable.place,
    Table.isRowidAt, hcolumn, load]
  cases column.isRowid with
  | true => exact gives_op.mpr rfl
  | false => simp [operand, hindex, gives_op]

theorem emitExprs_loads (table : Table) (name : String) {columns : List Column} {index : Nat} (hlength : index + columns.length ≤ 0x80000000)
    (hcolumns : ∀ k : Nat, k < columns.length → table.columns[index + k]? = columns[k]?) (b : Builder) :
    (emitExprs [] ((columns.zipIdx index).map fun (_, j) => .ref (ScopeTable.place ⟨table, name, 0⟩ j))
      (1 + index)).Gives b () (b.emitAll (columns.mapIdx fun k => load (index + k))) := by
  induction columns generalizing index b with
  | nil => simp [emitExprs, gives_pure, Builder.emitAll]
  | cons column columns ih =>
    simp only [List.length_cons] at hlength hcolumns
    simp only [List.zipIdx_cons, List.map_cons, emitExprs, gives_bind, List.mapIdx_cons]
    have hmore : ∀ k : Nat, k < columns.length → table.columns[index + 1 + k]? = columns[k]? := by
      intro k hk
      rw [Nat.add_right_comm, Nat.add_assoc, hcolumns (k + 1) (by omega), List.getElem?_cons_succ]
    have hrest := ih (by omega) hmore (b.emit (load index column))
    refine ⟨(), b.emit (load index column), emitExpr_load (by omega) (hcolumns 0 (by omega)) b, ?_⟩
    have htarget : (1 + (index : Int)) + 1 = 1 + ((index + 1 : Nat) : Int) := by omega
    have hload : (fun k => load (index + 1 + k)) = fun k => load (index + (k + 1)) := by
      funext k
      rw [Nat.add_right_comm, Nat.add_assoc]
    rw [htarget, ← hload]
    simpa [Builder.emitAll, Builder.emit] using hrest

/-- All columns of a table, as a selection is planned. -/
def wholePlan (table : Table) (name : String) : Plan where
  sources := [⟨0, some (table.root, table.name)⟩]
  projection := table.columns.zipIdx.map fun (_, j) => .ref (ScopeTable.place ⟨table, name, 0⟩ j)
  names := table.columns.map (·.name)
  filter := none
  groupBy := []
  having := none
  orderBy := []
  distinct := false
  limit := none
  offset := none

theorem plan_whole : Scope.plan [⟨table, name, 0⟩] (Query.whole name).first [] none = .ok (table.wholePlan name) := by
  have hnames : table.columns.zipIdx.map (fun x => x.1.name) = table.columns.map (·.name) := by
    rw [← List.zipIdx_map_fst 0 table.columns, List.map_map, List.zipIdx_map_fst]
    rfl
  simp [Scope.plan, Query.whole, Scope.expandAll, Scope.expand, ScopeTable.items, Scope.resolvePlain?,
    Scope.groupTerms, Scope.resolve?, Scope.orderTerms, resolveLimit, Plan.checkHaving, wholePlan, bind,
    Except.bind, Function.comp_def, hnames]

theorem isAggregate_wholePlan : (table.wholePlan name).isAggregate = false := by
  simp [wholePlan, Plan.isAggregate, Expr.containsAggregate]

/-- The instructions for the plan of a whole table, from address 1 on. -/
def drafts (table : Table) : List Draft :=
  [⟨⟨.openRead, 0, table.root, 0, .table table.name, 0⟩, none⟩, ⟨.plain .rewind 0 0 0, some 1⟩] ++
    (table.columns.mapIdx load).map (fun i => ⟨i, none⟩) ++
  [⟨.plain .resultRow 1 table.columns.length 0, none⟩, ⟨.plain .next 0 0 0, some 3⟩, ⟨.plain .close 0 0 0, none⟩]

theorem emitPlan_whole (name : String) (hlength : table.columns.length ≤ 0x80000000) {b : Builder} (hnext : b.pool.next = 1)
    {l : Option Int} (hlabels : b.labels = #[l]) :
    ∃ pool, (emitPlan (table.wholePlan name) .output).Gives b () { b with
      drafts := b.drafts ++ table.drafts.toArray
      labels := #[l, some (b.address + table.columns.length + 4), some (b.address + table.columns.length + 3),
        some (b.address + 2)]
      pool } := by
  have hloads := emitExprs_loads table name (show 0 + table.columns.length ≤ _ by omega)
    (fun k _ => by rw [Nat.zero_add])
  have hwidth : (table.wholePlan name).width = table.columns.length := by simp [Plan.width, wholePlan]
  have hopen : (emitOpenSources (table.wholePlan name).sources).Gives b ()
      (b.emit ⟨.openRead, 0, table.root, 0, .table table.name, 0⟩) :=
    gives_bind.mpr ⟨(), _, gives_opWith.mpr rfl, gives_pure.mpr ⟨rfl, rfl⟩⟩
  have hcounters : ∀ b done, (emitCounters (table.wholePlan name) done).Gives b ⟨none, none⟩ b := fun b _ =>
    gives_bind.mpr ⟨none, b, gives_pure.mpr ⟨rfl, rfl⟩, gives_bind.mpr ⟨none, b, gives_pure.mpr ⟨rfl, rfl⟩,
      gives_pure.mpr ⟨rfl, rfl⟩⟩⟩
  have hprepare : ∀ b : Builder, b.pool.next = 1 →
      (Output.prepare (table.wholePlan name) (!(table.wholePlan name).orderBy.isEmpty)).Gives b
        ⟨table.columns.length, 1, .none, none⟩ { b with pool := (b.pool.takeBlock table.columns.length).2 } := by
    intro b hnext
    rw [← hwidth]
    exact gives_bind.mpr ⟨1, _, gives_modifyGet.mpr ⟨hnext.symm, rfl⟩,
      gives_bind.mpr ⟨.none, _, gives_pure.mpr ⟨rfl, rfl⟩, gives_pure.mpr ⟨rfl, rfl⟩⟩⟩
  refine ⟨(b.pool.takeBlock table.columns.length).2, ?_⟩
  rw [emitPlan, isAggregate_wholePlan, if_neg Bool.false_ne_true]
  refine gives_bind.mpr ⟨(), _, hopen, ?_⟩
  refine gives_bind.mpr ⟨b.labels.size, _, gives_newLabel.mpr ⟨rfl, rfl⟩, ?_⟩
  refine gives_bind.mpr ⟨_, _, hcounters .., gives_bind.mpr ⟨_, _, hprepare _ hnext, ?_⟩⟩
  refine gives_bind.mpr ⟨b.labels.size, _, gives_pure.mpr ⟨rfl, rfl⟩, ?_⟩
  simp only [wholePlan, emitScan, bind_assoc]
  refine gives_bind.mpr ⟨b.labels.size + 1, _, gives_newLabel.mpr ⟨(Array.size_push ..).symm, rfl⟩, ?_⟩
  refine gives_bind.mpr ⟨(), _, gives_jump.mpr rfl, ?_⟩
  refine gives_bind.mpr ⟨b.labels.size + 2, _, gives_labelHere.mpr ⟨?_, rfl⟩, ?_⟩
  · simp [Builder.newLabel, Builder.emit, Builder.emitJump]
  refine gives_bind.mpr ⟨(), _, gives_pure.mpr ⟨rfl, rfl⟩, ?_⟩
  refine gives_bind.mpr ⟨(), _, gives_bind.mpr ⟨(), _, hloads _, gives_bind.mpr ⟨(), _, gives_pure.mpr ⟨rfl, rfl⟩,
    gives_bind.mpr ⟨(), _, gives_pure.mpr ⟨rfl, rfl⟩, gives_bind.mpr ⟨(), _, gives_op.mpr rfl, gives_pure.mpr ⟨rfl, rfl⟩⟩⟩⟩⟩, ?_⟩
  refine gives_bind.mpr ⟨(), _, gives_bindHere.mpr rfl, gives_bind.mpr ⟨(), _, gives_jump.mpr rfl, ?_⟩⟩
  refine gives_bind.mpr ⟨(), _, gives_bindHere.mpr rfl, ?_⟩
  refine gives_bind.mpr ⟨(), _, gives_pure.mpr ⟨rfl, rfl⟩, ?_⟩
  refine gives_bind.mpr ⟨(), _, gives_op.mpr rfl, gives_pure.mpr ⟨rfl, ?_⟩⟩
  simp [Builder.emit, Builder.emitJump, Builder.bindHere, Builder.bindTo, Builder.newLabel, Builder.emitAll,
    Builder.address, hlabels, Instruction.plain, drafts]
  omega

theorem planSelection_whole {schema : Schema} (h : schema.lookup name = .ok table) {b : Builder}
    (hcursors : b.cursors = 0) :
    (planSelection schema (Query.whole name).first [] none).Gives b (table.wholePlan name) b.newCursor.2 := by
  refine gives_bind.mpr ⟨[⟨table, name, 0⟩], b.newCursor.2, ?_, ?_⟩
  · refine gives_bind.mpr ⟨table, b, ?_, gives_bind.mpr ⟨0, _, gives_newCursor.mpr ⟨hcursors.symm, rfl⟩, ?_⟩⟩
    · rw [h]
      exact gives_pure.mpr ⟨rfl, rfl⟩
    · exact gives_bind.mpr ⟨[], _, gives_pure.mpr ⟨rfl, rfl⟩, gives_pure.mpr ⟨rfl, rfl⟩⟩
  · rw [plan_whole]
    exact gives_pure.mpr ⟨rfl, rfl⟩

/-- **The program for all columns of all rows of a table.** -/
theorem compileQuery_whole {schema : Schema} (options : Options) (h : schema.lookup name = .ok table)
    (hlength : table.columns.length ≤ 0x80000000) : ∃ count, compileQuery schema options (.whole name) =
        .ok (⟨table.reading.toArray, count, 1⟩, table.columns.map (·.name)) := by
  generalize hstart : (Builder.bindHere 0 (Builder.emitJump .init 0 0 0 .empty 0
    (Builder.fresh options.reuseTemps).newLabel.2)) = start
  have hinit : emitInit.Gives (Builder.fresh options.reuseTemps) () start :=
    gives_bind.mpr ⟨_, _, gives_newLabel.mpr ⟨rfl, rfl⟩, gives_bind.mpr ⟨(), _, gives_jump.mpr rfl,
      gives_bindHere.mpr hstart.symm⟩⟩
  have hlabels : start.labels = #[some 1] := by rw [← hstart]; rfl
  have hdrafts : start.drafts = #[⟨.plain .init 0 0 0, some 0⟩] := by rw [← hstart]; rfl
  have hcursors : start.cursors = 0 := by rw [← hstart]; rfl
  obtain ⟨pool, hplan⟩ := emitPlan_whole name hlength (b := start.newCursor.2) (by rw [← hstart]; rfl) hlabels
  have hquery : (emitQuery schema (.whole name) .output).Gives start _ _ :=
    gives_bind.mpr ⟨_, _, planSelection_whole h hcursors, gives_bind.mpr ⟨_, _, hplan, gives_pure.mpr ⟨rfl, rfl⟩⟩⟩
  have hall : (do
      emitInit
      let names ← emitQuery schema (.whole name) .output
      emitHalt
      pure names : Emit (List String)).Gives (Builder.fresh options.reuseTemps) (table.columns.map (·.name))
        ⟨((⟨.plain .init 0 0 0, some 0⟩ : Draft) :: table.drafts ++ [(⟨.plain .halt 0 0 0, none⟩ : Draft)]).toArray,
          #[some 1, some (table.columns.length + 5), some (table.columns.length + 4), some 3], pool, 1⟩ := by
    refine gives_bind.mpr ⟨_, _, hinit, gives_bind.mpr ⟨_, _, hquery, gives_bind.mpr ⟨(), _, gives_op.mpr rfl,
      gives_pure.mpr ⟨rfl, ?_⟩⟩⟩⟩
    simp [Builder.emit, hdrafts, Builder.newCursor, hcursors, Builder.address]
    omega
  refine ⟨pool.count, ?_⟩
  unfold compileQuery Emit.build
  rw [show EStateM.run _ _ = _ from hall]
  dsimp only
  rw [Builder.finish_of_bound]
  · simp [Builder.code, Builder.resolve, Builder.target?, reading, drafts, Instruction.plain, Function.comp_def]
  · intro l hl
    obtain rfl | rfl | rfl | rfl : l = 0 ∨ l = 1 ∨ l = 2 ∨ l = 3 := by simp at hl; omega
    all_goals rfl

/-- What all columns of an entry read: a column that is another name of the rowid reads the rowid. -/
def shown (table : Table) (e : Entry) : List Value :=
  table.columns.mapIdx fun j column => if column.isRowid then .int e.1 else e.2.getD j .null

variable {env : Environment} {store : Store} {id : Int64} {record : Bytes} {fields : List Value}

theorem code_reading (hcode : env.code = table.reading.toArray) : env.code[0]? = some (.plain .init 0 1 0) ∧
    env.code[1]? = some ⟨.openRead, 0, table.root, 0, .table table.name, 0⟩ ∧
    env.code[2]? = some (.plain .rewind 0 (table.columns.length + 5) 0) ∧
    (∀ j column, table.columns[j]? = some column → env.code[3 + j]? = some (load j column)) ∧
    env.code[3 + table.columns.length]? = some (.plain .resultRow 1 table.columns.length 0) ∧
    env.code[3 + table.columns.length + 1]? = some (.plain .next 0 3 0) ∧
    env.code[3 + table.columns.length + 1 + 1]? = some (.plain .close 0 0 0) ∧
    env.code[3 + table.columns.length + 1 + 1 + 1]? = some (.plain .halt 0 0 0) := by
  have hafter : ∀ k, env.code[3 + table.columns.length + k]? =
      [Instruction.plain .resultRow 1 table.columns.length 0, .plain .next 0 3 0, .plain .close 0 0 0, .plain .halt 0 0 0][k]? := by
    intro k
    rw [hcode, List.getElem?_toArray, reading, List.getElem?_append_right (by simp; omega)]
    congr 1
    simp; omega
  refine ⟨by rw [hcode]; rfl, by rw [hcode]; rfl, by rw [hcode]; rfl, fun j column hj => ?_, hafter 0, hafter 1, hafter 2, hafter 3⟩
  have hlt : j < table.columns.length := (List.getElem?_eq_some_iff.mp hj).1
  rw [hcode, List.getElem?_toArray, reading, List.getElem?_append_left (by simp; omega),
    List.getElem?_append_right (by simp)]
  simp [hj]

/-- Cursor 0 is on the row with the given rowid, and the trees are those of `store`. -/
structure OnRow (table : Table) (store : Store) (id : Int64) (s : State) : Prop where
  cursor : s.cursors.get? 0 = some ⟨.stored table.root, some (.rowid id)⟩
  store : s.store = store

section

variable (hcode : env.code = table.reading.toArray)
  (htree : store.tree? table.root = some (.table [(id, record)]))

include hcode htree

/-- The program comes to the first row. -/
theorem walks_to_row : ∃ s, Walks env 3 0 (State.start store) 3 s ∧ table.OnRow store id s ∧ s.rows = #[] := by
  obtain ⟨hinit, hopen, hrewind, -⟩ := code_reading hcode
  have hsize : env.code.size = table.columns.length + 7 := by simp [hcode, reading]
  have htree0 : (State.start store).store.tree? table.root = some (.table [(id, record)]) := htree
  generalize hs1 : (State.start store).openCursor 0 (.stored table.root) = s1
  have hcursor : s1.cursors.get? 0 = some ⟨.stored table.root, none⟩ := by
    rw [← hs1]
    exact Slots.get?_set_self ..
  have hstore : s1.store = store := by
    rw [← hs1]
    rfl
  have hrows : s1.rows = #[] := by
    rw [← hs1]
    rfl
  have hw0 : Walks env 1 0 (State.start store) 1 (State.start store) := .jump hinit (by omega) rfl
  have hw1 : Walks env 1 1 (State.start store) 2 s1 := by
    refine .next hopen ?_
    simp only [execute, openTree, rootOf_plain, htree0, hs1]
  have hw2 : Walks env 1 2 s1 3 (s1.setPosition 0 (some (.rowid id))) := by
    refine .next hrewind ?_
    simp only [execute, Instruction.plain, moveToEnd, State.tree, State.cursor, hcursor, hstore, htree,
      Tree.first?, List.head?_cons, Option.map_some, Option.isNone_some, jumpIf, Bool.false_eq_true, if_false]
  refine ⟨_, (hw0.trans hw1).trans hw2, ⟨?_, ?_⟩, ?_⟩
  · simp only [State.setPosition, hcursor]
    exact Slots.get?_set_self ..
  · simp only [State.setPosition, hcursor, hstore]
  · simp only [State.setPosition, hcursor, hrows]

/-- The columns of the row come to stand in the registers from 1 on. -/
theorem walks_loads (hdecode : Record.decode record = .ok fields) {s : State} (hs : table.OnRow store id s) :
    ∃ s', Walks env table.columns.length 3 s (3 + table.columns.length) s' ∧ table.OnRow store id s' ∧
      s'.getBlock 1 table.columns.length = table.shown (id, fields) ∧ s'.rows = s.rows := by
  obtain ⟨-, -, -, hloads, -⟩ := code_reading hcode
  have hlength : (table.shown (id, fields)).length = table.columns.length := by simp [shown]
  have hload : ∀ (j : Nat) v, (table.shown (id, fields))[j]? = some v → ∃ i, env.code[3 + j]? = some i ∧
      ∀ s', Quiet (fun _ => False) (fun _ => True) s s' →
        execute env (3 + j) i s' = .ok (.next, s'.set (1 + j) v) := by
    intro j v hv
    rw [shown, List.getElem?_mapIdx] at hv
    obtain ⟨column, hcolumn, rfl⟩ := Option.map_eq_some_iff.mp hv
    refine ⟨load j column, hloads j column hcolumn, fun s' hs' => ?_⟩
    have hcursor := (hs'.cursors 0 trivial).trans hs.cursor
    have hget : Rows.get? [(id, record)] id = some record := by simp [Rows.get?]
    unfold load
    cases column.isRowid with
    | true =>
      simp only [if_true, execute, Instruction.plain, readRowid, State.currentRowid, State.cursor, hcursor]
    | false =>
      simp only [Bool.false_eq_true, if_false, execute, Instruction.plain, readField, State.currentRow, State.tree,
        State.cursor, hcursor, hs'.store, hs.store, htree, hget, hdecode, Fault.lift, fieldAt_natCast]
  obtain ⟨s', hwalks, hblock, hquiet⟩ := Walks.block Int.zero_lt_one hload
  rw [hlength] at hwalks hblock
  exact ⟨s', hwalks, ⟨(hquiet.cursors 0 trivial).trans hs.cursor, hquiet.store.trans hs.store⟩, hblock, hquiet.rows⟩

/-- The row is given out, and there is no other one. -/
theorem walks_from_row {s : State} (hs : table.OnRow store id s) :
    ∃ s', Walks env 3 (3 + table.columns.length) s (6 + table.columns.length) s' ∧ s'.store = store ∧
      s'.rows = s.rows.push (s.getBlock 1 table.columns.length) := by
  obtain ⟨-, -, -, -, hresult, hnext, hclose, -⟩ := code_reading hcode
  generalize hs1 : ({ s with rows := s.rows.push (s.getBlock 1 table.columns.length) } : State) = s1
  have hcursor : s1.cursors.get? 0 = some ⟨.stored table.root, some (.rowid id)⟩ := by
    rw [← hs1]
    exact hs.cursor
  have hstore : s1.store = store := by
    rw [← hs1]
    exact hs.store
  have hw1 : Walks env 1 (3 + table.columns.length) s (3 + table.columns.length + 1) s1 := by
    refine .next hresult ?_
    simp only [execute, Instruction.plain, resultRow, hs1]
  have hw2 : Walks env 1 (3 + table.columns.length + 1) s1 (3 + table.columns.length + 1 + 1)
      (s1.setPosition 0 none) := by
    have hafter : Tree.after? (.table [(id, record)]) (.rowid id) = none := by simp [Tree.after?]
    refine .next hnext ?_
    simp only [execute, Instruction.plain, moveOn, State.tree, State.cursor, hcursor, hstore, htree,
      Option.bind_some, hafter, Option.isSome_none, jumpIf, Bool.false_eq_true, if_false]
  have hw3 := Walks.next (s := s1.setPosition 0 none) hclose rfl
  have hend : 6 + table.columns.length = 3 + table.columns.length + 1 + 1 + 1 := by omega
  rw [hend]
  refine ⟨_, (hw1.trans hw2).trans hw3, ?_, ?_⟩
  · simp only [State.setPosition, hcursor, hstore]
  · simp only [State.setPosition, hcursor]
    rw [← hs1]

/-- **On a table with one row, the program gives that row out.** -/
theorem run_reading (hdecode : Record.decode record = .ok fields) (hlimit : table.columns.length + 7 ≤ env.stepLimit) :
    ∃ trace, Machine.run env store = (.ok ⟨#[table.shown (id, fields)], trace⟩, store) := by
  obtain ⟨s1, hw1, hs1, hrows1⟩ := walks_to_row hcode htree
  obtain ⟨s2, hw2, hs2, hblock, hrows2⟩ := walks_loads hcode htree hdecode hs1
  obtain ⟨s3, hw3, hstore, hrows3⟩ := walks_from_row hcode htree hs2
  rw [hblock, hrows2, hrows1] at hrows3
  obtain ⟨fuel, hfuel⟩ : ∃ fuel, env.stepLimit = 3 + table.columns.length + 3 + (fuel + 1) :=
    ⟨env.stepLimit - (table.columns.length + 7), by omega⟩
  obtain ⟨trace, htrace⟩ := ((hw1.trans hw2).trans hw3).runFrom_eq (fuel + 1) #[]
  have hhalt : env.code[6 + table.columns.length]? = some (.plain .halt 0 0 0) := by
    have hend : 6 + table.columns.length = 3 + table.columns.length + 1 + 1 + 1 := by omega
    rw [hend]
    exact (code_reading hcode).2.2.2.2.2.2.2
  refine ⟨trace.push .halt, ?_⟩
  rw [Machine.run, hfuel, htrace, runFrom, hhalt]
  simp only [Machine.step, execute, Instruction.plain, follow, hrows3, hstore]
  rfl

end

end Table

end QueryMachine
