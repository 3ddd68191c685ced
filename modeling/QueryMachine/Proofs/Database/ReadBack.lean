import Mathlib.Data.List.Induction
import QueryMachine.Proofs.Database.Assigned
import QueryMachine.Proofs.Database.Success
import QueryMachine.Proofs.Query.WholeTable

/-!
# What is inserted is read back

A table is made, one row is inserted into it, and all its columns are queried. The answer is that row: each
value under the affinity of its column. A column that is another name of the rowid reads the rowid, which is
the value given for the first such column, or assigned where that value is NULL. Of several such columns all
but the first lose their values.

* `Database.Orderly.created` — a table that was just made.
* `Database.insert_reads_back` — INSERT, and then `SELECT *`.
-/

namespace QueryMachine

theorem Expr.length_of_traverseAll {α β : Type} {f : α → Except Error β} {es : List (Expr α)} {es' : List (Expr β)}
    (h : Expr.traverseAll f es = .ok es') : es'.length = es.length :=
  (forall₂_of_traverseAll h).length_eq.symm

theorem ColumnDef.affinity_of_isRowid {c : ColumnDef} (h : c.isRowid = true) :
    Affinity.ofTypeName c.typeName = .integer := by
  have hname : Text.foldCase c.typeName = Text.foldCase "INTEGER" := by
    simp only [ColumnDef.isRowid, Bool.and_eq_true, Text.sameName, beq_iff_eq] at h
    exact h.2
  have hint : Text.occursIn "int".toList (Text.foldCase "INTEGER") = true := by decide
  simp only [Affinity.ofTypeName, hname, hint, if_true]

/-! ## The row that is stored -/

section Stored

variable {t : TableDef} {root : Int} {es : List Resolved} {j : Nat} {c : ColumnDef}

theorem Table.getElem?_ofDef (root : Int) (h : t.columns[j]? = some c) : (Table.ofDef t root).columns[j]? =
    some ⟨c.name, c.typeName, Affinity.ofTypeName c.typeName, c.isRowid, c.notNull, none⟩ := by
  simp [Table.ofDef, h]

theorem Table.rowidIndex?_ofDef (t : TableDef) (root : Int) :
    (Table.ofDef t root).rowidIndex? = t.columns.findIdx? (·.isRowid) := by
  simp only [rowidIndex?, ofDef, List.findIdx?_map]
  rfl

theorem TableDef.isRowid_of_findIdx? (h : t.columns.findIdx? (·.isRowid) = some j) (hc : t.columns[j]? = some c) :
    c.isRowid = true := by
  obtain ⟨hj, hrowid, -⟩ := List.findIdx?_eq_some_iff_getElem.mp h
  rw [List.getElem?_eq_getElem hj] at hc
  cases hc
  exact hrowid

namespace Insertion

/-- The values of expressions that see no row. -/
def constants (es : List Resolved) : List Value := es.map fun e => e.eval fun _ => .null

/-- With a value for each position, the value at a position is its own. -/
theorem valueAt?_range {es : List Resolved} (j : Nat) : valueAt? ((List.range es.length).zip es) j = es[j]? := by
  induction es using List.reverseRecOn with
  | nil => rfl
  | append_singleton es e ih =>
    rw [List.length_append, List.length_singleton, List.range_succ,
      List.zip_append (by simp), valueAt?, List.reverse_append]
    by_cases hj : j = es.length
    · simp [hj]
    · have hne : (j == es.length) = false := by simpa using hj
      simp only [List.zip_cons_cons, List.zip_nil_right, List.reverse_singleton, List.singleton_append, List.lookup_cons,
        hne]
      rw [← valueAt?, ih]
      by_cases hlt : j < es.length
      · rw [List.getElem?_append_left hlt]
      · rw [List.getElem?_eq_none (by omega), List.getElem?_eq_none (by simp; omega)]

section

variable (hlength : es.length = (Table.ofDef t root).columns.length)

include hlength

theorem given_range {column : Column} (hj : (Table.ofDef t root).columns[j]? = some column) :
    given ((List.range (Table.ofDef t root).columns.length).zip es) none j column = (constants es).getD j .null := by
  have hlt : j < es.length := hlength ▸ (List.getElem?_eq_some_iff.mp hj).1
  rw [given, ← hlength, valueAt?_range, constants, List.getD_eq_getElem?_getD, List.getElem?_map,
    List.getElem?_eq_getElem hlt]
  rfl

/-- What the row shows: the rowid, or a value under the affinity of its column. -/
theorem shown_written (id : Int64) : (Table.ofDef t root).shown (id, written (Table.ofDef t root) none
        ((List.range (Table.ofDef t root).columns.length).zip es)) =
      t.columns.mapIdx fun j c => if c.isRowid then .int id
        else ((constants es).getD j .null).withAffinity (Affinity.ofTypeName c.typeName) := by
  refine List.ext_getElem? fun j => ?_
  rw [Table.shown, List.getElem?_mapIdx, List.getElem?_mapIdx]
  cases hj : t.columns[j]? with
  | none => simp [Table.ofDef, hj]
  | some c =>
    have hcolumn := Table.getElem?_ofDef root hj
    rw [hcolumn, Option.map_some, Option.map_some]
    dsimp only
    cases hkey : c.isRowid with
    | true => rfl
    | false =>
      have hne : (Table.ofDef t root).rowidIndex? ≠ some j := by
        rw [Table.rowidIndex?_ofDef]
        intro hfirst
        rw [TableDef.isRowid_of_findIdx? hfirst hj] at hkey
        cases hkey
      simp [written, hcolumn, hne, given_range hlength hcolumn]

/-- The rowid is the value given for the first column that is another name of it; NULL stands for the next
rowid. -/
theorem rowid?_range {next id : Int64} (hid : rowid? (Table.ofDef t root) (row (Table.ofDef t root)
      ((List.range (Table.ofDef t root).columns.length).zip es) none) next = some id)
    (hfirst : t.columns.findIdx? (·.isRowid) = some j) (hj : t.columns[j]? = some c) :
    if (constants es).getD j .null = .null then id = next
    else ((constants es).getD j .null).withAffinity (Affinity.ofTypeName c.typeName) = .int id := by
  have hcolumn := Table.getElem?_ofDef root hj
  have hrow : (row (Table.ofDef t root) ((List.range (Table.ofDef t root).columns.length).zip es) none).getD j .null =
      (constants es).getD j .null := by
    rw [row, List.getD_eq_getElem?_getD, List.getElem?_mapIdx, hcolumn, Option.map_some, Option.getD_some,
      given_range hlength hcolumn]
  rw [ColumnDef.affinity_of_isRowid (TableDef.isRowid_of_findIdx? hfirst hj)]
  rw [rowid?, Table.rowidIndex?_ofDef, hfirst] at hid
  simp only [hrow] at hid
  split
  · rename_i hnull
    rw [hnull, Value.withAffinity_null] at hid
    cases hid
    rfl
  · rename_i hvalue
    split at hid
    · rename_i hnull
      exact absurd hnull (Value.withAffinity_integer_ne_null hvalue)
    · rename_i given hint
      cases hid
      exact hint
    · cases hid

end

end Insertion

end Stored

/-! ## Whole statements -/

namespace Database

variable {db db₁ db₂ : Database} {t : TableDef} {terms : List Term} {made inserted : Answer}

/-- A table that was just made is found under its name, and is empty. -/
theorem Orderly.created (h : db.Orderly) (hrange : db.HasRoom)
    (hnew : t.validate db.schema = .ok true) (hcreate : db.execute (.createTable t) = (.ok made, db₁)) :
    db₁.schema.lookup t.name = .ok (.ofDef t db.store.nextRoot) ∧
      db₁.store.tree? db.store.nextRoot = some (.table []) := by
  obtain ⟨entries, hknown⟩ := h.known hrange
  have hprepared := hknown.catalogued.prepared hrange
  have he : Catalog.Entry.ofStatement (.createTable t) = .ok (.ofTable t) := rfl
  constructor
  · obtain ⟨hnot, -, -⟩ | ⟨-, -, hextends⟩ := hknown.extends hrange he hcreate
    · exact absurd hnew hnot
    · have hself : Text.sameName (Table.ofDef t db.store.nextRoot).name t.name = true := by
        simp [Table.ofDef, Text.sameName]
      have hfound : Schema.table? (db.schema ++ [Table.ofDef t db.store.nextRoot]) t.name =
          some (.ofDef t db.store.nextRoot) := by
        rw [Schema.table?, List.find?_append, ← Schema.table?, (TableDef.gives_of_validate hnew).2.1, Option.none_or,
          List.find?_cons, hself]
      rw [show db₁.schema = _ from hextends, Schema.lookup, (TableDef.gives_of_validate hnew).1, hfound]
      rfl
  · obtain ⟨hnot, -⟩ | ⟨-, hentered | ⟨hkind, -⟩⟩ := execute_finished hprepared he hcreate
    · exact absurd hnew hnot
    · obtain ⟨rows, bytes, -, -, hstore⟩ := hentered
      rw [hstore, Store.tree?_setTree_of_ne hprepared.next]
      exact Store.tree?_create_self ..
    · cases hkind

/-- All columns of a table with one row. -/
theorem select_whole {table : Table} {id : Int64} {record : Bytes} {fields : List Value}
    (hlookup : db.schema.lookup t.name = .ok table) (hcolumns : table.columns.length ≤ 0x80000000)
    (htree : db.store.tree? table.root = some (.table [(id, record)]))
    (hdecode : Record.decode record = .ok fields) (hlimit : table.columns.length + 7 ≤ db.stepLimit) :
    ∃ answer, db.execute (.select (.whole t.name)) = (.ok answer, db) ∧
      answer.execution.rows = #[table.shown (id, fields)] := by
  obtain ⟨count, hcompile⟩ := Table.compileQuery_whole db.options hlookup hcolumns
  have hcode : (db.environment ⟨table.reading.toArray, 0, 0⟩).code = table.reading.toArray := rfl
  obtain ⟨trace, hrun⟩ := Table.run_reading hcode htree hdecode hlimit
  simp only [environment] at hrun
  refine ⟨⟨table.columns.map (·.name), ⟨#[table.shown (id, fields)], trace⟩⟩, ?_, rfl⟩
  simp only [execute, compile, hcompile, run, hrun, schemaAfter]

/-- **A row that is inserted into a new table is read back**: every value under the affinity of its column, and
the rowid in the columns that are other names of it. -/
theorem insert_reads_back (hdb : db.Orderly) (hrange : Integer.inRange32 db.store.nextRoot = true)
    (hnew : t.validate db.schema = .ok true) (hcreate : db.execute (.createTable t) = (.ok made, db₁))
    (hinsert : db₁.execute (.insert ⟨t.name, [], [terms]⟩) = (.ok inserted, db₂))
    (hcolumns : t.columns.length ≤ 0x80000000) (hlimit : t.columns.length + 7 ≤ db.stepLimit) :
    ∃ es values id answer, Expr.traverseAll (Scope.resolveName []) terms = .ok es ∧
      values = Insertion.constants es ∧
      db₂.execute (.select (.whole t.name)) = (.ok answer, db₂) ∧
      answer.execution.rows = #[t.columns.mapIdx fun j c => if c.isRowid then .int id
        else (values.getD j .null).withAffinity (Affinity.ofTypeName c.typeName)] ∧
      ∀ j c, t.columns.findIdx? (·.isRowid) = some j → t.columns[j]? = some c →
        if values.getD j .null = .null then id = 1
        else (values.getD j .null).withAffinity (Affinity.ofTypeName c.typeName) = .int id := by
  obtain ⟨hlookup, htree⟩ := hdb.created hrange hnew hcreate
  obtain ⟨-, -, -, -, -, hdb₁⟩ := execute_ok hcreate
  obtain ⟨program, columns, hcompile, -, -, hdb₂⟩ := execute_ok hinsert
  -- The one row has a value for every column.
  obtain ⟨⟨table, rows⟩, hvalid, -⟩ := bind_eq_ok.mp (compile_of_compile hcompile (by simp))
  obtain ⟨hlookup', -, positions, hpositions, hrows⟩ := Insertion.gives_of_validate hvalid
  cases hlookup.symm.trans hlookup'
  cases hpositions
  obtain ⟨values, _, ⟨hlength, es, hes, rfl⟩, hnil, rfl⟩ := List.forall₂_cons_left_iff.mp hrows
  cases hnil
  have hcount : es.length = (Table.ofDef t db.store.nextRoot).columns.length := by
    rw [Expr.length_of_traverseAll hes, hlength, List.length_range]
  -- It is stored alone.
  have hascending : db₁.store.Ascending := (Orderly.execute hdb _ hcreate).driven.reachable.ascending
  obtain ⟨before, after, htree₁, -, hstored, htree₂⟩ := insert_stores hascending hvalid hinsert
  cases htree.symm.trans htree₁
  cases hstored with
  | @cons _ _ _ _ _ e record hentry hencode hrest =>
    cases hrest
    obtain ⟨id, hid, rfl⟩ := Option.map_eq_some_iff.mp hentry
    rw [Insertion.stored_fields] at hencode
    have hschema : db₂.schema = db₁.schema := by
      have hkeeps : (db₁.execute (.insert ⟨t.name, [], [terms]⟩)).2.schema = db₁.schema :=
        execute_schema (by simp [Catalog.Entry.ofStatement])
      rwa [hinsert] at hkeeps
    have hlimit₂ : db₂.stepLimit = db.stepLimit := by rw [hdb₂, hdb₁]
    have hwidth : (Table.ofDef t db.store.nextRoot).columns.length = t.columns.length := by simp [Table.ofDef]
    obtain ⟨answer, hselect, hanswer⟩ := select_whole (hschema ▸ hlookup) (hwidth ▸ hcolumns) htree₂
      (Record.decode_encode hencode) (by rwa [hwidth, hlimit₂])
    refine ⟨es, _, id, answer, hes, rfl, hselect, ?_, fun j c => Insertion.rowid?_range hcount hid⟩
    rw [hanswer, Insertion.shown_written hcount]

/-- A table in which two columns have the same name. -/
def repeated : TableDef :=
  ⟨"t", [⟨"a", "TEXT", false, false⟩, ⟨"id", "INTEGER", true, false⟩, ⟨"A", "NUMERIC", false, false⟩], false⟩

/-- The values are read back in their places, as text and number, and the rowid is assigned. -/
theorem insert_reads_back_repeated : ∃ made db₁ inserted db₂ answer,
    (empty .standard).execute (.createTable repeated) = (.ok made, db₁) ∧
      db₁.execute (.insert ⟨"t", [], [[.lit (.int 7), .lit .null, .lit (.text "8")]]⟩) = (.ok inserted, db₂) ∧
      db₂.execute (.select (.whole "t")) = (.ok answer, db₂) ∧
      answer.execution.rows = #[[.text "7", .int 1, .int 8]] := by
  have hfirst : ((empty .standard).execute (.createTable repeated)).1.toOption.isSome = true := by decide +kernel
  have hsecond : (((empty .standard).execute (.createTable repeated)).2.execute
      (.insert ⟨"t", [], [[.lit (.int 7), .lit .null, .lit (.text "8")]]⟩)).1.toOption.isSome = true := by
    decide +kernel
  rcases hcreate : (empty .standard).execute (.createTable repeated) with ⟨_ | made, db₁⟩
  · rw [hcreate] at hfirst
    cases hfirst
  rw [hcreate] at hsecond
  rcases hinsert : db₁.execute (.insert ⟨"t", [], [[.lit (.int 7), .lit .null, .lit (.text "8")]]⟩) with
    ⟨_ | inserted, db₂⟩
  · rw [hinsert] at hsecond
    cases hsecond
  obtain ⟨es, values, id, answer, hes, rfl, hselect, hrows, hid⟩ := insert_reads_back (.empty .standard) (by decide)
    (show repeated.validate [] = .ok true by decide +kernel) hcreate hinsert (by decide) (by decide)
  cases hes
  have hid := hid 1 ⟨"id", "INTEGER", true, false⟩ (by decide) rfl
  simp [Insertion.constants, Expr.eval] at hid
  refine ⟨made, db₁, inserted, db₂, answer, rfl, hinsert, hselect, ?_⟩
  rw [hrows, hid]
  decide +kernel

/-- A table with two columns that are other names of the rowid. -/
def doubled : Database :=
  (((empty .standard).execute (.createTable
    ⟨"t", [⟨"a", "INTEGER", true, false⟩, ⟨"b", "INTEGER", true, false⟩], false⟩)).2.execute
    (.insert ⟨"t", [], [[.lit (.int 1), .lit (.int 2)]]⟩)).2

/-- **Of two columns that are other names of the rowid, the second does not read back its value.** -/
theorem insert_reads_back_doubled : ∃ answer,
    (doubled.execute (.select (.whole "t"))).1 = .ok answer ∧ answer.execution.rows = #[[.int 1, .int 1]] := by
  have hrows : ((doubled.execute (.select (.whole "t"))).1.toOption.map (·.execution.rows)) =
      some #[[.int 1, .int 1]] := by decide +kernel
  cases hresult : (doubled.execute (.select (.whole "t"))).1 with
  | error f =>
    rw [hresult] at hrows
    cases hrows
  | ok answer =>
    rw [hresult] at hrows
    exact ⟨answer, rfl, Option.some.inj hrows⟩

end Database

end QueryMachine
