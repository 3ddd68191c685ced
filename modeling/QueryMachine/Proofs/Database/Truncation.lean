import QueryMachine.Proofs.Database.Create
import QueryMachine.Proofs.Database.Effect
import QueryMachine.Proofs.Database.Removal
import QueryMachine.Proofs.Form.Statement
import QueryMachine.Proofs.Machine.Walk
import QueryMachine.Proofs.Query.Select

/-!
# Clearing trees and deleting rows

A DELETE of every row clears the trees of its table, or goes through the rows and deletes each with its
keys. Where the indexes of the table mirror its rows, both ways go through, and they leave the same trees.

* `Setting.Finishes.succeeds` — a run that no fault may end goes through, once it may take enough instructions.
* `Table.Mirrored` — a table whose indexes mirror its rows.
* `Database.truncation_agrees` — both ways of deleting all rows.
-/

namespace QueryMachine

open Machine Emit

/-! ## Steps that give a result -/

namespace Emit

variable {α : Type} {m : Emit α}

theorem total_emitClose (cursors : List Int) : (emitClose cursors).Total fun _ => True := by
  induction cursors with
  | nil => exact total_pure trivial
  | cons c cursors ih => exact (total_op ..).bind fun _ _ => ih

/-- **Steps that give a result and complete a program build one.** -/
theorem build_of_total {reuse : Bool} (htotal : m.Total fun _ => True)
    (hbuilds : m.Builds .lax [] [] [] [.plain .halt 0 0 0]) :
    ∃ program a final, Emit.build reuse m = .ok (program, a) ∧ m.Gives (Builder.fresh reuse) a final ∧
      program.code = final.code := by
  obtain ⟨a, final, hgives, -⟩ := htotal.gives (Builder.fresh reuse)
  have hrun : m.run (Builder.fresh reuse) = .ok a final := hgives
  have hext := hbuilds.gives hgives ((Builder.valid_fresh reuse).ready fun _ _ => id)
  refine ⟨⟨final.code, final.pool.count, final.cursors⟩, a, final, ?_, hgives, rfl⟩
  unfold Emit.build
  simp only [hrun, hext.finish_eq]

end Emit

theorem KeySource.total_emitRowid (source : KeySource) (target : Int) :
    (source.emitRowid target).Total fun _ => True := by
  cases source <;> exact total_op ..

theorem KeySource.total_emitField (source : KeySource) (index : Nat) (target : Int) :
    (source.emitField index target).Total fun _ => True := by
  cases source <;> exact total_op ..

/-- The table has the columns of the index. -/
def Table.Covers (table : Table) (index : Index) : Prop :=
  ∀ name ∈ index.columns, (table.columnIndex? name).isSome = true

instance (table : Table) (index : Index) : Decidable (table.Covers index) :=
  inferInstanceAs (Decidable (∀ name ∈ index.columns, (table.columnIndex? name).isSome = true))

theorem total_emitKeyColumns {table : Table} (source : KeySource) {columns : List String}
    (h : ∀ name ∈ columns, (table.columnIndex? name).isSome = true) (target : Int) :
    (emitKeyColumns table source columns target).Total fun _ => True := by
  induction columns generalizing target with
  | nil => exact total_pure trivial
  | cons name columns ih =>
    obtain ⟨hname, hrest⟩ := List.forall_mem_cons.mp h
    obtain ⟨i, hi⟩ := Option.isSome_iff_exists.mp hname
    simp only [emitKeyColumns, hi]
    split
    · exact (source.total_emitRowid target).bind fun _ _ => ih hrest _
    · exact (source.total_emitField i target).bind fun _ _ => ih hrest _

theorem total_emitKeys {table : Table} (o : Opcode) (source : KeySource) {opened : List OpenIndex}
    (h : ∀ i ∈ opened, table.Covers i.2) : (emitKeys o table source opened).Total fun _ => True := by
  induction opened with
  | nil => exact total_pure trivial
  | cons i opened ih =>
    obtain ⟨hfirst, hrest⟩ := List.forall_mem_cons.mp h
    refine Total.bind (Q := fun _ => True) ?_ fun key _ => (total_opWith ..).bind fun _ _ => ih hrest
    refine (total_modifyGet _).bind fun base _ => (total_emitKeyColumns source hfirst base).bind fun _ _ => ?_
    refine (source.total_emitRowid _).bind fun _ _ => (total_modifyGet _).bind fun record _ => ?_
    exact (total_op ..).bind fun _ _ => total_pure trivial

theorem total_emitOpenIndexes (indexes : List Index) :
    (emitOpenIndexes indexes).Total fun opened => opened.map (·.2) = indexes := by
  induction indexes with
  | nil => exact total_pure rfl
  | cons index rest ih =>
    refine (total_modifyGet _).bind fun cursor _ => (total_opWith ..).bind fun _ _ => ?_
    refine ih.bind fun opened hopened => total_pure ?_
    rw [List.map_cons, hopened]

namespace Deletion

variable {options : Options} {table : Table} {rows : List (Int64 × Bytes)} {store : Store}

theorem total_emitClear (indexes : List Index) : (emitClear indexes).Total fun _ => True := by
  induction indexes with
  | nil => exact total_pure trivial
  | cons index rest ih => exact (total_opWith ..).bind fun _ _ => ih

theorem total_emitTruncate (options : Options) (table : Table) : (emitTruncate options table).Total fun _ => True :=
  total_emitInit.bind fun _ _ => (total_opWith ..).bind fun _ _ => (total_emitClear _).bind fun _ _ =>
    total_op ..

theorem total_emitRows (h : ∀ index ∈ options.indexes table, table.Covers index) :
    (emitRows options table none none).Total fun _ => True := by
  refine (total_modifyGet _).bind fun cursor _ => total_emitInit.bind fun _ _ => ?_
  refine (total_opWith ..).bind fun _ _ => (total_emitOpenIndexes _).bind fun opened hopened => ?_
  refine (total_modifyGet _).bind fun rowSet _ => (total_op ..).bind fun _ _ => ?_
  refine (total_modifyGet _).bind fun done _ => (total_modifyGet _).bind fun collected _ => ?_
  refine Total.bind (Q := fun limit => limit = none) (total_pure rfl) ?_
  rintro _ rfl
  -- The first pass.
  refine Total.bind (Q := fun _ => True) ?_ fun _ _ => ?_
  · refine (total_jump ..).bind fun _ _ => (total_modifyGet _).bind fun scan _ => ?_
    refine (total_modifyGet _).bind fun next _ => Total.bind (Q := fun _ => True) (total_pure trivial) fun _ _ => ?_
    refine (total_modifyGet _).bind fun rowid _ => (total_op ..).bind fun _ _ => (total_op ..).bind fun _ _ => ?_
    refine (total_modifyGet _).bind fun _ _ => Total.bind (Q := fun _ => True) (total_pure trivial) fun _ _ => ?_
    exact (total_bindHere _).bind fun _ _ => total_jump ..
  -- The second pass.
  refine Total.bind (Q := fun _ => True) ?_ fun _ _ => ?_
  · refine (total_bindHere _).bind fun _ _ => (total_modifyGet _).bind fun rowid _ => ?_
    refine (total_jump ..).bind fun _ _ => (total_jump ..).bind fun _ _ => ?_
    refine (total_emitKeys _ _ fun i hi => h _ ?_).bind fun _ _ => ?_
    · exact (congrArg (i.2 ∈ ·) hopened).mp (List.mem_map_of_mem hi)
    refine Total.bind (Q := fun _ => True) ?_ fun _ _ => (total_opWith ..).bind fun _ _ => total_jump ..
    unfold emitCheck
    split
    · exact total_opWith ..
    · exact total_pure trivial
  exact (total_bindHere _).bind fun _ _ => (total_emitClose _).bind fun _ _ => total_op ..

end Deletion

/-! ## Runs that no fault may end -/

/-- **A run that comes to its end, and that no fault may end before, goes through** whenever it may take
enough instructions. -/
theorem Setting.Finishes.succeeds {σ : Setting} {store : Store} {Q : State → Prop} (h : σ.Finishes store Q)
    (hstrict : ∀ f, ¬ σ.Admits f) : ∃ least, ∀ stepLimit, least ≤ stepLimit →
      ∃ e s, Q s ∧ Machine.run { σ.env with stepLimit } store = (.ok e, s.store) := by
  obtain ⟨last, hhalt, hleads⟩ := h
  obtain ⟨n, pc, s, hwalks, ⟨rfl, hQ⟩ | ⟨f, hf, -⟩⟩ := Machine.Leads.walks hleads
  · refine ⟨n + 1, fun stepLimit hle => ?_⟩
    obtain ⟨more, rfl⟩ := Nat.exists_eq_add_of_le hle
    obtain ⟨trace, hrest⟩ := (hwalks.limit (n + 1 + more)).runFrom_eq (more + 1) #[]
    refine ⟨⟨s.rows, trace.push .halt⟩, s, hQ, ?_⟩
    rw [@runFrom_halt_eq { σ.env with stepLimit := n + 1 + more } _ _ hhalt rfl] at hrest
    have hfuel : n + (more + 1) = n + 1 + more := by omega
    rwa [hfuel] at hrest
  · exact absurd hf (hstrict f)

/-! ## Deleting every row -/

/-- The rows of the table are in order, and each of its indexes has exactly the keys of the rows: the
indexed columns as they are read back, and the rowid. -/
structure Table.Mirrored (table : Table) (st : Store) (rows : List (Int64 × Bytes)) : Prop where
  tree : st.tree? table.root = some (.table rows)
  ascending : Rows.Ascending rows
  covers : ∀ index ∈ table.indexes, table.Covers index
  decodes : table.indexes ≠ [] → ∀ row ∈ rows, ∃ values, Record.decode row.2 = .ok values
  encodes : ∀ index ∈ table.indexes, ∀ e ∈ Rows.entries rows, ∃ bytes,
    Record.encode (table.key index.columns e) = .ok bytes
  mirrors : ∀ index ∈ table.indexes, st.Mirrors table index rows

theorem Options.mem_of_mem_indexes {options : Options} {table : Table} {index : Index}
    (h : index ∈ options.indexes table) : index ∈ table.indexes := by
  unfold indexes at h
  split at h
  · exact h
  · cases h

namespace Table.Mirrored

variable {table : Table} {store : Store} {rows : List (Int64 × Bytes)} {options : Options}

theorem tree_of_index (h : table.Mirrored store rows) {index : Index} (hin : index ∈ table.indexes) :
    ∃ keys, store.tree? index.root = some (.index keys) := by
  obtain ⟨keys, hkeys, -⟩ := h.mirrors index hin
  exact ⟨keys, hkeys⟩

theorem outside (h : table.Mirrored store rows) : table.root ∉ (options.indexes table).map (·.root) := by
  intro hin
  obtain ⟨index, hindex, hroot⟩ := List.mem_map.mp hin
  obtain ⟨keys, hkeys⟩ := h.tree_of_index (Options.mem_of_mem_indexes hindex)
  rw [hroot, h.tree] at hkeys
  cases hkeys

theorem clear (h : table.Mirrored store rows) (hkeys : options.foreignKeys = false) :
    Deletion.Clear options table (options.indexes table) rows store where
  decodes hne := h.decodes fun hnil => hne (List.eq_nil_iff_forall_not_mem.mpr fun index hin => by
    have hmem := Options.mem_of_mem_indexes hin
    rw [hnil] at hmem
    cases hmem)
  encodes index hin := h.encodes index (Options.mem_of_mem_indexes hin)
  trees index hin := h.tree_of_index (Options.mem_of_mem_indexes hin)
  unchecked := hkeys

end Table.Mirrored

/-- The DELETE has neither a filter nor a limit that limits. -/
structure Deletion.TakesAll (d : Deletion) : Prop where
  filter : d.filter = none
  limit : d.effectiveLimit? = none

/-- The program of a DELETE of every row, whichever way it takes. -/
theorem Deletion.TakesAll.compile {d : Deletion} (hall : d.TakesAll) {schema : Schema} {options : Options}
    {table : Table} (hlookup : schema.lookup d.table = .ok table)
    (hcovers : ∀ index ∈ options.indexes table, table.Covers index) : ∃ program final,
      d.compile schema options = .ok program ∧ program.code = final.code ∧
      (if d.clears options then emitTruncate options table else emitRows options table none none).Gives
        (Builder.fresh options.reuseTemps) () final := by
  have htotal : (if d.clears options then emitTruncate options table
      else emitRows options table none none).Total fun _ => True := by
    split
    · exact total_emitTruncate options table
    · exact total_emitRows hcovers
  have hbuilds : (if d.clears options then emitTruncate options table
      else emitRows options table none none).Builds .lax [] [] [] [.plain .halt 0 0 0] := by
    split
    · exact emitTruncate_builds
    · exact emitRows_builds
  obtain ⟨program, _, final, hbuild, hgives, hcode⟩ := build_of_total htotal hbuilds
  refine ⟨program, final, ?_, hcode, hgives⟩
  simp only [Deletion.compile, hlookup, hall.filter, hall.limit, Scope.resolvePlain?, bind, Except.bind, pure,
    Except.pure]
  rw [hbuild]

namespace Database

variable {db : Database} {d : Deletion} {table : Table} {rows : List (Int64 × Bytes)}

/-- **A DELETE of every row goes through**, whichever way it takes, and deletes every row with its keys. -/
theorem execute_takesAll (db : Database) (hlookup : db.schema.lookup d.table = .ok table) (hall : d.TakesAll)
    (hkeys : db.options.foreignKeys = false) (h : table.Mirrored db.store rows) :
    ∃ least, ∀ stepLimit, least ≤ stepLimit → ∃ answer db',
      { db with stepLimit }.execute (.delete d) = (.ok answer, db') ∧
        db.store.Written table (db.options.indexes table) (fun _ => True) rows [] db'.store := by
  have hcovers : ∀ index ∈ db.options.indexes table, table.Covers index :=
    fun index hin => h.covers index (Options.mem_of_mem_indexes hin)
  obtain ⟨program, final, hcompile, hcode, hgives⟩ := hall.compile hlookup hcovers
  let σ := Setting.strict final (db.environment program) hcode
  have hfinishes : σ.Finishes db.store fun s =>
      db.store.Written table (db.options.indexes table) (fun _ => True) rows [] s.store := by
    split at hgives
    · refine Deletion.emitTruncate_leads hgives rfl (.inr fun index hin hnone => ?_) h.tree h.outside
      obtain ⟨keys, htree⟩ := h.tree_of_index (Options.mem_of_mem_indexes hin)
      cases hnone.symm.trans htree
    · obtain ⟨last, hhalt, hleads⟩ := Deletion.emitRows_leads (σ := σ) hgives rfl (fun _ _ _ => trivial)
        (.inr ⟨rfl, h.clear hkeys⟩) nofun h.tree h.ascending
      refine ⟨last, hhalt, hleads.mono ?_⟩
      rintro pc s (⟨rfl, hwritten, -⟩ | ⟨_, _, _, _, _, _, hbreach⟩)
      · refine ⟨rfl, ?_⟩
        rwa [Option.map_none, Deletion.remaining_all] at hwritten
      · cases hkeys.symm.trans hbreach.checked
  obtain ⟨least, hruns⟩ := hfinishes.succeeds fun _ => id
  refine ⟨least, fun stepLimit hle => ?_⟩
  obtain ⟨e, s, hwritten, hrun⟩ := hruns stepLimit hle
  refine ⟨⟨[], e⟩, { db with store := s.store, stepLimit }, ?_, hwritten⟩
  have hprogram : { db with stepLimit }.compile (.delete d) = .ok (program, []) := by
    simp only [Database.compile, Statement.compile, hcompile]
  simp only [Database.execute, hprogram, Database.run]
  rw [show Machine.run ⟨program.code, db.schema, db.foreignKeys, stepLimit⟩ db.store = _ from hrun]
  rfl

/-- Where all rows are deleted, the trees are told by the trees before. -/
theorem tree?_of_written {indexes : List Index} {st st' : Store}
    (h : st.Written table indexes (fun _ => True) rows [] st')
    (hmirrors : ∀ index ∈ indexes, st.Mirrors table index rows) (root : Int) :
    st'.tree? root = if root = table.root then some (.table [])
      else if root ∈ indexes.map (·.root) then some (.index []) else st.tree? root := by
  split
  · rename_i hroot
    rw [hroot, h.tree]
  · rename_i hroot
    split
    · rename_i hin
      obtain ⟨index, hindex, rfl⟩ := List.mem_map.mp hin
      obtain ⟨keys, hkeys, hempty⟩ := h.mirrors index hindex trivial (hmirrors index hindex)
      have hnil : keys = [] := List.eq_nil_iff_forall_not_mem.mpr fun key hkey => by
        obtain ⟨e, he, -⟩ := (hempty key).mp hkey
        rw [Rows.entries_eq_map] at he
        cases he
      rw [hkeys, hnil]
    · rename_i hin
      exact h.only.other root (by simp [hroot, hin])

/-- **Clearing the trees and deleting the rows one by one come to the same**: a DELETE of every row goes
through either way, and leaves the same trees, the table without a row. -/
theorem truncation_agrees (hlookup : db.schema.lookup d.table = .ok table) (hall : d.TakesAll)
    (hkeys : db.options.foreignKeys = false) (h : table.Mirrored db.store rows) :
    ∃ least, ∀ stepLimit, least ≤ stepLimit → ∃ answer answer' cleared deleted,
      { db with options := { db.options with truncate := true }, stepLimit }.execute (.delete d) =
        (.ok answer, cleared) ∧
      { db with options := { db.options with truncate := false }, stepLimit }.execute (.delete d) =
        (.ok answer', deleted) ∧
      cleared.store.tree? table.root = some (.table []) ∧
      ∀ root, cleared.store.tree? root = deleted.store.tree? root := by
  obtain ⟨least, hclears⟩ := execute_takesAll { db with options := { db.options with truncate := true } }
    hlookup hall hkeys h
  obtain ⟨least', hdeletes⟩ := execute_takesAll { db with options := { db.options with truncate := false } }
    hlookup hall hkeys h
  refine ⟨max least least', fun stepLimit hle => ?_⟩
  obtain ⟨answer, cleared, hrun, hwritten⟩ := hclears stepLimit (Nat.le_trans (Nat.le_max_left ..) hle)
  obtain ⟨answer', deleted, hrun', hwritten'⟩ := hdeletes stepLimit (Nat.le_trans (Nat.le_max_right ..) hle)
  have hmirrors : ∀ index ∈ db.options.indexes table, db.store.Mirrors table index rows :=
    fun index hin => h.mirrors index (Options.mem_of_mem_indexes hin)
  refine ⟨answer, answer', cleared, deleted, hrun, hrun', hwritten.tree, fun root => ?_⟩
  exact (tree?_of_written hwritten hmirrors root).trans (tree?_of_written hwritten' hmirrors root).symm

/-- The three rows of `letters`, with an index on their one column twice. -/
def indexedLetters : Database := (letters.execute (.createIndex ⟨"x", "t", ["a", "a"], false, false⟩)).2

/-- A negative limit does not limit. -/
def everyLetter : Deletion := ⟨"t", none, some (-1)⟩

theorem exists_of_toBool {ε α : Type} {r : Except ε α} (h : r.toBool = true) : ∃ a, r = .ok a := by
  cases r with
  | error e => cases h
  | ok a => exact ⟨a, rfl⟩

/-- The table of `indexedLetters`. -/
def indexedTable : Table :=
  ⟨"t", 2, [⟨"a", "TEXT", .text, false, false, none⟩], [], [⟨"x", 3, ["a", "a"], false⟩]⟩

/-- Its rows: 'b', 'a' and NULL. -/
def indexedRows : List (Int64 × Bytes) := [(1, [2, 15, 98]), (2, [2, 15, 97]), (3, [2, 0])]

theorem mirrored_letters : indexedTable.Mirrored indexedLetters.store indexedRows where
  tree := by decide +kernel
  ascending := by simp [Rows.Ascending, indexedRows]
  covers := by decide +kernel
  decodes _ row hrow := exists_of_toBool <|
    (by decide +kernel : ∀ row ∈ indexedRows, (Record.decode row.2).toBool = true) row hrow
  encodes index hin e he := exists_of_toBool <|
    (by decide +kernel : ∀ index ∈ indexedTable.indexes, ∀ e ∈ Rows.entries indexedRows,
      (Record.encode (indexedTable.key index.columns e)).toBool = true) index hin e he
  mirrors index hin := by
    obtain rfl := List.mem_singleton.mp hin
    refine Store.Indexed.mirrors ⟨[[.null, .null, .int 3], [.text "a", .text "a", .int 2],
      [.text "b", .text "b", .int 1]], by decide +kernel, by decide +kernel⟩

theorem truncation_agrees_letters : indexedLetters.schema.lookup "t" = .ok indexedTable ∧
    ∃ least, ∀ stepLimit, least ≤ stepLimit → ∃ answer answer' cleared deleted,
      { indexedLetters with options := { indexedLetters.options with truncate := true }, stepLimit }.execute
        (.delete everyLetter) = (.ok answer, cleared) ∧
      { indexedLetters with options := { indexedLetters.options with truncate := false }, stepLimit }.execute
        (.delete everyLetter) = (.ok answer', deleted) ∧
      cleared.store.tree? 2 = some (.table []) ∧
      ∀ root, cleared.store.tree? root = deleted.store.tree? root := by
  have hlookup : indexedLetters.schema.lookup "t" = .ok indexedTable := by decide +kernel
  exact ⟨hlookup, truncation_agrees (d := everyLetter) hlookup ⟨rfl, by decide +kernel⟩ (by decide +kernel)
    mirrored_letters⟩

end Database

end QueryMachine
