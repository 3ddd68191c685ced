import QueryMachine.Proofs.Database.Effect
import QueryMachine.Proofs.Database.Insert
import QueryMachine.Proofs.Database.Reachable

/-!
# INSERT with assigned rowids

A row that gives no rowid gets the one after the largest. As long as the rowids do not reach the end of
their range, nothing is overwritten: the rows of the table stay as they are, and the new rows follow them in
the order in which they are written.

* `Rows.following` — the rowid after the largest, without a bound.
* `Insertion.written` — the fields of a row that is stored, column by column.
* `Insertion.Unkeyed` — no row gives a rowid.
* `Insertion.Appends` — rows that follow the rows of a table.
* `Database.insert_assigned` — what an INSERT that succeeds adds.
-/

namespace QueryMachine

variable {table : Table} {rows rows' : List (Int64 × Bytes)} {last : Option Entry}
  {values : List (Nat × Resolved)} {more : List (List (Nat × Resolved))}

/-! ## The rowid after the largest -/

namespace Rows

/-- One above the largest rowid; 1 where there is none. -/
def following (rows : List (Int64 × Bytes)) : Int :=
  match rows.getLast? with
  | some row => row.1.toInt + 1
  | none => 1

@[simp] theorem following_concat (rows : List (Int64 × Bytes)) (row : Int64 × Bytes) :
    following (rows ++ [row]) = row.1.toInt + 1 := by
  simp [following]

/-- Every rowid is below the one that follows. -/
theorem Ascending.lt_following (h : Ascending rows) {row : Int64 × Bytes} (hrow : row ∈ rows) :
    row.1.toInt < following rows := by
  rcases List.eq_nil_or_concat rows with rfl | ⟨front, largest, rfl⟩
  · cases hrow
  · rw [List.concat_eq_append] at h hrow ⊢
    rw [following_concat]
    rcases List.mem_append.mp hrow with hrow | hrow
    · have hlt := (List.pairwise_append.mp h).2.2 row hrow largest List.mem_cons_self
      rw [Int64.lt_iff_toInt_lt] at hlt
      omega
    · rw [List.mem_singleton.mp hrow]
      omega

theorem following_low (rows : List (Int64 × Bytes)) : -0x8000000000000000 < following rows := by
  unfold following
  split
  · rename_i row _
    have := (Integer.toInt_bounds row.1).1
    omega
  · decide

/-- Within the range of rowids, the next rowid is the one that follows. -/
theorem toInt_nextRowid (h : following rows ≤ 0x7FFFFFFFFFFFFFFF) :
    (Tree.table rows).nextRowid.toInt = following rows := by
  have hlow := following_low rows
  cases hlast : rows.getLast? with
  | none =>
    simp only [following, Tree.nextRowid, hlast]
    rfl
  | some row =>
    simp only [following, hlast] at h hlow
    simp only [following, Tree.nextRowid, hlast]
    exact Integer.toInt_clamp (by omega) h

end Rows

/-! ## The rows that are added -/

namespace Insertion

/-- The fields of a row that is stored: NULL in place of the rowid, and else the value that the row gives
the column, under the affinity of the column. -/
def written (table : Table) (last : Option Entry) (values : List (Nat × Resolved)) : List Value :=
  table.columns.mapIdx fun j column =>
    if table.rowidIndex? = some j then .null else (given values last j column).withAffinity column.affinity

theorem getElem?_fields (table : Table) (last : Option Entry) (values : List (Nat × Resolved)) (j : Nat) :
    (fields table (row table values last))[j]? = table.columns[j]?.map fun column =>
      if table.rowidIndex? = some j then .null else given values last j column := by
  unfold fields
  split
  · rename_i hnone
    simp [row, hnone]
  · rename_i i hsome
    by_cases hij : i = j
    · subst hij
      by_cases hi : i < table.columns.length
      · simp [row, hsome, hi]
      · simp [row, hi]
    · simp [row, hsome, hij]

/-- What is stored of a row is what it gives. -/
theorem stored_fields (table : Table) (last : Option Entry) (values : List (Nat × Resolved)) :
    table.stored (fields table (row table values last)) = written table last values := by
  have hlength : (fields table (row table values last)).length = table.columns.length := by
    unfold fields row
    split <;> simp
  refine List.ext_getElem (by simp [written, Table.length_stored, hlength]) fun j hj hj' => ?_
  have hcolumn : j < table.columns.length := by simpa [written] using hj'
  have hstored := table.getD_stored (fields table (row table values last)) j
  rw [List.getD_eq_getElem?_getD, List.getElem?_eq_getElem hj, Option.getD_some, List.getD_eq_getElem?_getD,
    getElem?_fields, Table.affinityAt, List.getElem?_eq_getElem hcolumn] at hstored
  rw [hstored]
  simp only [written, List.getElem_mapIdx, Option.map_some, Option.getD_some]
  split
  · exact Value.withAffinity_null _
  · rfl

/-- No row gives a rowid. The rows get the rowids from `next` on, and each reads the one stored before. -/
def Unkeyed (table : Table) : (next : Int) → Option Entry → List (List (Nat × Resolved)) → Prop
  | _, _, [] => True
  | next, last, values :: more =>
    (∀ i, table.rowidIndex? = some i → (row table values last).getD i .null = .null) ∧
      Unkeyed table (next + 1) (some (Int64.ofInt next, written table last values)) more

/-- The row stored before the row at position `k` of the new ones. -/
def previous (last : Option Entry) (new : List (Int64 × Bytes)) : (k : Nat) → Option Entry
  | 0 => last
  | k + 1 => new[k]?.map Rows.entry

/-- The new rows have the rowids from `next` on, one for each row that is given, and hold what it gives. -/
structure Appends (table : Table) (next : Int) (last : Option Entry) (values : List (List (Nat × Resolved)))
    (new : List (Int64 × Bytes)) : Prop where
  length : new.length = values.length
  rowids : ∀ (k : Nat) row, new[k]? = some row → row.1.toInt = next + k
  records : ∀ (k : Nat) row given, new[k]? = some row → values[k]? = some given →
    Record.decode row.2 = .ok (written table (previous last new k) given)

theorem Appends.nil {next : Int} : Appends table next last [] [] :=
  ⟨rfl, fun _ _ h => by simp at h, fun _ _ _ h => by simp at h⟩

/-- One row, and then the rows after it. -/
theorem Appends.cons {next : Int} {id : Int64} {record : Bytes} {new : List (Int64 × Bytes)}
    (hid : id.toInt = next) (hrecord : Record.decode record = .ok (written table last values))
    (h : Appends table (next + 1) (some (id, written table last values)) more new) :
    Appends table next last (values :: more) ((id, record) :: new) := by
  have hentry : Rows.entry (id, record) = (id, written table last values) := by
    simp [Rows.entry, hrecord, Except.toOption]
  refine ⟨congrArg (· + 1) h.length, ?_, ?_⟩
  · intro k row hrow
    cases k with
    | zero =>
      cases hrow
      simpa using hid
    | succ k =>
      have := h.rowids k row hrow
      push_cast
      omega
  · intro k row given hrow hgiven
    cases k with
    | zero =>
      cases hrow
      cases hgiven
      exact hrecord
    | succ k =>
      have hdecode := h.records k row given hrow hgiven
      rw [hdecode]
      cases k with
      | zero => simp [previous, hentry]
      | succ k => rfl

/-- A row that gives no rowid is stored at the end, under the rowid that follows. -/
theorem entryOf_of_unkeyed (hroom : Rows.following rows ≤ 0x7FFFFFFFFFFFFFFF)
    (hkey : ∀ i, table.rowidIndex? = some i → (row table values last).getD i .null = .null) {e : Entry}
    (he : entryOf table rows last values = some e) :
    e = (Int64.ofInt (Rows.following rows), written table last values) ∧ e.1.toInt = Rows.following rows := by
  have hnext := Rows.toInt_nextRowid hroom
  have hid : rowid? table (row table values last) (Tree.table rows).nextRowid =
      some (Tree.table rows).nextRowid := by
    unfold rowid?
    split
    · rfl
    · rename_i i hi
      rw [hkey i hi, Value.withAffinity_null]
  rw [entryOf, hid, stored_fields] at he
  cases he
  refine ⟨?_, hnext⟩
  rw [← hnext, Int64.ofInt_toInt]

/-- **Rows that give no rowid are appended**, as long as there are rowids for them. -/
theorem Stored.appends {values : List (List (Nat × Resolved))} (h : Stored table last rows values rows')
    (hrows : Rows.Ascending rows) (hroom : Rows.following rows + values.length ≤ 0x8000000000000000)
    (hunkeyed : Unkeyed table (Rows.following rows) last values) :
    ∃ new, rows' = rows ++ new ∧ Appends table (Rows.following rows) last values new := by
  induction h with
  | nil => exact ⟨[], (List.append_nil _).symm, .nil⟩
  | @cons last rows rows' values more e record hentry hencode hstored ih =>
    rw [List.length_cons] at hroom
    obtain ⟨hkey, hrest⟩ := hunkeyed
    obtain ⟨he, hid⟩ := entryOf_of_unkeyed (by omega) hkey hentry
    have hput : Rows.put e.1 record rows = rows ++ [(e.1, record)] := by
      refine Rows.put_of_forall_lt fun row hrow => ?_
      rw [Int64.lt_iff_toInt_lt, hid]
      exact hrows.lt_following hrow
    have hfollowing : Rows.following (Rows.put e.1 record rows) = Rows.following rows + 1 := by
      rw [hput, Rows.following_concat, hid]
    rw [← he, ← hfollowing] at hrest
    obtain ⟨new, rfl, hnew⟩ := ih hrows.put (by omega) hrest
    refine ⟨(e.1, record) :: new, by rw [hput, List.append_assoc]; rfl, ?_⟩
    have hwritten : e.2 = written table last values := by rw [he]
    have hself : e = (e.1, written table last values) := by rw [← hwritten]
    rw [hfollowing, hself] at hnew
    exact .cons hid (hwritten ▸ Record.decode_encode hencode) hnew

end Insertion

/-! ## Whole statements -/

namespace Database

variable {db db' : Database} {i : Insertion} {answer : Answer} {values : List (List (Nat × Resolved))}

/-- An INSERT that succeeds found a table, and stored its rows in it. -/
theorem insert_stores (hdb : db.store.Ascending) (hvalid : i.validate db.schema = .ok (table, values))
    (hrun : db.execute (.insert i) = (.ok answer, db')) :
    ∃ rows rows', db.store.tree? table.root = some (.table rows) ∧ Rows.Ascending rows ∧
      Insertion.Stored table none rows values rows' ∧ db'.store.tree? table.root = some (.table rows') := by
  obtain ⟨program, columns, hcompile, hrun, -⟩ := execute_ok hrun
  obtain ⟨⟨table', values'⟩, hvalid', hprogram⟩ := bind_eq_ok.mp (compile_of_compile hcompile nofun)
  cases hvalid.symm.trans hvalid'
  obtain ⟨final, hgives, hcode⟩ := Emit.build_of_ok hprogram
  obtain ⟨rows, rows', htree, hstored, hwritten⟩ := Insertion.emit_writes hgives hcode hrun
    (fun rows htree => hdb _ rows htree) (Insertion.values_ne_nil hvalid)
  exact ⟨rows, rows', htree, hdb _ rows htree, hstored, hwritten.tree⟩

/-- **An INSERT that is given no rowids loses nothing**, as long as there are rowids for its rows: the rows of
the table stay as they are, and the new rows follow them, one for each row of the statement. -/
theorem insert_assigned (hdb : db.Reachable) (hvalid : i.validate db.schema = .ok (table, values))
    (hrun : db.execute (.insert i) = (.ok answer, db'))
    (hunkeyed : ∀ rows, db.store.tree? table.root = some (.table rows) →
      Insertion.Unkeyed table (Rows.following rows) none values)
    (hroom : ∀ rows, db.store.tree? table.root = some (.table rows) →
      Rows.following rows + values.length ≤ 0x8000000000000000) :
    ∃ rows new, db.store.tree? table.root = some (.table rows) ∧
      db'.store.tree? table.root = some (.table (rows ++ new)) ∧ new.length = i.rows.length ∧
      (∀ row ∈ rows, row.1.toInt < Rows.following rows) ∧
      Insertion.Appends table (Rows.following rows) none values new := by
  obtain ⟨rows, rows', htree, hrows, hstored, htree'⟩ := insert_stores hdb.ascending hvalid hrun
  obtain ⟨new, rfl, hnew⟩ := hstored.appends hrows (hroom rows htree) (hunkeyed rows htree)
  obtain ⟨-, -, _, -, hvalues⟩ := Insertion.gives_of_validate hvalid
  exact ⟨rows, new, htree, htree', hnew.length.trans hvalues.length_eq.symm,
    fun row hrow => hrows.lt_following hrow, hnew⟩

/-! ## A table with one row -/

/-- A table whose one row was given its rowid. -/
def numbered (id : Int64) : Database :=
  (((empty .standard).execute (.createTable ⟨"t", [⟨"id", "INTEGER", true, false⟩, ⟨"a", "TEXT", false, false⟩],
    false⟩)).2.execute (.insert ⟨"t", [], [[.lit (.int id), .lit (.text "x")]]⟩)).2

theorem reachable_numbered (id : Int64) : (numbered id).Reachable := .execute (.execute (.empty _) _) _

/-- The table of `numbered`. -/
def numberedTable : Table :=
  ⟨"t", 2, [⟨"id", "INTEGER", .integer, true, false, none⟩, ⟨"a", "TEXT", .text, false, false, none⟩], ["id"], []⟩

/-- Two rows without a rowid; the first lists a column twice. -/
def unkeyedRows : Insertion := ⟨"t", ["a", "a"], [[.lit (.int 6), .lit (.int 7)], [.lit .null, .lit .null]]⟩

theorem schema_numbered : (numbered 5).schema = [numberedTable] := by decide +kernel

theorem tree_numbered : (numbered 5).store.tree? 2 = some (.table [(5, [3, 0, 15, 120])]) := by decide +kernel

/-- The rows follow the one that is there, and the value given last is stored under the affinity of its
column. -/
theorem insert_assigned_following : (numbered 5).Reachable ∧ ∃ values answer db' new,
    unkeyedRows.validate (numbered 5).schema = .ok (numberedTable, values) ∧
      (numbered 5).execute (.insert unkeyedRows) = (.ok answer, db') ∧
      db'.store.tree? 2 = some (.table ([(5, [3, 0, 15, 120])] ++ new)) ∧ new.length = 2 ∧
      Insertion.Appends numberedTable 6 none values new := by
  have hresult : ((numbered 5).execute (.insert unkeyedRows)).1.toOption.isSome = true := by decide +kernel
  have hvalid : unkeyedRows.validate (numbered 5).schema = .ok (numberedTable,
      [[(1, .lit (.int 6)), (1, .lit (.int 7))], [(1, .lit .null), (1, .lit .null)]]) := by
    rw [schema_numbered]
    rfl
  rcases hrun : (numbered 5).execute (.insert unkeyedRows) with ⟨result, db'⟩
  rw [hrun] at hresult
  cases result with
  | error f => cases hresult
  | ok answer =>
    obtain ⟨rows, new, htree, htree', hlength, -, happends⟩ := insert_assigned (reachable_numbered 5) hvalid hrun
      (fun rows htree => by
        cases tree_numbered.symm.trans htree
        refine ⟨fun i hi => ?_, fun i hi => ?_, trivial⟩
        all_goals
          cases hi
          rfl)
      (fun rows htree => by
        cases tree_numbered.symm.trans htree
        decide)
    cases tree_numbered.symm.trans htree
    exact ⟨reachable_numbered 5, _, answer, db', new, hvalid, rfl, htree', hlength, happends⟩

/-- **At the end of the range the row that is there is overwritten.** -/
theorem insert_assigned_overwrites : (numbered 9223372036854775807).Reachable ∧
    (numbered 9223372036854775807).store.tree? 2 = some (.table [(9223372036854775807, [3, 0, 15, 120])]) ∧
    ∃ answer db', (numbered 9223372036854775807).execute
        (.insert ⟨"t", [], [[.lit .null, .lit (.text "y")]]⟩) = (.ok answer, db') ∧
      db'.store.tree? 2 = some (.table [(9223372036854775807, [3, 0, 15, 121])]) := by
  refine ⟨reachable_numbered _, by decide +kernel, ?_⟩
  have hresult : ((numbered 9223372036854775807).execute
      (.insert ⟨"t", [], [[.lit .null, .lit (.text "y")]]⟩)).1.toOption.isSome = true := by decide +kernel
  have htree : ((numbered 9223372036854775807).execute
      (.insert ⟨"t", [], [[.lit .null, .lit (.text "y")]]⟩)).2.store.tree? 2 =
        some (.table [(9223372036854775807, [3, 0, 15, 121])]) := by decide +kernel
  rcases hrun : (numbered 9223372036854775807).execute (.insert ⟨"t", [], [[.lit .null, .lit (.text "y")]]⟩) with
    ⟨result, db'⟩
  rw [hrun] at hresult htree
  cases result with
  | error f => cases hresult
  | ok answer => exact ⟨answer, db', rfl, htree⟩

end Database

end QueryMachine
