import QueryMachine.Proofs.Compile.Whole
import QueryMachine.Proofs.Database.Writing

/-!
# UPDATE

An UPDATE goes through the rows of a table once. A row that the filter lets pass is deleted and stored
again under its rowid, with the new values in place of the old ones; every new value is computed from
the row as it was.

* `Change.fields` — the values of a row after the assignments.
* `Change.Rewrites` — a row before and after.
* `Change.operations` — what is done to rows on the way.
* `Change.emit_parts` — the program: what it opens, its loop, and its end.
* `Change.emit_performs`, `Change.emit_writes` — what running an UPDATE does.
-/

namespace QueryMachine

open Machine Emit

variable {σ : Setting} {b b' : Builder} {s s' : State} {table : Table} {e : Entry} {c : Int}
  {opened : List OpenIndex} {rows : List (Int64 × Bytes)}

namespace Change

/-! ## What is stored -/

/-- The columns of a row as they are; NULL in place of the rowid. -/
def old (table : Table) (e : Entry) : List Value :=
  table.columns.mapIdx fun i column => if column.isRowid then .null else e.2.getD i .null

/-- The columns of a row after the assignments, of which the last one to a column counts. -/
def fields (r : Resolution) (e : Entry) : List Value :=
  r.assignments.foldl (fun values a => values.set a.1 (a.2.eval e.read)) (old r.table e)

/-- A row before and after: it is stored anew where the filter lets it pass. -/
def Rewrites (r : Resolution) (row row' : Int64 × Bytes) : Prop :=
  if Expr.holds (Rows.entry row).read r.filter then
    row'.1 = row.1 ∧ Record.encode (r.table.stored (fields r (Rows.entry row))) = .ok row'.2
  else row' = row

/-- What is done to rows for one row: where the filter lets it pass it is deleted and stored again. -/
def operations (r : Resolution) (row : Int64 × Bytes) : List Opcode :=
  if Expr.holds (Rows.entry row).read r.filter then [.delete, .insert] else []

/-- The new values of the indexed columns are stored as they are. -/
def Tends (r : Resolution) (index : Index) (rows : List (Int64 × Bytes)) : Prop :=
  ∀ row ∈ rows, Expr.holds (Rows.entry row).read r.filter = true →
    r.table.Settled index (fields r (Rows.entry row))

theorem length_foldl_set (assignments : List (Nat × Resolved)) (f : Resolved → Value) (values : List Value) :
    (assignments.foldl (fun values a => values.set a.1 (f a.2)) values).length = values.length := by
  induction assignments generalizing values with
  | nil => rfl
  | cons a assignments ih => rw [List.foldl_cons, ih, List.length_set]

theorem length_fields (r : Resolution) (e : Entry) : (fields r e).length = r.table.columns.length := by
  rw [fields, length_foldl_set _ (·.eval e.read), old, List.length_mapIdx]

/-! ## The columns of a row -/

theorem emitOld_gives {column : Column} {columns : List Column} {i : Nat} {target : Int}
    (h : (emitOld c (column :: columns) i target).Gives b () b') :
    ∃ j, (emitOld c columns (i + 1) (target + 1)).Gives (b.emit j) () b' ∧ ∀ s e, 0 < target → s.StandsOn c e →
        Loads j s target (if column.isRowid then .null else e.2.getD i .null) := by
  unfold emitOld at h
  split at h
  · rename_i hrowid
    simp only [gives_bind, gives_op] at h
    obtain ⟨_, b1, rfl, hrest⟩ := h
    refine ⟨_, hrest, fun s e hpos _ => .inl ⟨rfl, fun env pc => ?_⟩⟩
    rw [if_pos hrowid]
    simp only [execute, Instruction.plain, setNulls_one (Int.le_of_lt hpos)]
  · rename_i hrowid
    simp only [gives_bind, gives_op] at h
    obtain ⟨_, b1, rfl, hrest⟩ := h
    refine ⟨_, hrest, fun s e _ hstands => ?_⟩
    rw [if_neg hrowid]
    exact loads_column hstands i target

/-- The columns of the row under the cursor come to stand in its block. -/
theorem emitOld_leads [σ.Lenient] {columns : List Column} {i : Nat} {target : Int}
    (h : (emitOld c columns i target).Gives b () b') (hb : b.Valid) (ht : 0 < target) (hend : b'.Begins σ.final)
    (hstands : s.StandsOn c e) : σ.Leads (fun pc s' => pc = b'.address ∧ s'.getBlock target columns.length =
        columns.mapIdx (fun k column => if column.isRowid then .null else e.2.getD (i + k) .null) ∧
      Quiet (fun r => 0 < r ∧ (r < target ∨ target + columns.length ≤ r)) (fun _ => True) s s') b.address s := by
  induction columns generalizing i target b s with
  | nil =>
    obtain ⟨-, rfl⟩ := gives_pure.mp h
    exact .here ⟨rfl, rfl, .refl s⟩
  | cons column columns ih =>
    obtain ⟨j, hrest, hj⟩ := emitOld_gives h
    have h1 := (Builder.Grows.refl hb).emit j
    have hend1 := (hrest.grows h1.valid).begins.trans hend
    simp only [List.length_cons] at ht ⊢
    refine ((hj s e ht hstands).leads hend1).bind ?_
    rintro pc s1 ⟨rfl, rfl⟩
    have hq1 : Quiet (fun r => 0 < r ∧ r ≠ target) (fun _ => True) s (s.set target
        (if column.isRowid then .null else e.2.getD i .null)) := .set s _ fun r hr => hr
    refine (ih hrest h1.valid (by omega) ⟨?_, ?_⟩).mono ?_
    · refine hstands.1.imp (fun h pc => ?_) fun h pc => ?_
      · rw [currentRowid_congr (hq1.cursors c trivial)]
        exact h pc
      · rw [currentRowid_congr (hq1.cursors c trivial)]
        exact h pc
    · refine hstands.2.imp (fun h pc => ?_) fun ⟨error, h⟩ => ⟨error, fun pc => ?_⟩
      · rw [currentRow_congr hq1.store (hq1.cursors c trivial)]
        exact h pc
      · rw [currentRow_congr hq1.store (hq1.cursors c trivial)]
        exact h pc
    rintro pc s' ⟨rfl, hblock, hq⟩
    refine ⟨rfl, ?_, .trans (hq1.mono ?_ fun _ h => h) (hq.mono ?_ fun _ h => h)⟩
    · rw [State.getBlock_succ, hblock, hq.get target ⟨ht, by omega⟩, State.get_set_self,
        List.mapIdx_cons]
      simp only [Nat.add_zero, Nat.add_comm, Nat.add_left_comm]
    · rintro r ⟨hr, hout⟩
      omega
    · rintro r ⟨hr, hout⟩
      omega

/-- The assigned columns get their new values. -/
theorem emitNew_leads {base : Int} {count : Nat} {assignments : List (Nat × Resolved)}
    (h : (emitNew base assignments).Gives b () b') (hb : b.Valid) (hblock : b.HoldsBlock base count)
    (hend : b'.Begins σ.final) (hin : ∀ a ∈ assignments, a.1 < count) {read : Place → Value}
    (hreads : ∀ p, s.Shows p (read p) ∨ s.Hides σ.Admits p) :
    σ.Leads (fun pc s' => pc = b'.address ∧ s'.getBlock base count = assignments.foldl
        (fun values a => values.set a.1 (a.2.eval read)) (s.getBlock base count) ∧
      Quiet (fun r => b.Holds r ∧ (r < base ∨ base + count ≤ r)) (fun _ => True) s s') b.address s := by
  induction assignments generalizing b s with
  | nil =>
    obtain ⟨-, rfl⟩ := gives_pure.mp h
    exact .here ⟨rfl, rfl, .refl s⟩
  | cons a assignments ih =>
    obtain ⟨_, b1, hexpr, hrest⟩ := gives_bind.mp h
    have h1 := hexpr.grows hb
    have hend1 := (hrest.grows h1.valid).begins.trans hend
    have hlt := hin a List.mem_cons_self
    refine (emitExpr_leads hexpr hb (Int.le_of_lt (hblock _ (by omega) (by omega)).1) nofun hend1
      (denotes_eval a.2 fun p _ => hreads p)).bind ?_
    rintro pc s1 ⟨rfl, hget, hq1⟩
    refine (ih hrest h1.valid (h1.holdsBlock hblock) (fun a ha => hin a (List.mem_cons_of_mem _ ha))
      fun p => (hreads p).imp (hq1.toFrame.shows trivial) (hq1.toFrame.hides trivial)).mono ?_
    rintro pc s' ⟨rfl, hfold, hq⟩
    refine ⟨rfl, ?_, .trans (hq1.mono ?_ fun _ h => h) (hq.mono ?_ fun _ h => h)⟩
    · rw [hfold, List.foldl_cons,
        hq1.toFrame.getBlock_set (fun r hle hlt hne => ⟨hblock r hle hlt, hne⟩) hget]
    · rintro r ⟨hr, hout⟩
      exact ⟨hr, by omega⟩
    · rintro r ⟨hr, hout⟩
      exact ⟨h1.holds r hr, hout⟩

/-! ## One row -/

/-- The record of a row is made from its block. -/
theorem makeRecord_leads [σ.Lenient] {base record : Int} {values : List Value}
    (hend : (b.emit ⟨.makeRecord, base, table.columns.length, record, .affinity table.affinityCodes, 0⟩).Begins
      σ.final)
    (hblock : s.getBlock base table.columns.length = values) :
    σ.Leads (fun pc s' => pc = (b.emit ⟨.makeRecord, base, table.columns.length, record,
        .affinity table.affinityCodes, 0⟩).address ∧
      ∃ bytes, Record.encode (table.stored values) = .ok bytes ∧ s' = s.set record (.blob bytes)) b.address s := by
  have hstored : applyAffinities table.affinityCodes.toList values = table.stored values := rfl
  cases hencode : Record.encode (table.stored values) with
  | error error =>
    refine .failed hend (f := .rejected error) ?_ (σ.admits _ rfl)
    simp only [execute, makeRecord, hblock]
    rw [hstored, hencode]
  | ok bytes =>
    refine .op hend rfl (t := s.set record (.blob bytes)) ?_ (.here ⟨rfl, bytes, rfl, rfl⟩)
    simp only [execute, makeRecord, hblock]
    rw [hstored, hencode]

/-- A row that the filter lets pass is stored anew: the keys that it had are taken out, and the keys
that it gets are put in. -/
theorem rewrite_performs [σ.Lenient] {r : Resolution} {rowid base record : Int} {b1 b2 b3 : Builder}
    {before rest : List (Int64 × Bytes)} {row : Int64 × Bytes}
    (hold : (emitOld c r.table.columns 0 base).Gives b () b1)
    (hnew : (emitNew base r.assignments).Gives b1 () b2)
    (hout : (emitKeys .idxDelete r.table (.row c) opened).Gives b2 () b3)
    (hinto : (emitKeys .idxInsert r.table (.registers base rowid) opened).Gives
      (((b3.emit ⟨.makeRecord, base, r.table.columns.length, record, .affinity r.table.affinityCodes,
        0⟩).emit ⟨.delete, c, 0, 0, .table r.table.name, 0⟩).emit
        ⟨.insert, c, record, rowid, .table r.table.name, 0⟩) () b')
    (hb : b.Valid) (hend : b'.Begins σ.final)
    (hdelete : σ.PermitsDelete) (hinsert : σ.PermitsInsert r.table)
    (hregisters : RowRegisters b r.table rowid base record)
    (hin : ∀ a ∈ r.assignments, a.1 < r.table.columns.length)
    (hw : Writing s c r.table opened (before ++ row :: rest) (some (.rowid row.1)))
    (hrowid : s.get rowid = .int row.1) :
    σ.Performs [.delete, .insert] (fun pc s' => pc = b'.address ∧ ∃ bytes,
      Record.encode (r.table.stored (fields r (Rows.entry row))) = .ok bytes ∧
      Writing s' c r.table opened (before ++ (row.1, bytes) :: rest) (some (.rowid row.1)) ∧
      s.store.Written r.table (opened.map (·.2))
        (fun index => ((opened.map (·.2)).map (·.root)).Nodup ∧
          r.table.Settled index (fields r (Rows.entry row)))
        (before ++ row :: rest) (before ++ (row.1, bytes) :: rest) s'.store) b.address s := by
  have h1 := hold.grows hb
  have h12 := hnew.grows h1.valid
  have h2 := h1.trans h12
  have h23 := hout.grows h2.valid
  have h3 := h2.trans h23
  have h4 := h3.emit ⟨.makeRecord, base, r.table.columns.length, record,
    .affinity r.table.affinityCodes, 0⟩
  have h5 := h4.emit ⟨.delete, c, 0, 0, .table r.table.name, 0⟩
  have h6 := h5.emit ⟨.insert, c, record, rowid, .table r.table.name, 0⟩
  have h67 := hinto.grows h6.valid
  have hend6 := h67.begins.trans hend
  have hend5 := (Builder.Begins.emit ..).trans hend6
  have hend4 := (Builder.Begins.emit ..).trans hend5
  have hend3 := (Builder.Begins.emit ..).trans hend4
  have hend2 := h23.begins.trans hend3
  have hend1 := h12.begins.trans hend2
  obtain ⟨hheld, hblock, hrecord, hlt, hge⟩ := hregisters
  have hbase : 0 < base := Int.lt_trans hheld.1 hlt
  have hmem := Rows.entry_mem_middle before row rest
  -- The columns as they are, and the new values over them.
  refine (emitOld_leads (σ := σ.still) hold hb hbase hend1 (hw.standsOn hmem)).performs ?_
  rintro pc s1 ⟨rfl, hblock1, hq1⟩
  have hw1 := hw.quiet hq1
  refine (emitNew_leads (σ := σ.still) hnew h1.valid (h1.holdsBlock hblock) hend2 hin fun p =>
    hw1.reads hmem p).performs ?_
  rintro pc s2 ⟨rfl, hblock2, hq2⟩
  have hw2 := hw1.quiet hq2
  have hfields : s2.getBlock base r.table.columns.length = fields r (Rows.entry row) := by
    rw [hblock2, hblock1]
    simp only [Nat.zero_add, fields, old]
  have hrowid2 : s2.get rowid = .int row.1 := by
    rw [hq2.get rowid ⟨h1.holds _ hheld, .inl hlt⟩, hq1.get rowid ⟨hheld.1, .inl hlt⟩, hrowid]
  -- The keys that the row had.
  refine (hw2.keys_leads (σ := σ.still) idxDelete_changesKeys hout h2.valid hend3 (.inl inferInstance)
    (fun o _ => hw2.keySource hmem o.2.columns) nofun).performs ?_
  rintro pc s3 ⟨rfl, hw3, hk3, hrekeyed3⟩
  have hblock3 : s3.getBlock base r.table.columns.length = fields r (Rows.entry row) := by
    rw [← hfields]
    refine List.map_congr_left fun k hk => hk3.get _ (h2.holdsBlock hblock _ (by omega) ?_)
    have := List.mem_range.mp hk
    omega
  have hrowid3 : s3.get rowid = .int row.1 := (hk3.get rowid (h2.holds _ hheld)).trans hrowid2
  refine (makeRecord_leads (σ := σ.still) hend4 hblock3).performs ?_
  rintro pc s4 ⟨rfl, bytes, hencode, rfl⟩
  have hq4 : Quiet (fun r => 0 < r ∧ r < record) (fun _ => True) s3 (s3.set record (.blob bytes)) :=
    .set s3 _ fun r hr => ⟨hr.1, by omega⟩
  -- The row itself.
  refine ((hw3.quiet hq4).delete_performs hend5 (hdelete _ _ rfl)).bind ?_
  rintro pc s5 ⟨rfl, hw5, hk5, hstore5⟩
  have hrecord5 : s5.get record = .blob bytes := (hk5.get record trivial).trans (State.get_set_self ..)
  refine (hw5.insert_performs hrecord5
    ((hk5.get rowid trivial).trans ((hq4.get rowid ⟨hheld.1, by omega⟩).trans hrowid3))
    hend6 (hinsert _ _ bytes rfl hrecord5 ⟨_, length_fields .., hencode⟩)).bind ?_
  rintro pc s6 ⟨rfl, hw6, hk6, hstore6⟩
  have hblock6 : s6.getBlock base r.table.columns.length = fields r (Rows.entry row) := by
    rw [← hblock3]
    refine List.map_congr_left fun k hk => ?_
    have := List.mem_range.mp hk
    rw [hk6.get _ trivial, hk5.get _ trivial, hq4.get _ ⟨by omega, by omega⟩]
  -- The keys that the row gets.
  let raw : Entry := (row.1, fields r (Rows.entry row))
  have hraw : ∀ o ∈ opened, (KeySource.registers base rowid).Reads r.table o.2.columns s6 raw := by
    intro o _
    refine ⟨?_, fun name _ i hi _ => ?_⟩
    · rw [hk6.get _ trivial, hk5.get _ trivial, hq4.get _ ⟨hheld.1, by omega⟩, hrowid3]
    · rw [← State.getD_getBlock _ base (Table.lt_of_columnIndex? hi), hblock6]
  have huses : ∀ q, (KeySource.registers base rowid).Uses r.table q → b.Holds q := by
    rintro q (rfl | ⟨hle, hlt⟩)
    · exact hheld
    · exact hblock q hle hlt
  refine (hw6.keys_leads (σ := σ.still) idxInsert_changesKeys hinto h6.valid hend (.inl inferInstance) hraw
    fun q hq => h6.holds q (huses q hq)).performs ?_
  rintro pc s' ⟨rfl, hw', hk', hrekeyed'⟩
  rw [Rows.put_erase hw.ascending] at hw'
  refine .here ⟨rfl, bytes, hencode, hw', ?_⟩
  have hstore : s2.store = s.store := by rw [hq2.store, hq1.store]
  rw [hstore] at hrekeyed3
  have herase := Store.Written.erase (T := fun index => ((opened.map (·.2)).map (·.root)).Nodup ∧
    r.table.Settled index (fields r (Rows.entry row))) hw.ascending hmem hrekeyed3 hstore5
  have hput := Store.Written.put (e := (row.1, r.table.stored (fields r (Rows.entry row))))
    hw.ascending.erase (Record.decode_encode hencode) hstore6 hrekeyed'
  rw [Rows.put_erase hw.ascending] at hput
  refine herase.trans (hput.mono fun index ht => ⟨ht.1, ht.2.key row.1, ?_⟩)
  intro e' he' hid
  exact absurd hid (Rows.mem_entries_erase.mp he').2

/-! ## All rows -/

/-- The code of a round, piece by piece. -/
structure Round (r : Resolution) (c rowid base record : Int) (opened : List OpenIndex) (next : Label)
    (b b1 b2 b3 b4 b' : Builder) : Prop where
  filter : (emitFilter [] next r.filter).Gives (b.emit (.plain .rowid c rowid 0)) () b1
  old : (emitOld c r.table.columns 0 base).Gives b1 () b2
  new : (emitNew base r.assignments).Gives b2 () b3
  out : (emitKeys .idxDelete r.table (.row c) opened).Gives b3 () b4
  into : (emitKeys .idxInsert r.table (.registers base rowid) opened).Gives
    (((b4.emit ⟨.makeRecord, base, r.table.columns.length, record, .affinity r.table.affinityCodes,
      0⟩).emit ⟨.delete, c, 0, 0, .table r.table.name, 0⟩).emit
      ⟨.insert, c, record, rowid, .table r.table.name, 0⟩) () b'

variable {r : Resolution} {rowid base record : Int} {next top : Label} {b1 b2 b3 b4 : Builder} {final : Builder}
  {options : Options} {reuse : Bool}

section

variable (h : Round r c rowid base record opened next b b1 b2 b3 b4 b')

include h

theorem Round.rest_grows (hb : b1.Valid) : b1.Grows b' := by
  have h2 := h.old.grows hb
  have h3 := h2.trans (h.new.grows h2.valid)
  have h4 := h3.trans (h.out.grows h3.valid)
  have h5 := ((h4.emit ⟨.makeRecord, base, r.table.columns.length, record,
    .affinity r.table.affinityCodes, 0⟩).emit ⟨.delete, c, 0, 0, .table r.table.name, 0⟩).emit
    ⟨.insert, c, record, rowid, .table r.table.name, 0⟩
  exact h5.trans (h.into.grows h5.valid)

theorem Round.grows (hb : b.Valid) : b.Grows b' := by
  have h0 := (Builder.Grows.refl hb).emit (.plain .rowid c rowid 0)
  have h1 := h0.trans (h.filter.grows h0.valid)
  exact h1.trans (h.rest_grows h1.valid)

/-- One round rewrites one row. -/
theorem Round.performs [σ.Lenient] (hb : b.Valid) (hend : b'.Begins σ.final) (hdelete : σ.PermitsDelete)
    (hinsert : σ.PermitsInsert r.table) (hskip : next < b.labels.size) (hat : σ.At next b'.address)
    (hregisters : RowRegisters b r.table rowid base record) (hin : ∀ a ∈ r.assignments, a.1 < r.table.columns.length)
    {before rest : List (Int64 × Bytes)} {row : Int64 × Bytes}
    (hw : Writing s c r.table opened (before ++ row :: rest) (some (.rowid row.1))) :
    σ.Performs (operations r row) (fun pc s' => pc = b'.address ∧ ∃ row', Rewrites r row row' ∧ row'.1 = row.1 ∧
      Writing s' c r.table opened (before ++ row' :: rest) (some (.rowid row.1)) ∧
      s.store.Written r.table (opened.map (·.2))
        (fun index => ((opened.map (·.2)).map (·.root)).Nodup ∧ Tends r index [row])
        (before ++ row :: rest) (before ++ row' :: rest) s'.store) b.address s := by
  have h0 := (Builder.Grows.refl hb).emit (.plain .rowid c rowid 0)
  have h01 := h.filter.grows h0.valid
  have h1 := h0.trans h01
  have hmem := Rows.entry_mem_middle before row rest
  have hend1 := (h.rest_grows h1.valid).begins.trans hend
  have hload : σ.still.Leads (fun pc s' => pc = (b.emit (.plain .rowid c rowid 0)).address ∧
      s' = s.set rowid (.int row.1)) b.address s := by
    refine .op (h01.begins.trans hend1) rfl (t := s.set rowid (.int row.1)) ?_ (.here ⟨rfl, rfl⟩)
    have hrowid : s.currentRowid b.address c = .ok row.1 := hw.currentRowid _
    simp only [execute, Instruction.plain, readRowid, hrowid]
  refine hload.performs ?_
  rintro pc s1 ⟨rfl, rfl⟩
  have hq1 : Quiet (fun q => b.Holds q ∧ q ≠ rowid) (fun _ => True) s (s.set rowid (.int row.1)) :=
    .set s _ fun q hq => ⟨hq.1.1, hq.2⟩
  have hw1 := hw.quiet hq1
  refine (emitFilter_leads_of_reads (σ := σ.still) h.filter h0.valid hend1 hskip hat fun _ _ p _ =>
    hw1.reads hmem p).performs ?_
  rintro pc s2 ⟨hq2, hcase⟩
  have hw2 := hw1.quiet hq2
  have hstore : s2.store = s.store := by rw [hq2.store, hq1.store]
  by_cases hholds : Expr.holds (Rows.entry row).read r.filter = true
  · rw [if_pos hholds] at hcase
    rw [hcase, operations, if_pos hholds]
    have hrowid2 : s2.get rowid = .int row.1 :=
      (hq2.get rowid hregisters.rowid_held).trans (State.get_set_self ..)
    refine (rewrite_performs h.old h.new h.out h.into h1.valid hend hdelete hinsert (hregisters.grows h1)
      hin hw2 hrowid2).mono ?_
    rintro pc s' ⟨rfl, bytes, hencode, hw', hwritten⟩
    refine ⟨rfl, (row.1, bytes), ?_, rfl, hw', ?_⟩
    · unfold Rewrites
      rw [if_pos hholds]
      exact ⟨rfl, hencode⟩
    · rw [hstore] at hwritten
      exact hwritten.mono fun index ht => ⟨ht.1, ht.2 row List.mem_cons_self hholds⟩
  · rw [if_neg hholds] at hcase
    rw [operations, if_neg hholds]
    refine .here ⟨hcase, row, ?_, rfl, hw2, ?_⟩
    · unfold Rewrites
      rw [if_neg hholds]
    · rw [hstore]
      exact .refl hw.tree

end

/-- Where the loop of an UPDATE stands in the program. -/
structure Loop (σ : Setting) (r : Resolution) (c rowid base record : Int) (opened : List OpenIndex)
    (next top done : Label) (b0 b b1 b2 b3 b4 b' : Builder) : Prop where
  round : Round r c rowid base record opened next b b1 b2 b3 b4 b'
  valid : b.Valid
  registers : RowRegisters b r.table rowid base record
  rewinds : (b0.emitJump .rewind c 0 done .empty 0).Begins σ.final
  done_lt : done < b0.labels.size
  head : (b0.emitJump .rewind c 0 done .empty 0).address = b.address
  next_lt : next < b.labels.size
  at_next : σ.At next b'.address
  inside : b'.Begins σ.final
  ends : ((b'.bindHere next).emitJump .next c 0 top .empty 0).Begins σ.final
  top_lt : top < (b'.bindHere next).labels.size
  at_top : σ.At top b.address
  at_done : σ.At done ((b'.bindHere next).emitJump .next c 0 top .empty 0).address

section Loop

variable {done : Label} {b0 : Builder} [σ.Lenient]
  (h : Loop σ r c rowid base record opened next top done b0 b b1 b2 b3 b4 b') (hdelete : σ.PermitsDelete)
  (hinsert : σ.PermitsInsert r.table) (hin : ∀ a ∈ r.assignments, a.1 < r.table.columns.length)

include h hdelete hinsert hin

/-- The loop rewrites the rows that are still to come. -/
theorem Loop.performs {rest before : List (Int64 × Bytes)} {row : Int64 × Bytes}
    (hw : Writing s c r.table opened (before ++ row :: rest) (some (.rowid row.1))) :
    σ.Performs ((row :: rest).flatMap (operations r))
      (fun pc s' => pc = ((b'.bindHere next).emitJump .next c 0 top .empty 0).address ∧
      ∃ rest', List.Forall₂ (Rewrites r) (row :: rest) rest' ∧ s.store.Written r.table (opened.map (·.2))
          (fun index => ((opened.map (·.2)).map (·.root)).Nodup ∧ Tends r index (row :: rest))
          (before ++ row :: rest) (before ++ rest') s'.store) b.address s := by
  induction rest generalizing before row s
  all_goals
    -- The round of the row, and then the step to the next.
    rw [List.flatMap_cons]
    refine (h.round.performs h.valid h.inside hdelete hinsert h.next_lt h.at_next h.registers hin hw).bind ?_
    rintro pc s1 ⟨rfl, row', hrewrites, hid, hw1, hwritten⟩
    rw [← hid] at hw1
    refine (Writing.next_leads (σ := σ.still) (b := b'.bindHere next) hw1 h.ends h.top_lt h.at_top).performs ?_
    rintro pc s2 ⟨hw2, hq2, rfl⟩
  case nil =>
    refine .here ⟨rfl, [row'], .cons hrewrites .nil, ?_⟩
    rwa [hq2.store]
  case cons row2 rest ih =>
    have hsplit : before ++ row' :: row2 :: rest = (before ++ [row']) ++ row2 :: rest := by simp
    have hw2 : Writing s2 c r.table opened ((before ++ [row']) ++ row2 :: rest)
        (some (.rowid row2.1)) := hsplit ▸ hw2
    refine (ih hw2).mono ?_
    rintro pc s' ⟨rfl, rest', hrest, hwritten'⟩
    refine ⟨rfl, row' :: rest', .cons hrewrites hrest, ?_⟩
    rw [← hsplit, List.append_assoc, hq2.store] at hwritten'
    refine (hwritten.mono ?_).trans (hwritten'.mono ?_)
    · rintro index ⟨hroots, ht⟩
      refine ⟨hroots, fun row hrow => ?_⟩
      rw [List.mem_singleton.mp hrow]
      exact ht _ List.mem_cons_self
    · exact fun index ht => ⟨ht.1, fun row hrow => ht.2 row (List.mem_cons_of_mem _ hrow)⟩

/-- From its start the loop rewrites every row. -/
theorem Loop.scan_performs {position : Option Position} (hw : Writing s c r.table opened rows position) :
    σ.Performs (rows.flatMap (operations r))
      (fun pc s' => pc = ((b'.bindHere next).emitJump .next c 0 top .empty 0).address ∧
      ∃ rows', List.Forall₂ (Rewrites r) rows rows' ∧ s.store.Written r.table (opened.map (·.2))
        (fun index => ((opened.map (·.2)).map (·.root)).Nodup ∧ Tends r index rows) rows rows' s'.store)
      b0.address s := by
  refine (hw.rewind_leads (σ := σ.still) h.rewinds h.done_lt h.at_done).performs ?_
  rintro pc s1 ⟨hw1, hq1, rfl⟩
  cases rows with
  | nil =>
    refine .here ⟨rfl, [], .nil, ?_⟩
    rw [hq1.store]
    exact .refl hw.tree
  | cons row rest =>
    have hw1 : Writing s1 c r.table opened ([] ++ row :: rest) (some (.rowid row.1)) := hw1
    rw [List.isEmpty_cons, if_neg Bool.false_ne_true, h.head]
    refine (h.performs hdelete hinsert hin hw1).mono ?_
    rintro pc s' ⟨rfl, rows', hrewrites, hwritten⟩
    refine ⟨rfl, rows', hrewrites, ?_⟩
    rwa [hq1.store] at hwritten

end Loop

section

variable (h : (emit options r).Gives (Builder.fresh reuse) () final)

include h

/-- The parts of the program: it opens the table and its indexes, runs its loop, and closes them. -/
theorem emit_parts [σ.Lenient] (hfinal : σ.final = final) :
    ∃ c rowid base record opened next top done b0 b b1 b2 b3 b4 b' last,
      Loop σ r c rowid base record opened next top done b0 b b1 b2 b3 b4 b' ∧
      opened.map (·.2) = options.indexes r.table ∧ σ.env.code[last]? = some (.plain .halt 0 0 0) ∧
      (∀ store tree, store.tree? r.table.root = some tree → σ.still.Leads (fun pc s => pc = b0.address ∧
        s.cursors.get? c = some ⟨.stored r.table.root, none⟩ ∧ OpenedOn s opened ∧ (∀ o ∈ opened, o.1 ≠ c) ∧
        (∀ d cursor, s.cursors.get? d = some cursor → ∃ root, cursor = ⟨.stored root, none⟩) ∧
        s.store = store) 0 (.start store)) ∧ ∀ s, σ.still.Leads (fun pc s' => pc = last ∧ s'.store = s.store)
        ((b'.bindHere next).emitJump .next c 0 top .empty 0).address s := by
  simp only [emit, gives_bind, gives_newCursor, gives_newLabel, gives_jump, gives_labelHere, gives_op,
    gives_opWith, gives_bindHere] at h
  obtain ⟨c, b0, ⟨rfl, rfl⟩, _, b1, hinit, _, b2, rfl, opened, b3, hindexes, h⟩ := h
  obtain ⟨rowid, b4, hrowid, base, b5, hbase, record, b6, hrecord, h⟩ := h
  obtain ⟨done, b7, ⟨rfl, rfl⟩, _, b8, rfl, top, b9, ⟨rfl, rfl⟩, next, b10, ⟨rfl, rfl⟩, h⟩ := h
  obtain ⟨_, b11, rfl, _, b12, hfilter, _, b13, hold, _, b14, hnew, _, b15, hout, h⟩ := h
  obtain ⟨_, b16, rfl, _, b17, rfl, _, b18, rfl, _, b19, hinto, h⟩ := h
  obtain ⟨_, b20, rfl, _, b21, rfl, _, b22, rfl, _, b23, hclose, hhalt⟩ := h
  obtain rfl := gives_op.mp hhalt
  obtain ⟨hvalid, hcursors⟩ := emitInit_spec hinit (Builder.valid_fresh _)
  obtain ⟨h13, hopened, -⟩ := emitOpen_grows hindexes hvalid
  obtain ⟨h36, haddress, hregisters⟩ := rowRegisters_of_gives hrowid hbase hrecord h13.valid
  -- The stages of the loop: the label behind it, its head, a round, and its end.
  have h7 := (Builder.Grows.refl h36.valid).newLabel
  have h78 := (Builder.Grows.refl h7.valid).emitJump .rewind (Builder.fresh reuse).cursors 0
    b6.labels.size .empty 0
  have h79 := h78.newLabel.bindHere h78.labels_le
  have h910 := (Builder.Grows.refl h79.valid).newLabel
  have hround : Round r (Builder.fresh reuse).cursors rowid base record opened _ _ b12 b13 b14 b15 b19 :=
    ⟨hfilter, hold, hnew, hout, hinto⟩
  have h1019 := hround.grows h910.valid
  have h921 := ((h910.trans h1019).bindHere (Nat.le_refl _)).emitJump .next
    (Builder.fresh reuse).cursors 0 (b6.newLabel.2.emitJump .rewind (Builder.fresh reuse).cursors 0
      b6.labels.size .empty 0).labels.size .empty 0
  have h721 := h79.trans h921
  have h622 := (h7.trans h721).bindHere (Nat.le_refl _)
  have h2223 := hclose.grows h622.valid
  have hend : b23.Begins σ.final := by
    rw [hfinal]
    exact .emit b23 _
  have hend22 := h2223.begins.trans hend
  have hend21 := (Builder.Begins.bindHere (h721.unbound (Builder.lt_newLabel b6)
    (Builder.target?_newLabel b6))).trans hend22
  have hend20 := (Builder.Begins.emitJump ..).trans hend21
  have hend19 := (Builder.Begins.bindHere (h1019.unbound (Builder.lt_newLabel _)
    (Builder.target?_newLabel _))).trans hend20
  have hend3 := (h36.trans h622).begins.trans hend22
  have hskip := Nat.lt_of_lt_of_le (Builder.lt_newLabel _) h1019.labels_le
  obtain ⟨hattop, htop, hend8⟩ := Setting.at_of_labelHere h921 hend21
  have hc : (Builder.fresh reuse).cursors < b1.cursors := by
    rw [hcursors]
    show (0 : Int) < 0 + 1
    omega
  refine ⟨_, rowid, base, record, opened, _, _, _, b6.newLabel.2, _, b12, b13, b14, b15, b19, b23.address,
    ⟨hround, h910.valid, hregisters.grows ((h7.trans h79).trans h910), hend8, Builder.lt_newLabel b6, rfl,
      Builder.lt_newLabel _, Setting.at_of_bindHere hend20 hskip, hend19, hend21, htop, hattop,
      Setting.at_of_bindHere hend22 (Nat.lt_of_lt_of_le (Builder.lt_newLabel b6) h721.labels_le)⟩,
    hopened, ?_, fun store tree htree => ?_, fun s => ?_⟩
  · rw [σ.code_eq, hfinal]
    exact Builder.code_of_emit (.refl _)
  · rw [show b6.newLabel.2.address = b3.address from haddress]
    exact leads_of_body (σ := σ.still) (s := .start store) rfl hinit (h13.begins.trans hend3)
      (emitOpen_opens (σ := σ.still) (s := .start store) hindexes hvalid hend3 (.inl inferInstance) hc
        (fun d => Slots.get?_empty d) htree)
  · refine (emitClose_leads (σ := σ.still) hclose h622.valid hend).mono ?_
    rintro pc s' ⟨rfl, hq⟩
    exact ⟨rfl, hq.store⟩

/-- **Running an UPDATE rewrites the rows that the filter lets pass**, and does nothing else to rows. -/
theorem emit_performs [σ.Lenient] {store : Store} (hfinal : σ.final = final) (hdelete : σ.PermitsDelete)
    (hinsert : σ.PermitsInsert r.table) (hin : ∀ a ∈ r.assignments, a.1 < r.table.columns.length)
    (htree : store.tree? r.table.root = some (.table rows)) (hrows : Rows.Ascending rows) :
    ∃ last, σ.env.code[last]? = some (.plain .halt 0 0 0) ∧
      σ.Performs (rows.flatMap (operations r)) (fun pc s => pc = last ∧ ∃ rows',
        List.Forall₂ (Rewrites r) rows rows' ∧ store.Written r.table (options.indexes r.table)
          (fun index => ((options.indexes r.table).map (·.root)).Nodup ∧ Tends r index rows) rows rows' s.store)
        0 (State.start store) := by
  obtain ⟨c, rowid, base, record, opened, next, top, done, b0, b, b1, b2, b3, b4, b', last, hloop, hopened, hhalt,
    hopens, hcloses⟩ := emit_parts h hfinal
  refine ⟨last, hhalt, (hopens store _ htree).performs ?_⟩
  rintro pc s ⟨rfl, hself, hon, hapart, hidle, hstore⟩
  have hw : Writing s c r.table opened rows none :=
    ⟨hself, hstore ▸ htree, hrows, hon, hapart, fun d _ => hidle d⟩
  rw [← List.append_nil (rows.flatMap _)]
  refine (hloop.scan_performs hdelete hinsert hin hw).bind ?_
  rintro pc s1 ⟨rfl, rows', hrewrites, hwritten⟩
  refine (hcloses s1).performs ?_
  rintro pc s' ⟨rfl, hstore'⟩
  refine .here ⟨rfl, rows', hrewrites, ?_⟩
  rw [hstore']
  rwa [hstore, hopened] at hwritten

/-- What a run without a fault has done. -/
theorem emit_writes {env : Environment} {store store' : Store} {execution : Execution} (hcode : env.code = final.code)
    (hrun : Machine.run env store = (.ok execution, store')) (hin : ∀ a ∈ r.assignments, a.1 < r.table.columns.length)
    (htree : store.tree? r.table.root = some (.table rows)) (hrows : Rows.Ascending rows) :
    execution.trace.toList.filter Opcode.changesRows = rows.flatMap (operations r) ∧
    ∃ rows', List.Forall₂ (Rewrites r) rows rows' ∧ store.Written r.table (options.indexes r.table)
      (fun index => ((options.indexes r.table).map (·.root)).Nodup ∧ Tends r index rows) rows rows' store' := by
  have hfree := Setting.free_free final env hcode
  obtain ⟨last, hhalt, hperforms⟩ := emit_performs (σ := .free final env hcode) h rfl hfree.permitsDelete
    (hfree.permitsInsert _) hin htree hrows
  obtain ⟨pc, s, fuel, trace, ⟨rfl, hwritten⟩, hrest, htrace, -⟩ := hperforms.rest_of_run hrun
  obtain ⟨-, rfl, hlast⟩ := runFrom_halt hhalt rfl hrest
  refine ⟨?_, hwritten⟩
  rw [hlast, Array.toList_push, List.filter_append, htrace]
  simp [Opcode.changesRows]

end

end Change

end QueryMachine
