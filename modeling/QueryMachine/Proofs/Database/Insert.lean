import QueryMachine.Proofs.Compile.Whole
import QueryMachine.Proofs.Database.Writing

/-!
# INSERT

The rows of an INSERT are stored one after the other. A row gives a value for each column, and a rowid
where it gives one for the column that is another name of it; an expression that reads a place reads
the row stored before.

* `Insertion.entryOf` — the entry that a row becomes.
* `Insertion.Stored` — the rows of the table before and after.
* `Insertion.Tends` — an index follows the rows: their values are stored as they are, and no row takes
  the place of one with another key.
* `Insertion.loadRow_leads` — the registers of a row, before it is stored.
* `Insertion.emit_writes` — what running an INSERT does.
-/

namespace QueryMachine

open Machine Emit

variable {σ : Setting} {b b' : Builder} {s s' : State} {table : Table}

namespace Insertion

variable {i : Nat} {target c : Int} {opened : List OpenIndex} {options : Options} {reuse : Bool}

/-! ## What is stored -/

/-- What a place holds while a row is inserted: it is read from the row stored last. -/
def readLast (last : Option Entry) (p : Place) : Value := (last.map fun e => e.read p).getD .null

/-- The value that a row gives a column: its own, else the default, else NULL. -/
def given (values : List (Nat × Resolved)) (last : Option Entry) (i : Nat) (column : Column) :
    Value :=
  match valueAt? values i with
  | some e => e.eval (readLast last)
  | none => column.default.getD .null

/-- The values that a row gives the columns of a table. -/
def row (table : Table) (values : List (Nat × Resolved)) (last : Option Entry) : List Value :=
  table.columns.mapIdx (given values last)

/-- The rowid of a row: the one it gives, else the next one. A row that gives something else than an
integer has none. -/
def rowid? (table : Table) (row : List Value) (next : Int64) : Option Int64 :=
  match table.rowidIndex? with
  | none => some next
  | some i =>
    match (row.getD i .null).withAffinity .integer with
    | .null => some next
    | .int id => some id
    | _ => none

/-- The fields of a row: NULL in place of the rowid. -/
def fields (table : Table) (row : List Value) : List Value :=
  match table.rowidIndex? with
  | none => row
  | some i => row.set i .null

/-- The entry that a row becomes in a table with the given rows. -/
def entryOf (table : Table) (rows : List (Int64 × Bytes)) (last : Option Entry)
    (values : List (Nat × Resolved)) : Option Entry :=
  (rowid? table (row table values last) (Tree.table rows).nextRowid).map fun id =>
    (id, table.stored (fields table (row table values last)))

/-- Rows are stored one after the other, each after the one stored last. -/
inductive Stored (table : Table) : Option Entry → List (Int64 × Bytes) →
    List (List (Nat × Resolved)) → List (Int64 × Bytes) → Prop
  | nil {last : Option Entry} {rows : List (Int64 × Bytes)} : Stored table last rows [] rows
  | cons {last : Option Entry} {rows rows' : List (Int64 × Bytes)} {values : List (Nat × Resolved)}
      {more : List (List (Nat × Resolved))} {e : Entry} {record : Bytes} :
      entryOf table rows last values = some e → Record.encode e.2 = .ok record →
      Stored table (some e) (Rows.put e.1 record rows) more rows' →
      Stored table last rows (values :: more) rows'

/-- Every row gives the indexed columns values that are stored as they are, and takes the place of no
row with another key. -/
def Tends (table : Table) (index : Index) :
    Option Entry → List (Int64 × Bytes) → List (List (Nat × Resolved)) → Prop
  | _, _, [] => True
  | last, rows, values :: more =>
    ∀ e record, entryOf table rows last values = some e → Record.encode e.2 = .ok record →
      table.Settled index (fields table (row table values last)) ∧
      (∀ e' ∈ Rows.entries rows, e'.1 = e.1 →
        table.key index.columns e' = table.key index.columns e) ∧
      Tends table index (some e) (Rows.put e.1 record rows) more

/-! ## The columns of a row -/

variable {last : Option Entry} {values : List (Nat × Resolved)} {base record rowid : Int}

theorem emitColumn_leads {column : Column} (h : (emitColumn values column i target).Gives b () b') (hb : b.Valid)
    (ht : b.Holds target) (hend : b'.Begins σ.final) (hreads : ∀ p, s.Shows p (readLast last p) ∨ s.Hides σ.Admits p) :
    σ.Leads (fun pc s' => pc = b'.address ∧ s'.get target = given values last i column ∧
      Quiet (fun r => b.Holds r ∧ r ≠ target) (fun _ => True) s s') b.address s := by
  cases hvalue : valueAt? values i with
  | some e =>
    simp only [emitColumn, given, hvalue] at h ⊢
    exact emitExpr_leads h hb (Int.le_of_lt ht.1) nofun hend (denotes_eval e fun p _ => hreads p)
  | none =>
    simp only [emitColumn, given, hvalue] at h ⊢
    obtain ⟨j, rfl, hj⟩ := emitValue_stores h
    refine ((hj s (Int.le_of_lt ht.1)).leads hend).mono ?_
    rintro pc s' ⟨rfl, rfl⟩
    exact ⟨rfl, State.get_set_self .., .set s _ fun r hr => ⟨hr.1.1, hr.2⟩⟩

/-- The values that a row gives come to stand in its block. -/
theorem emitColumns_leads {columns : List Column} (h : (emitColumns values columns i target).Gives b () b')
    (hb : b.Valid) (ht : b.HoldsBlock target columns.length) (hend : b'.Begins σ.final)
    (hreads : ∀ p, s.Shows p (readLast last p) ∨ s.Hides σ.Admits p) :
    σ.Leads (fun pc s' => pc = b'.address ∧ s'.getBlock target columns.length =
        columns.mapIdx (fun k column => given values last (i + k) column) ∧
      Quiet (fun r => b.Holds r ∧ (r < target ∨ target + columns.length ≤ r)) (fun _ => True) s s') b.address s := by
  induction columns generalizing i target b s with
  | nil =>
    obtain ⟨-, rfl⟩ := gives_pure.mp h
    exact .here ⟨rfl, rfl, .refl s⟩
  | cons column columns ih =>
    obtain ⟨_, b1, hcolumn, hrest⟩ := gives_bind.mp h
    have h1 := hcolumn.grows hb
    have hend1 := (hrest.grows h1.valid).begins.trans hend
    simp only [List.length_cons] at ht ⊢
    have hfirst : b.Holds target := ht target (by omega) (by omega)
    refine (emitColumn_leads hcolumn hb hfirst hend1 hreads).bind ?_
    rintro pc s1 ⟨rfl, hget, hq1⟩
    refine (ih hrest h1.valid ?_ fun p => ?_).mono ?_
    · exact fun r hle hlt => h1.holds r (ht r (by omega) (by omega))
    · exact (hreads p).imp (hq1.toFrame.shows trivial) (hq1.toFrame.hides trivial)
    rintro pc s' ⟨rfl, hblock, hq⟩
    refine ⟨rfl, ?_, .trans (hq1.mono ?_ fun _ h => h) (hq.mono ?_ fun _ h => h)⟩
    · rw [State.getBlock_succ, hblock, hq.get target ⟨h1.holds _ hfirst, by omega⟩, hget,
        List.mapIdx_cons]
      simp only [Nat.add_zero, Nat.add_comm, Nat.add_left_comm]
    · rintro r ⟨hr, hout⟩
      exact ⟨hr, by omega⟩
    · rintro r ⟨hr, hout⟩
      exact ⟨h1.holds _ hr, by omega⟩

/-! ## The rowid of a row -/

/-- The rowid that a row gives is taken out of its block. -/
theorem emitGivenRowid_leads [σ.Lenient] {next : Int64} (h : (emitGivenRowid table base rowid).Gives b () b')
    (hend : b'.Begins σ.final) (hregisters : RowRegisters b table rowid base record) (hnext : s.get rowid = .int next) :
    σ.Leads (fun pc s' => pc = b'.address ∧ ∃ id,
      rowid? table (s.getBlock base table.columns.length) next = some id ∧ s'.get rowid = .int id ∧
      s'.getBlock base table.columns.length = fields table (s.getBlock base table.columns.length) ∧
      Quiet (fun r => b.Holds r ∧ r ≠ rowid ∧ (r < base ∨ base + table.columns.length ≤ r))
        (fun _ => True) s s') b.address s := by
  unfold emitGivenRowid at h
  unfold rowid? fields
  cases hindex : table.rowidIndex? with
  | none =>
    rw [hindex] at h
    obtain ⟨-, rfl⟩ := gives_pure.mp h
    exact .here ⟨rfl, next, rfl, hnext, rfl, .refl s⟩
  | some i =>
    have hi : i < table.columns.length := (List.findIdx?_eq_some_iff_findIdx_eq.mp hindex).1
    have hbase : 0 < base := Int.lt_trans hregisters.rowid_held.1 hregisters.rowid_lt
    have hrowid := hregisters.rowid_held
    have hlt := hregisters.rowid_lt
    simp only [hindex, gives_bind, gives_newLabel, gives_jump, gives_op, gives_bindHere] at h
    obtain ⟨keep, b1, ⟨rfl, rfl⟩, _, b2, rfl, _, b3, rfl, _, b4, rfl, _, b5, rfl, rfl⟩ := h
    -- The label is bound where the rowid of the row is decided.
    generalize hb4 : Builder.emit (.plain .shallowCopy (base + i) rowid 0) _ = b4 at hend ⊢
    have hlabels : b4.labels = b.newLabel.2.labels := by rw [← hb4]; rfl
    have hnone : b4.target? b.labels.size = none := by
      unfold Builder.target?
      rw [hlabels]
      exact Builder.target?_newLabel b
    have hend5 := (Builder.Begins.emit ..).trans hend
    have hat := Setting.at_of_bindHere hend5 (by rw [hlabels]; exact Builder.lt_newLabel b)
    have hend4 := (Builder.Begins.bindHere hnone).trans hend5
    rw [← hb4] at hend4
    have hend3 := (Builder.Begins.emit ..).trans hend4
    have hend2 := (Builder.Begins.emit ..).trans hend3
    simp only [State.getD_getBlock s base hi]
    -- From there on NULL is written in place of what the row gave.
    have hrest : ∀ t id, t.get rowid = .int id →
        Quiet (fun r => b.Holds r ∧ r ≠ rowid ∧ (r < base ∨ base + table.columns.length ≤ r))
          (fun _ => True) s t →
        (t.getBlock base table.columns.length).set i .null =
          (s.getBlock base table.columns.length).set i .null →
        σ.Leads (fun pc s' => pc = ((b4.bindHere b.labels.size).emit
            (.plain .null 0 (base + i) 0)).address ∧ s'.get rowid = .int id ∧
          s'.getBlock base table.columns.length = (s.getBlock base table.columns.length).set i .null ∧
          Quiet (fun r => b.Holds r ∧ r ≠ rowid ∧ (r < base ∨ base + table.columns.length ≤ r))
            (fun _ => True) s s') b4.address t := by
      intro t id hid hq hblock
      have hset : Quiet (fun r => 0 < r ∧ r ≠ base + i) (fun _ => True) t (t.set (base + i) .null) :=
        .set t _ fun _ hr => hr
      rw [← Builder.address_bindHere b4 b.labels.size]
      refine .op hend rfl (t := t.set (base + i) .null) ?_ (.here ⟨rfl, ?_, ?_, ?_⟩)
      · simp only [execute, Instruction.plain, setNulls_one (show 0 ≤ base + (i : Int) by omega)]
      · rw [State.get_set_of_ne t _ hrowid.1 (by omega)]
        exact hid
      · rw [hset.toFrame.getBlock_set (fun r _ _ hne => ⟨by omega, hne⟩) (State.get_set_self ..), hblock]
      · refine hq.trans (.set t _ fun r hr => ⟨hr.1.1, ?_⟩)
        have := hr.2.2
        omega
    by_cases hnull : s.get (base + i) = .null
    · refine .taken (b := b.newLabel.2) hend2 (Builder.lt_newLabel b) hat rfl (t := s) ?_ ?_
      · simp only [execute, hnull, Value.isNull, jumpIf, if_true]
      · refine (hrest s next hnext (.refl s) rfl).mono ?_
        rintro pc s' ⟨rfl, hid, hblock, hq⟩
        exact ⟨rfl, next, by rw [hnull, Value.withAffinity_null], hid, hblock, hq⟩
    · refine .passed (b := b.newLabel.2) hend2 (Builder.lt_newLabel b) hat rfl (t := s) ?_ ?_
      · have hnotnull : (s.get (base + i)).isNull = false := by
          cases hv : s.get (base + i) with
          | null => exact absurd hv hnull
          | int | real | text | blob => rfl
        simp only [execute, hnotnull, jumpIf, Bool.false_eq_true, if_false]
      · have hne := Value.withAffinity_integer_ne_null hnull
        cases hv : (s.get (base + i)).withAffinity .integer with
        | null => exact absurd hv hne
        | real | text | blob =>
          refine .failed hend3 (f := .typeMismatch
            (Value.withAffinity .integer (s.get (base + i))).className) ?_ (σ.admits_mismatch _)
          simp only [execute, Instruction.plain, mustBeInt, hv]
          rfl
        | int id =>
          refine .op hend3 rfl (t := s.set (base + i) (.int id)) ?_ ?_
          · simp only [execute, Instruction.plain, mustBeInt, hv]
          refine .op hend4 rfl (t := (s.set (base + i) (.int id)).set rowid (.int id)) ?_ ?_
          · simp only [execute, Instruction.plain, State.get_set_self]
          rw [hb4]
          refine (hrest _ id (State.get_set_self ..) ?_ ?_).mono ?_
          · refine .trans (.set s _ fun r hr => ⟨hr.1.1, ?_⟩) (.set _ _ fun r hr => ⟨hr.1.1, hr.2.1⟩)
            have := hr.2.2
            omega
          · have hset : Quiet (fun r => 0 < r ∧ r ≠ base + i) (fun _ => True) s
                (s.set (base + i) (.int id)) := .set s _ fun _ hr => hr
            have hq : Quiet (fun r => base ≤ r) (fun _ => True) (s.set (base + i) (.int id))
                ((s.set (base + i) (.int id)).set rowid (.int id)) :=
              .set _ _ fun r hr => ⟨by omega, by omega⟩
            rw [hq.toFrame.getBlock fun r hle _ => hle,
              hset.toFrame.getBlock_set (fun r _ _ hne => ⟨by omega, hne⟩) (State.get_set_self ..),
              List.set_set]
          · rintro pc s' ⟨rfl, hid, hblock, hq⟩
            exact ⟨rfl, id, rfl, hid, hblock, hq⟩

/-! ## All rows -/

/-- The registers of a row are loaded: its rowid, its fields, and the record of them. The next rowid is that
of whatever tree the cursor is open on. -/
theorem loadRow_leads [σ.Lenient] {tree : Tree} {position : Option Position} {b2 b3 : Builder}
    (hcolumns : (emitColumns values table.columns 0 base).Gives (b.emit (.plain .newRowid c rowid 0)) () b2)
    (hgiven : (emitGivenRowid table base rowid).Gives b2 () b3) (hb : b.Valid)
    (hend : (b3.emit ⟨.makeRecord, base, table.columns.length, record, .affinity table.affinityCodes,
      0⟩).Begins σ.final)
    (hregisters : RowRegisters b table rowid base record)
    (hcursor : s.cursors.get? c = some ⟨.stored table.root, position⟩) (htree : s.store.tree? table.root = some tree)
    (hreads : ∀ p, s.Shows p (readLast last p) ∨ s.Hides σ.Admits p) :
    σ.Leads (fun pc s' => pc = (b3.emit ⟨.makeRecord, base, table.columns.length, record,
        .affinity table.affinityCodes, 0⟩).address ∧
      ∃ id bytes, rowid? table (row table values last) tree.nextRowid = some id ∧
        Record.encode (table.stored (fields table (row table values last))) = .ok bytes ∧
        s'.get rowid = .int id ∧ s'.get record = .blob bytes ∧
        s'.getBlock base table.columns.length = fields table (row table values last) ∧
        Quiet (fun r => b.Holds r ∧ r < rowid) (fun _ => True) s s') b.address s := by
  have h1 := (Builder.Grows.refl hb).emit (.plain .newRowid c rowid 0)
  have h12 := hcolumns.grows h1.valid
  have h2 := h1.trans h12
  have h23 := hgiven.grows h2.valid
  have hend3 := (Builder.Begins.emit ..).trans hend
  have hend2 := h23.begins.trans hend3
  have hend1 := h12.begins.trans hend2
  obtain ⟨hheld, hblock, hrecord, hlt, hge⟩ := hregisters
  have hbase : 0 < base := Int.lt_trans hheld.1 hlt
  -- The next rowid.
  refine .op hend1 rfl (t := s.set rowid (.int tree.nextRowid)) ?_ ?_
  · simp only [execute, Instruction.plain, newRowid, State.tree, State.cursor, hcursor, htree]
  have hq1 : Quiet (fun r => b.Holds r ∧ r ≠ rowid) (fun _ => True) s (s.set rowid (.int tree.nextRowid)) :=
    .set s _ fun r hr => ⟨hr.1.1, hr.2⟩
  have hreads1 : ∀ p, (s.set rowid (.int tree.nextRowid)).Shows p (readLast last p) ∨
      (s.set rowid (.int tree.nextRowid)).Hides σ.Admits p :=
    fun p => (hreads p).imp (hq1.toFrame.shows trivial) (hq1.toFrame.hides trivial)
  -- The values that the row gives.
  refine (emitColumns_leads hcolumns h1.valid (h1.holdsBlock hblock) hend2 hreads1).bind ?_
  rintro pc s2 ⟨rfl, hrow, hq2⟩
  have hrow : s2.getBlock base table.columns.length = row table values last := by
    simpa [row] using hrow
  have hnext : s2.get rowid = .int tree.nextRowid :=
    (hq2.get rowid ⟨h1.holds _ hheld, .inl hlt⟩).trans (State.get_set_self ..)
  refine (emitGivenRowid_leads hgiven hend3
    (RowRegisters.grows ⟨hheld, hblock, hrecord, hlt, hge⟩ h2) hnext).bind ?_
  rintro pc s3 ⟨rfl, id, hid, hget3, hfields, hq3⟩
  rw [hrow] at hid hfields
  -- The record.
  have happly : applyAffinities table.affinityCodes.toList (fields table (row table values last)) =
      table.stored (fields table (row table values last)) := rfl
  cases hencode : Record.encode (table.stored (fields table (row table values last))) with
  | error error =>
    refine .failed hend (f := .rejected error) ?_ (σ.admits _ rfl)
    simp only [execute, makeRecord, hfields, happly, hencode]
  | ok bytes =>
    refine .op hend rfl (t := s3.set record (.blob bytes)) ?_ (.here ⟨rfl, id, bytes, hid, rfl, ?_,
      State.get_set_self .., ?_, ?_⟩)
    · simp only [execute, makeRecord, hfields, happly, hencode]
    · rw [State.get_set_of_ne _ _ hheld.1 (by omega)]
      exact hget3
    · have hq4 : Quiet (fun r => 0 < r ∧ r < record) (fun _ => True) s3 (s3.set record (.blob bytes)) :=
        .set s3 _ fun r hr => ⟨hr.1, by omega⟩
      rw [hq4.toFrame.getBlock fun r hle hlt => ⟨by omega, by omega⟩, hfields]
    · refine (hq1.mono ?_ fun _ h => h).trans ((hq2.mono ?_ fun _ h => h).trans
        ((hq3.mono ?_ fun _ h => h).trans (.set s3 _ ?_)))
      · exact fun r hr => ⟨hr.1, by omega⟩
      · exact fun r hr => ⟨h1.holds _ hr.1, by omega⟩
      · exact fun r hr => ⟨h2.holds _ hr.1, by omega, by omega⟩
      · exact fun r hr => ⟨hr.1.1, by omega⟩

/-- Rows are stored one after the other, and indexes that follow them mirror them. -/
theorem emitRows_leads [σ.Lenient] {cursor : Int} {values : List (List (Nat × Resolved))}
    {rows : List (Int64 × Bytes)} (h : (emitRows table opened cursor rowid base record values).Gives b () b')
    (hb : b.Valid) (hend : b'.Begins σ.final) (hpermits : σ.PermitsInsert table)
    (hregisters : RowRegisters b table rowid base record)
    (hw : Writing s cursor table opened rows (last.map fun e => .rowid e.1))
    (hlast : ∀ e, last = some e → e ∈ Rows.entries rows) :
    σ.Leads (fun pc s' => pc = b'.address ∧ ∃ rows', Stored table last rows values rows' ∧
      s.store.Written table (opened.map (·.2))
        (fun index => ((opened.map (·.2)).map (·.root)).Nodup ∧ Tends table index last rows values)
        rows rows' s'.store) b.address s := by
  induction values generalizing b s last rows with
  | nil =>
    obtain ⟨-, rfl⟩ := gives_pure.mp h
    exact .here ⟨rfl, rows, .nil, .refl hw.tree⟩
  | cons values more ih =>
    simp only [emitRows, gives_bind, gives_op, gives_opWith] at h
    obtain ⟨_, b1, rfl, _, b2, hcolumns, _, b3, hrowid, _, b4, rfl, _, b5, rfl, _, b6, hkeys, hmore⟩ := h
    have h1 := (Builder.Grows.refl hb).emit (.plain .newRowid cursor rowid 0)
    have h2 := h1.trans (hcolumns.grows h1.valid)
    have h3 := h2.trans (hrowid.grows h2.valid)
    have h4 := h3.emit ⟨.makeRecord, base, table.columns.length, record,
      .affinity table.affinityCodes, 0⟩
    have h5 := h4.emit ⟨.insert, cursor, record, rowid, .table table.name, 0⟩
    have h56 := hkeys.grows h5.valid
    have hend6 := (hmore.grows (h5.trans h56).valid).begins.trans hend
    have hend5 := h56.begins.trans hend6
    have hend4 := (Builder.Begins.emit ..).trans hend5
    have hreads : ∀ p, s.Shows p (readLast last p) ∨ s.Hides σ.Admits p := by
      intro p
      cases last with
      | none => exact .inr (hw.hides p)
      | some e => exact hw.reads (hlast e rfl) p
    refine (loadRow_leads hcolumns hrowid hb hend4 hregisters hw.cursor hw.tree hreads).bind ?_
    rintro pc s4 ⟨rfl, id, bytes, hid, hencode, hget4, hrecord4, hblock4, hq4⟩
    let e : Entry := (id, table.stored (fields table (row table values last)))
    have hentry : entryOf table rows last values = some e := by
      simp only [entryOf, hid]
      rfl
    -- The row, and then its keys.
    have hmakes : table.Makes bytes :=
      ⟨_, by rw [← hblock4, State.getBlock_length], hencode⟩
    refine ((hw.quiet hq4).insert_performs hrecord4 hget4 hend5
      (hpermits _ _ bytes rfl hrecord4 hmakes)).leads.bind ?_
    rintro pc s5 ⟨rfl, hw5, hk5, hstore5⟩
    rw [hq4.store] at hstore5
    let raw : Entry := (id, fields table (row table values last))
    have hraw : ∀ o ∈ opened, (KeySource.registers base rowid).Reads table o.2.columns s5 raw := by
      intro o _
      refine ⟨(hk5.get rowid trivial).trans hget4, fun name _ i hi _ => ?_⟩
      rw [hk5.get _ trivial, ← State.getD_getBlock _ base (Table.lt_of_columnIndex? hi), hblock4]
    have huses : ∀ r, (KeySource.registers base rowid).Uses table r → b.Holds r := by
      rintro r (rfl | ⟨hle, hlt⟩)
      · exact hregisters.rowid_held
      · exact hregisters.block_held r hle hlt
    refine (hw5.keys_leads idxInsert_changesKeys hkeys h5.valid hend6 (.inl ‹_›) hraw
      fun r hr => h5.holds r (huses r hr)).bind ?_
    rintro pc s6 ⟨rfl, hw6, hk6, hrekeyed⟩
    have hdecode : Record.decode bytes = .ok e.2 := Record.decode_encode hencode
    have hmem : e ∈ Rows.entries (Rows.put id bytes rows) :=
      (Rows.mem_entries_put (e := e) hw.ascending hdecode).mpr (.inl rfl)
    have hw6 : Writing s6 cursor table opened (Rows.put id bytes rows)
        ((some e).map fun e => .rowid e.1) := hw6
    have hput := Store.Written.put (e := e) hw.ascending hdecode hstore5 hrekeyed
    refine (ih hmore (h5.trans h56).valid (hregisters.grows (h5.trans h56)) hw6 ?_).mono ?_
    · rintro _ ⟨⟩
      exact hmem
    rintro pc s' ⟨rfl, rows', hstored, hwritten⟩
    refine ⟨rfl, rows', .cons hentry hencode hstored, ?_⟩
    refine (hput.mono ?_).trans (hwritten.mono ?_)
    · rintro index ⟨hroots, ht⟩
      obtain ⟨hsettled, hsame, -⟩ := ht e bytes hentry hencode
      exact ⟨hroots, hsettled.key id, hsame⟩
    · rintro index ⟨hroots, ht⟩
      obtain ⟨-, -, hrest⟩ := ht e bytes hentry hencode
      exact ⟨hroots, hrest⟩

/-- A row is not stored where an index stands in place of the table. -/
theorem emitRows_fails [σ.Lenient] {more : List (List (Nat × Resolved))} {keys : List (List Value)}
    {Q : Nat → State → Prop} (h : (emitRows table opened c rowid base record (values :: more)).Gives b () b')
    (hb : b.Valid) (hend : b'.Begins σ.final) (hregisters : RowRegisters b table rowid base record)
    (hcursor : s.cursors.get? c = some ⟨.stored table.root, none⟩)
    (htree : s.store.tree? table.root = some (.index keys))
    (hidle : ∀ d cursor, s.cursors.get? d = some cursor → ∃ root, cursor = ⟨.stored root, none⟩) :
    σ.Leads Q b.address s := by
  simp only [emitRows, gives_bind, gives_op, gives_opWith] at h
  obtain ⟨_, b1, rfl, _, b2, hcolumns, _, b3, hrowid, _, b4, rfl, _, b5, rfl, _, b6, hkeys, hmore⟩ := h
  have h1 := (Builder.Grows.refl hb).emit (.plain .newRowid c rowid 0)
  have h2 := h1.trans (hcolumns.grows h1.valid)
  have h3 := h2.trans (hrowid.grows h2.valid)
  have h5 := (h3.emit ⟨.makeRecord, base, table.columns.length, record, .affinity table.affinityCodes,
    0⟩).emit ⟨.insert, c, record, rowid, .table table.name, 0⟩
  have h6 := h5.trans (hkeys.grows h5.valid)
  have hend5 := ((hkeys.grows h5.valid).trans (hmore.grows h6.valid)).begins.trans hend
  have hreads : ∀ p, s.Shows p (readLast none p) ∨ s.Hides σ.Admits p :=
    fun p => .inr (State.hides_of_idle σ.admits (hidle _))
  refine (loadRow_leads hcolumns hrowid hb ((Builder.Begins.emit ..).trans hend5) hregisters hcursor htree
    hreads).bind ?_
  rintro pc s4 ⟨rfl, id, bytes, -, -, -, hrecord4, -, hq4⟩
  have hcursor4 : s4.cursors.get? c = some ⟨.stored table.root, none⟩ := (hq4.cursors c trivial).trans hcursor
  let here := (b3.emit ⟨.makeRecord, base, table.columns.length, record, .affinity table.affinityCodes, 0⟩).address
  refine .failed hend5 (f := .badOperand .insert here .insertIntoIndex) ?_ (σ.admits _ rfl)
  simp only [execute, insertRow, State.getRecord, hrecord4, State.tree, State.cursor, hcursor4, hq4.store, htree]
  rfl

/-- **Running an INSERT.** It finds a table and stores its rows there, or it fails. -/
theorem emit_leads [σ.Lenient] {values : List (List (Nat × Resolved))} {store : Store}
    (h : (emit options table values).Gives (Builder.fresh reuse) () σ.final) (hpermits : σ.PermitsInsert table)
    (hascending : ∀ rows, store.tree? table.root = some (.table rows) → Rows.Ascending rows) (hvalues : values ≠ []) :
    σ.Finishes store fun s => ∃ rows rows', store.tree? table.root = some (.table rows) ∧
      Stored table none rows values rows' ∧ store.Written table (options.indexes table) (fun index =>
        ((options.indexes table).map (·.root)).Nodup ∧ Tends table index none rows values) rows rows' s.store := by
  simp only [emit, gives_bind, gives_newCursor, gives_opWith] at h
  obtain ⟨_, b1, hinit, c, b2, ⟨rfl, rfl⟩, _, b3, rfl, opened, b4, hindexes, rowid, b5, hrowid, base,
    b6, hbase, record, b7, hrecord, _, b8, hemit, _, b9, hclose, hhalt⟩ := h
  have hfinal := gives_op.mp hhalt
  obtain ⟨hvalid, hcursors⟩ := emitInit_spec hinit (Builder.valid_fresh _)
  have h2 := (Builder.Grows.refl hvalid).newCursor
  obtain ⟨h24, hopened, -⟩ := emitOpen_grows hindexes h2.valid
  obtain ⟨h47, haddress, hregisters⟩ := rowRegisters_of_gives hrowid hbase hrecord h24.valid
  have h78 := hemit.grows h47.valid
  have h89 := hclose.grows h78.valid
  have hend : b9.Begins σ.final := hfinal ▸ Builder.Begins.emit ..
  have hend8 := h89.begins.trans hend
  have hend4 := h47.begins.trans (h78.begins.trans hend8)
  have hend2 := (h2.trans h24).begins.trans hend4
  refine ⟨b9.address, ?_, leads_of_body rfl hinit hend2 ?_⟩
  · rw [σ.code_eq, hfinal]
    exact Builder.code_of_emit (.refl _)
  have hc : b1.cursors < b1.newCursor.2.cursors := by
    show b1.cursors < b1.cursors + 1
    omega
  have hclosed : ∀ d, (State.start store).cursors.get? d = none := fun d => Slots.get?_empty d
  rcases htree : store.tree? table.root with _ | (rows | keys)
  · exact emitOpen_fails (b := b1.newCursor.2) hindexes h2.valid hend4 htree
  · refine (emitOpen_leads hindexes h2.valid hend4 (.inl ‹_›) hc hclosed htree (hascending _ htree)).bind ?_
    rintro pc s4 ⟨rfl, hw, hstore⟩
    have hw : Writing s4 b1.cursors table opened rows ((none : Option Entry).map fun e => .rowid e.1) :=
      hw
    rw [← haddress]
    refine (emitRows_leads hemit h47.valid hend8 hpermits hregisters hw (by simp)).bind ?_
    rintro pc s8 ⟨rfl, rows', hstored, hwritten⟩
    refine (emitClose_leads hclose h78.valid hend).mono ?_
    rintro pc s ⟨rfl, hq⟩
    refine ⟨rfl, rows, rows', rfl, hstored, ?_⟩
    rw [hq.store]
    rwa [hstore, hopened] at hwritten
  · obtain ⟨first, more, rfl⟩ := List.exists_cons_of_ne_nil hvalues
    refine (emitOpen_opens hindexes h2.valid hend4 (.inl ‹_›) hc hclosed htree).bind ?_
    rintro pc s4 ⟨rfl, hself, -, -, hidle, hstore⟩
    rw [← haddress]
    exact emitRows_fails hemit h47.valid hend8 hregisters hself (by rw [hstore]; exact htree) hidle

/-- **An INSERT that succeeds found a table, and stored its rows in it.** -/
theorem emit_writes {values : List (List (Nat × Resolved))} {final : Builder} {env : Environment}
    {store store' : Store} {execution : Execution}
    (h : (emit options table values).Gives (Builder.fresh reuse) () final) (hcode : env.code = final.code)
    (hrun : Machine.run env store = (.ok execution, store'))
    (hascending : ∀ rows, store.tree? table.root = some (.table rows) → Rows.Ascending rows) (hvalues : values ≠ []) :
    ∃ rows rows', store.tree? table.root = some (.table rows) ∧ Stored table none rows values rows' ∧
      store.Written table (options.indexes table) (fun index =>
        ((options.indexes table).map (·.root)).Nodup ∧ Tends table index none rows values) rows rows' store' := by
  have hfree := Setting.free_free final env hcode
  have hfinishes := emit_leads (σ := .free final env hcode) h (hfree.permitsInsert table) hascending hvalues
  obtain ⟨s, hwritten, -, rfl⟩ := hfinishes.of_run hrun
  exact hwritten

end Insertion

end QueryMachine
