import QueryMachine.Proofs.Database.Mirror

/-!
# A table that is written to

While a statement writes to a table, one cursor is open on the table, one on each of its indexes, and
only that of the table ever stands on a row. Each instruction that changes a row is followed through
this state.

* `Writing` — the cursors and the tree of the table.
* `Writing.insert_performs`, `Writing.delete_performs` — a row is stored, or deleted.
* `Writing.keys_leads` — the keys of a row are put into the indexes, or taken out.
* `Writing.rewind_leads`, `Writing.next_leads` — the loop over the rows.
* `emitOpen_opens`, `emitOpen_leads` — the cursors of a statement that writes.
-/

namespace QueryMachine

open Machine Emit

variable {σ : Setting} {b b' : Builder} {s s' : State} {table : Table} {c : Int}
  {opened : List OpenIndex} {rows : List (Int64 × Bytes)} {position : Option Position} {e : Entry}

/-- A record as statements make it for the table: a value for each column, under the affinity of the column. -/
def Table.Makes (table : Table) (bytes : Bytes) : Prop :=
  ∃ values : List Value, values.length = table.columns.length ∧ Record.encode (table.stored values) = .ok bytes

/-- Such records may be stored. -/
def Setting.PermitsInsert (σ : Setting) (table : Table) : Prop :=
  ∀ i s bytes, i.opcode = .insert → s.get i.p2 = .blob bytes → table.Makes bytes → σ.Permits i s

theorem Setting.Free.permitsInsert (h : σ.Free) (table : Table) : σ.PermitsInsert table :=
  fun i s _ _ _ _ => h.permits i s

/-- A cursor is open on a table with the given rows, its indexes are open too, and no other cursor
stands anywhere. -/
structure Writing (s : State) (c : Int) (table : Table) (opened : List OpenIndex)
    (rows : List (Int64 × Bytes)) (position : Option Position) : Prop where
  cursor : s.cursors.get? c = some ⟨.stored table.root, position⟩
  tree : s.store.tree? table.root = some (.table rows)
  ascending : Rows.Ascending rows
  indexes : OpenedOn s opened
  apart : ∀ o ∈ opened, o.1 ≠ c
  idle : ∀ d, d ≠ c → ∀ cursor, s.cursors.get? d = some cursor → ∃ root, cursor = ⟨.stored root, none⟩

/-! ## What can be read -/

theorem Rows.Ascending.reads (h : Rows.Ascending rows) (he : e ∈ Rows.entries rows) :
    (Tree.table rows).Reads (.rowid e.1) e := by
  obtain ⟨record, hrow, hvalues⟩ := Rows.mem_entries.mp he
  exact ⟨rfl, record, (Rows.get?_eq_some h).mpr hrow, hvalues⟩

/-- Through a cursor that stands nowhere nothing is read. -/
theorem Machine.State.hides_of_idle {A : Fault → Prop} (hA : ∀ f, f.isViolation = false → A f) {p : Place}
    (h : ∀ cursor, s.cursors.get? p.cursor = some cursor → ∃ root, cursor = ⟨.stored root, none⟩) : s.Hides A p := by
  cases p with
  | field d index =>
    intro pc
    cases hd : s.cursors.get? d with
    | none => exact ⟨.cursorNotOpen d pc, hA _ rfl, by simp only [currentRow, cursor, hd]⟩
    | some cursor =>
      obtain ⟨root, rfl⟩ := h cursor hd
      cases hroot : s.store.tree? root with
      | none =>
        exact ⟨.noSuchRoot root, hA _ rfl, by simp only [currentRow, tree, State.cursor, hd, hroot]⟩
      | some tree =>
        refine ⟨.noCurrentRow d pc, hA _ rfl, ?_⟩
        cases tree <;> simp only [currentRow, State.tree, State.cursor, hd, hroot]
  | rowid d =>
    intro pc
    cases hd : s.cursors.get? d with
    | none => exact ⟨.cursorNotOpen d pc, hA _ rfl, by simp only [currentRowid, cursor, hd]⟩
    | some cursor =>
      obtain ⟨root, rfl⟩ := h cursor hd
      exact ⟨.noCurrentRow d pc, hA _ rfl, by simp only [currentRowid, State.cursor, hd]⟩

namespace Writing

theorem standsOn (h : Writing s c table opened rows (some (.rowid e.1)))
    (he : e ∈ Rows.entries rows) : s.StandsOn c e :=
  State.standsOn_of_reads h.cursor h.tree (h.ascending.reads he)

theorem currentRowid {id : Int64} (h : Writing s c table opened rows (some (.rowid id))) (pc : Nat) :
    s.currentRowid pc c = .ok id := by
  simp only [State.currentRowid, State.cursor, h.cursor]

theorem reads [σ.Lenient] (h : Writing s c table opened rows (some (.rowid e.1))) (he : e ∈ Rows.entries rows)
    (p : Place) : s.Shows p (e.read p) ∨ s.Hides σ.Admits p := by
  by_cases hc : p.cursor = c
  · exact (hc ▸ h.standsOn he : s.StandsOn p.cursor e).reads
  · exact .inr (State.hides_of_idle σ.admits (h.idle _ hc))

theorem hides [σ.Lenient] (h : Writing s c table opened rows none) (p : Place) : s.Hides σ.Admits p := by
  refine State.hides_of_idle σ.admits fun cursor hcursor => ?_
  by_cases hc : p.cursor = c
  · rw [hc, h.cursor] at hcursor
    exact ⟨table.root, (Option.some.inj hcursor).symm⟩
  · exact h.idle _ hc cursor hcursor

theorem keySource (h : Writing s c table opened rows (some (.rowid e.1))) (he : e ∈ Rows.entries rows)
    (columns : List String) : (KeySource.row c).Reads table columns s e :=
  ⟨h.cursor, _, h.tree, h.ascending.reads he⟩

/-! ## What keeps the state -/

section

variable (h : Writing s c table opened rows position)

include h

theorem keeps {R : Int → Prop} (hk : Keeps R (fun _ => True) s s')
    (htree : s'.store.tree? table.root = s.store.tree? table.root) : Writing s' c table opened rows position where
  cursor := (hk.cursors c trivial).trans h.cursor
  tree := htree.trans h.tree
  ascending := h.ascending
  indexes := h.indexes.keeps hk fun _ _ => trivial
  apart := h.apart
  idle d hd cursor hcursor := h.idle d hd cursor ((hk.cursors d trivial).symm.trans hcursor)

theorem quiet {R : Int → Prop} (hq : Quiet R (fun _ => True) s s') : Writing s' c table opened rows position :=
  h.keeps hq.toFrame.keeps (by rw [hq.store])

/-- The tree of the table may change, and its cursor move. -/
theorem change {rows' : List (Int64 × Bytes)} {position' : Option Position} (hrows' : Rows.Ascending rows')
    (hcursor : s'.cursors.get? c = some ⟨.stored table.root, position'⟩)
    (hother : ∀ d, d ≠ c → s'.cursors.get? d = s.cursors.get? d)
    (htree : s'.store.tree? table.root = some (.table rows')) : Writing s' c table opened rows' position' where
  cursor := hcursor
  tree := htree
  ascending := hrows'
  indexes o ho := (hother o.1 (h.apart o ho)).trans (h.indexes o ho)
  apart := h.apart
  idle d hd cursor hd' := h.idle d hd cursor ((hother d hd).symm.trans hd')

theorem setPosition (position' : Option Position) :
    Writing (s.setPosition c position') c table opened rows position' := by
  have hq := State.quiet_setPosition s c position'
  refine h.change h.ascending ?_ (fun d hd => hq.cursors d hd) ?_
  · rw [State.setPosition_eq h.cursor]
    exact Slots.get?_set_self ..
  · rw [hq.store]
    exact h.tree

end

/-! ## Rows -/

/-- A row is stored, and the cursor stands on it. -/
theorem insert_performs {record rowid : Int} {payload : Payload} {bytes : Bytes} {id : Int64}
    (h : Writing s c table opened rows position) (hrecord : s.get record = .blob bytes)
    (hrowid : s.get rowid = .int id) (hend : (b.emit ⟨.insert, c, record, rowid, payload, 0⟩).Begins σ.final)
    (hpermits : σ.Permits ⟨.insert, c, record, rowid, payload, 0⟩ s) :
    σ.Performs [.insert] (fun pc s' => pc = (b.emit ⟨.insert, c, record, rowid, payload, 0⟩).address ∧
      Writing s' c table opened (Rows.put id bytes rows) (some (.rowid id)) ∧ Keeps (fun _ => True) (· ≠ c) s s' ∧
      s'.store = s.store.setTree table.root (.table (Rows.put id bytes rows))) b.address s := by
  have hc := h.cursor
  let s1 : State := { s with store := s.store.setTree table.root (.table (Rows.put id bytes rows)) }
  have hq := State.quiet_setPosition s1 c (some (.rowid id))
  refine .op hend (t := s1.setPosition c (some (.rowid id))) ?_ rfl hpermits ⟨rfl, ?_, ?_, hq.store⟩
  · simp only [execute, insertRow, State.getRecord, hrecord, hrowid, State.tree, State.cursor, hc,
      h.tree, State.setTree, Value.toInt64, s1]
  · refine h.change h.ascending.put ?_ (fun d hd => hq.cursors d hd) ?_
    · rw [State.setPosition_eq (s := s1) hc]
      exact Slots.get?_set_self ..
    · rw [hq.store]
      exact Store.tree?_setTree_self ..
  · exact ⟨hq.get, hq.rowSets, hq.cursors⟩

/-- The row under the cursor is deleted; the cursor stays at its place. -/
theorem delete_performs {payload : Payload} {id : Int64} (h : Writing s c table opened rows (some (.rowid id)))
    (hend : (b.emit ⟨.delete, c, 0, 0, payload, 0⟩).Begins σ.final)
    (hpermits : σ.Permits ⟨.delete, c, 0, 0, payload, 0⟩ s) :
    σ.Performs [.delete] (fun pc s' => pc = (b.emit ⟨.delete, c, 0, 0, payload, 0⟩).address ∧
      Writing s' c table opened (Rows.erase id rows) (some (.rowid id)) ∧ Keeps (fun _ => True) (fun _ => True) s s' ∧
      s'.store = s.store.setTree table.root (.table (Rows.erase id rows))) b.address s := by
  have hc := h.cursor
  let s1 : State := { s with store := s.store.setTree table.root (.table (Rows.erase id rows)) }
  refine .op hend (t := s1) ?_ rfl hpermits
    ⟨rfl, ?_, ⟨fun _ _ => rfl, fun _ _ => rfl, fun _ _ => rfl⟩, rfl⟩
  · simp only [execute, deleteRow, State.tree, State.cursor, hc, h.tree, State.setTree, s1]
  · exact h.change h.ascending.erase hc (fun _ _ => rfl) (Store.tree?_setTree_self ..)

/-- The keys of a row are put into every index, or taken out. -/
theorem keys_leads {opcode : Opcode} {change : List Value → List (List Value) → List (List Value)}
    {source : KeySource} (h : Writing s c table opened rows position) (hop : opcode.ChangesKeys change)
    (hkeys : (emitKeys opcode table source opened).Gives b () b') (hb : b.Valid) (hend : b'.Begins σ.final)
    (hgood : σ.Lenient ∨ Keyed s table (opened.map (·.2)) source e)
    (hreads : ∀ o ∈ opened, source.Reads table o.2.columns s e) (huses : ∀ r, source.Uses table r → b.Holds r) :
    σ.Leads (fun pc s' => pc = b'.address ∧ Writing s' c table opened rows position ∧
      Keeps b.Holds (fun _ => True) s s' ∧ s.store.Rekeyed change table e (opened.map (·.2)) s'.store) b.address s := by
  refine (emitKeys_leads hop hkeys hb hend hgood h.indexes h.tree hreads huses).mono ?_
  rintro pc s' ⟨rfl, hk, hrekeyed⟩
  exact ⟨rfl, h.keeps hk (hrekeyed.other _ hrekeyed.outside), hk, hrekeyed⟩

/-! ## The loop over the rows -/

theorem walks (h : Writing s c table opened rows position) : s.Walks c (Rows.walk rows) :=
  ⟨_, _, h.cursor, h.tree, Tree.lists_table h.ascending⟩

/-- Going to the first row, or out of the loop if there is none. -/
theorem rewind_leads {exit : Label} {a : Nat} (h : Writing s c table opened rows position)
    (hend : (b.emitJump .rewind c 0 exit .empty 0).Begins σ.final) (hl : exit < b.labels.size) (hat : σ.At exit a) :
    σ.Leads (fun pc s' => Writing s' c table opened rows (rows.head?.map fun row => .rowid row.1) ∧
      Quiet (fun _ => True) (· ≠ c) s s' ∧
      pc = if rows.isEmpty then a else (b.emitJump .rewind c 0 exit .empty 0).address) b.address s := by
  refine (QueryMachine.rewind_leads hend hl hat h.walks).mono ?_
  rintro pc s' ⟨rfl, hpc⟩
  have hfirst : (Rows.walk rows).head?.map (·.1) = rows.head?.map fun row => .rowid row.1 := by
    simp [Rows.walk, Function.comp_def]
  rw [hfirst]
  refine ⟨h.setPosition _, State.quiet_setPosition .., ?_⟩
  rw [Builder.address_emitJump, hpc]
  simp [Rows.walk]

/-- Going to the next row at the end of a loop, or out of it if there is none. -/
theorem next_leads {head : Label} {a : Nat} {before rest : List (Int64 × Bytes)} {row : Int64 × Bytes}
    (h : Writing s c table opened (before ++ row :: rest) (some (.rowid row.1)))
    (hend : (b.emitJump .next c 0 head .empty 0).Begins σ.final) (hl : head < b.labels.size) (hat : σ.At head a) :
    σ.Leads (fun pc s' => Writing s' c table opened (before ++ row :: rest) (rest.head?.map fun row => .rowid row.1) ∧
      Quiet (fun _ => True) (· ≠ c) s s' ∧
      pc = if rest.isEmpty then (b.emitJump .next c 0 head .empty 0).address else a) b.address s := by
  have hwalks := h.walks
  have hsplit : Rows.walk (before ++ row :: rest) = Rows.walk before ++
      (.rowid row.1, (row.1, (Record.decode row.2).toOption.getD [])) :: Rows.walk rest := by
    simp [Rows.walk]
  rw [hsplit] at hwalks
  refine (QueryMachine.next_leads hend hl hat hwalks h.cursor).mono ?_
  rintro pc s' ⟨rfl, hpc⟩
  have hfirst : (Rows.walk rest).head?.map (·.1) = rest.head?.map fun row => .rowid row.1 := by
    simp [Rows.walk, Function.comp_def]
  rw [hfirst]
  refine ⟨h.setPosition _, State.quiet_setPosition .., ?_⟩
  rw [Builder.address_emitJump, hpc]
  simp [Rows.walk]

end Writing

theorem idxInsert_changesKeys : Opcode.idxInsert.ChangesKeys Keys.add :=
  ⟨rfl, fun env pc i s h => by simp only [execute, h]⟩

theorem idxDelete_changesKeys : Opcode.idxDelete.ChangesKeys Keys.erase :=
  ⟨rfl, fun env pc i s h => by simp only [execute, h]⟩

/-! ## Opening a table and its indexes -/

/-- The indexes that a statement keeps in step with a table. -/
def Options.indexes (options : Options) (table : Table) : List Index :=
  if options.maintainIndexes then table.indexes else []

section Open

variable {indexes : List Index} (hindexes : (emitOpenIndexes indexes).Gives
  (b.emit ⟨.openWrite, c, table.root, 0, .table table.name, 0⟩) opened b') (hb : b.Valid)

include hindexes hb

theorem emitOpen_grows : b.Grows b' ∧ opened.map (·.2) = indexes ∧ ∀ o ∈ opened, b.cursors ≤ o.1 := by
  have h1 := (Builder.Grows.refl hb).emit ⟨.openWrite, c, table.root, 0, .table table.name, 0⟩
  obtain ⟨h2, heq, hcursors⟩ := emitOpenIndexes_grows hindexes h1.valid
  exact ⟨h1.trans h2, heq, hcursors⟩

/-- A tree and the indexes of its table are opened, where no cursor was open before. None of them stands
anywhere. -/
theorem emitOpen_opens {tree : Tree} (hend : b'.Begins σ.final)
    (hgood : σ.Lenient ∨ ∀ index ∈ indexes, s.store.tree? index.root ≠ none) (hc : c < b.cursors)
    (hclosed : ∀ d, s.cursors.get? d = none) (htree : s.store.tree? table.root = some tree) :
    σ.Leads (fun pc s' => pc = b'.address ∧ s'.cursors.get? c = some ⟨.stored table.root, none⟩ ∧
      OpenedOn s' opened ∧ (∀ o ∈ opened, o.1 ≠ c) ∧
      (∀ d cursor, s'.cursors.get? d = some cursor → ∃ root, cursor = ⟨.stored root, none⟩) ∧
      s'.store = s.store) b.address s := by
  obtain ⟨-, -, hcursors⟩ := emitOpen_grows hindexes hb
  have h1 := (Builder.Grows.refl hb).emit ⟨.openWrite, c, table.root, 0, .table table.name, 0⟩
  have hend1 := (emitOpenIndexes_grows hindexes h1.valid).1.begins.trans hend
  refine .op hend1 rfl (execute_openWrite htree) ?_
  refine (emitOpenIndexes_leads (s := s.openCursor c (.stored table.root)) hindexes h1.valid hend hgood).mono ?_
  rintro pc s' ⟨rfl, hq, hon, hidle⟩
  have hbelow : ∀ d, d < b.cursors → s'.cursors.get? d =
      (s.openCursor c (.stored table.root)).cursors.get? d := fun d hd => hq.cursors d hd
  have hself : s'.cursors.get? c = some ⟨.stored table.root, none⟩ :=
    (hbelow c hc).trans (Slots.get?_set_self ..)
  refine ⟨rfl, hself, hon, ?_, ?_, hq.store⟩
  · intro o ho heq
    have := hcursors o ho
    omega
  · intro d cursor hcursor
    by_cases hd : d = c
    · rw [hd, hself] at hcursor
      exact ⟨table.root, (Option.some.inj hcursor).symm⟩
    · have hnone : (s.openCursor c (.stored table.root)).cursors.get? d = none :=
        (Slots.get?_set_of_ne _ _ hd).trans (hclosed d)
      by_cases hlt : d < b.cursors
      · rw [hbelow d hlt, hnone] at hcursor
        cases hcursor
      · exact hidle d (Int.not_lt.mp hlt) hnone cursor hcursor

/-- A table and its indexes are opened, where no cursor was open before. -/
theorem emitOpen_leads (hend : b'.Begins σ.final)
    (hgood : σ.Lenient ∨ ∀ index ∈ indexes, s.store.tree? index.root ≠ none) (hc : c < b.cursors)
    (hclosed : ∀ d, s.cursors.get? d = none) (htree : s.store.tree? table.root = some (.table rows))
    (hrows : Rows.Ascending rows) :
    σ.Leads (fun pc s' => pc = b'.address ∧ Writing s' c table opened rows none ∧
      s'.store = s.store) b.address s := by
  refine (emitOpen_opens hindexes hb hend hgood hc hclosed htree).mono ?_
  rintro pc s' ⟨rfl, hself, hon, hapart, hidle, hstore⟩
  refine ⟨rfl, ⟨hself, ?_, hrows, hon, hapart, fun d _ => hidle d⟩, hstore⟩
  rw [hstore]
  exact htree

theorem emitOpen_fails [σ.Lenient] {Q : Nat → State → Prop} (hend : b'.Begins σ.final)
    (htree : s.store.tree? table.root = none) : σ.Leads Q b.address s := by
  have h1 := (Builder.Grows.refl hb).emit ⟨.openWrite, c, table.root, 0, .table table.name, 0⟩
  refine .failed ((emitOpenIndexes_grows hindexes h1.valid).1.begins.trans hend)
    (f := .noSuchRoot table.root) ?_ (σ.admits _ rfl)
  simp only [execute, openTree, rootOf_plain, htree]

end Open

/-! ## The registers of a row -/

/-- Registers for a rowid, the columns of a row and its record. -/
structure RowRegisters (b : Builder) (table : Table) (rowid base record : Int) : Prop where
  rowid_held : b.Holds rowid
  block_held : b.HoldsBlock base table.columns.length
  record_held : b.Holds record
  rowid_lt : rowid < base
  record_ge : base + table.columns.length ≤ record

theorem RowRegisters.grows {rowid base record : Int} (h : RowRegisters b table rowid base record)
    (hg : b.Grows b') : RowRegisters b' table rowid base record :=
  ⟨hg.holds _ h.rowid_held, hg.holdsBlock h.block_held, hg.holds _ h.record_held, h.rowid_lt,
    h.record_ge⟩

theorem rowRegisters_of_gives {b1 b2 : Builder} {rowid base record : Int} (hrowid : register.Gives b rowid b1)
    (hbase : (registers table.columns.length).Gives b1 base b2) (hrecord : register.Gives b2 record b') (hb : b.Valid) :
    b.Grows b' ∧ b'.address = b.address ∧ RowRegisters b' table rowid base record := by
  have h1 := takes_register hrowid hb
  have h2 := takes_registers hbase h1.grows.valid
  have h3 := takes_register hrecord h2.grows.valid
  refine ⟨(h1.grows.trans h2.grows).trans h3.grows, ?_, ?_⟩
  · rw [h3.address, h2.address, h1.address]
  · refine ⟨(h2.grows.trans h3.grows).holds _ (h1.held rfl), ?_, h3.held rfl, ?_, ?_⟩
    · exact fun r hle hlt => h3.grows.holds _ (h2.held ⟨hle, hlt⟩)
    · rw [registers_eq_next hbase, next_of_register hrowid]
      omega
    · exact Int.le_of_eq (by rw [register_eq_next hrecord, next_of_registers hbase (by omega)])

end QueryMachine
