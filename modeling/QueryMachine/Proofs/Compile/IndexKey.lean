import QueryMachine.Proofs.Compile.Scan
import QueryMachine.Proofs.Record

/-!
# The code of index keys

A key holds the indexed columns of a row as a query reads them, and the rowid. The same key comes
out whether the row is in registers or under a cursor.

* `Table.key` — the key of a row.
* `KeySource.Reads` — a row is where its key is built from.
* `emitKey_leads` — the code of a key leaves its record in a register.
* `emitOpenIndexes_leads` — every index is opened on a cursor of its own.
* `emitKeys_leads` — every index is changed by the key of the row.
-/

namespace QueryMachine

open Machine Emit

variable {σ : Setting} {b b' : Builder} {s s' : State} {table : Table} {source : KeySource} {e : Entry}
  {columns : List String} {name : String} {target : Int} {R : Int → Prop} {opened : List OpenIndex}
  {indexes : List Index} {names : List String} {change : List Value → List (List Value) → List (List Value)}

/-! ## Keys -/

/-- The value of a column as a query reads it. -/
def Table.read (table : Table) (name : String) (e : Entry) : Value :=
  (((⟨table, table.name, 0⟩ : ScopeTable).column? name).map e.read).getD .null

/-- The key of a row: the named columns, and the rowid. -/
def Table.key (table : Table) (columns : List String) (e : Entry) : List Value :=
  columns.map (table.read · e) ++ [.int e.1]

theorem Table.read_eq {i : Nat} (h : table.columnIndex? name = some i) (e : Entry) :
    table.read name e = if table.isRowidAt i then .int e.1 else e.2.getD i .null := by
  simp only [Table.read, ScopeTable.column?, h, Option.map_some, Option.getD_some, ScopeTable.place]
  split <;> rfl

theorem Table.lt_of_columnIndex? {i : Nat} (h : table.columnIndex? name = some i) :
    i < table.columns.length := (List.findIdx?_eq_some_iff_findIdx_eq.mp h).1

theorem Table.eq_of_orderRows_key {columns' : List String} {e e' : Entry}
    (h : Value.orderRows (table.key columns e) (table.key columns' e') = .eq) : e.1 = e'.1 :=
  Value.eq_of_orderRows_concat h

/-! ## Where a key is built from -/

/-- The row is in the registers, as far as the named columns go, or under the cursor. -/
def KeySource.Reads (source : KeySource) (table : Table) (columns : List String) (s : State)
    (e : Entry) : Prop :=
  match source with
  | .registers base rowid => s.get rowid = .int e.1 ∧
      ∀ name ∈ columns, ∀ i, table.columnIndex? name = some i → table.isRowidAt i = false →
        s.get (base + i) = e.2.getD i .null
  | .row c => s.cursors.get? c = some ⟨.stored table.root, some (.rowid e.1)⟩ ∧
      ∃ tree, s.store.tree? table.root = some tree ∧ tree.Reads (.rowid e.1) e

/-- The registers that a key is built from. -/
def KeySource.Uses (source : KeySource) (table : Table) (r : Int) : Prop :=
  match source with
  | .registers base rowid => r = rowid ∨ base ≤ r ∧ r < base + table.columns.length
  | .row _ => False

/-- The record that a key is built from can be decoded. -/
def KeySource.Decodes (source : KeySource) (s : State) : Prop :=
  ∀ c, source = .row c → ∀ pc, ∃ row, s.currentRow pc c = .ok row

/-- The instruction sets the target, unless the record under a cursor cannot be decoded. -/
def Loads (i : Instruction) (s : State) (target : Int) (v : Value) : Prop :=
  Stores i s target v ∨ ∃ error, ∀ env pc, execute env pc i s = .error (.rejected error)

theorem Loads.leads [σ.Lenient] {i : Instruction} {v : Value} (h : Loads i s target v)
    (hend : (b.emit i).Begins σ.final) :
    σ.Leads (fun pc s' => pc = (b.emit i).address ∧ s' = s.set target v) b.address s := by
  rcases h with h | ⟨error, h⟩
  · exact h.leads hend
  · exact .failed hend (h _ _) (σ.admits_rejected error)

theorem loads_column {c : Int} (h : s.StandsOn c e) (index : Nat) (target : Int) :
    Loads (.plain .column c index target) s target (e.2.getD index .null) := by
  rcases h.2 with hrow | ⟨error, hrow⟩
  · refine .inl ⟨rfl, fun env pc => ?_⟩
    simp only [execute, Instruction.plain, readField, hrow, fieldAt_natCast]
  · refine .inr ⟨error, fun env pc => ?_⟩
    simp only [execute, Instruction.plain, readField, hrow]

/-- The row stays where it is while its registers, its cursor and its tree do. -/
theorem KeySource.Reads.keeps (h : source.Reads table columns s e) (hk : Keeps R (fun _ => True) s s')
    (hR : ∀ r, source.Uses table r → R r) (htree : s'.store.tree? table.root = s.store.tree? table.root) :
    source.Reads table columns s' e := by
  cases source with
  | registers base rowid =>
    obtain ⟨hrowid, hfields⟩ := h
    refine ⟨(hk.get rowid (hR rowid (.inl rfl))).trans hrowid, fun name hname i hi hne => ?_⟩
    have hlt := Table.lt_of_columnIndex? hi
    rw [hk.get (base + i) (hR _ (.inr ⟨by omega, by omega⟩))]
    exact hfields name hname i hi hne
  | row c =>
    obtain ⟨hc, tree, hroot, hreads⟩ := h
    exact ⟨(hk.cursors c trivial).trans hc, tree, htree.trans hroot, hreads⟩

theorem KeySource.Reads.quiet (h : source.Reads table columns s e) (hq : Quiet R (fun _ => True) s s')
    (hR : ∀ r, source.Uses table r → R r) : source.Reads table columns s' e :=
  h.keeps hq.toFrame.keeps hR (by rw [hq.store])

theorem KeySource.Decodes.keeps (h : source.Decodes s) (hreads : source.Reads table columns s e)
    (hk : Keeps R (fun _ => True) s s') (htree : s'.store.tree? table.root = s.store.tree? table.root) :
    source.Decodes s' := by
  rintro c rfl pc
  obtain ⟨row, hrow⟩ := h c rfl pc
  refine ⟨row, ?_⟩
  have hcursor : s'.cursors.get? c = s.cursors.get? c := hk.cursors c trivial
  have hc := hreads.1
  simpa only [State.currentRow, State.tree, State.cursor, hcursor, hc, htree] using hrow

theorem KeySource.emitRowid_stores (h : (source.emitRowid target).Gives b () b') :
    ∃ i, b' = b.emit i ∧ ∀ table columns s e, source.Reads table columns s e → Stores i s target (.int e.1) := by
  cases source with
  | registers base rowid =>
    obtain rfl := gives_op.mp h
    refine ⟨_, rfl, fun table columns s e hreads => ⟨rfl, fun env pc => ?_⟩⟩
    simp only [execute, Instruction.plain, hreads.1]
  | row c =>
    obtain rfl := gives_op.mp h
    refine ⟨_, rfl, fun table columns s e hreads => ⟨rfl, fun env pc => ?_⟩⟩
    have hc := hreads.1
    simp only [execute, Instruction.plain, readRowid, State.currentRowid, State.cursor, hc]

theorem KeySource.emitField_stores {index : Nat} (h : (source.emitField index target).Gives b () b') :
    ∃ i, b' = b.emit i ∧ ∀ table columns s e name, source.Reads table columns s e → name ∈ columns →
      table.columnIndex? name = some index → table.isRowidAt index = false → Loads i s target (e.2.getD index .null) ∧
        (source.Decodes s → Stores i s target (e.2.getD index .null)) := by
  cases source with
  | registers base rowid =>
    obtain rfl := gives_op.mp h
    refine ⟨_, rfl, fun table columns s e name hreads hname hindex hne => ?_⟩
    have hstores : Stores (.plain .shallowCopy (base + index) target 0) s target (e.2.getD index .null) := by
      refine ⟨rfl, fun env pc => ?_⟩
      simp only [execute, Instruction.plain, hreads.2 name hname index hindex hne]
    exact ⟨.inl hstores, fun _ => hstores⟩
  | row c =>
    obtain rfl := gives_op.mp h
    refine ⟨_, rfl, fun table columns s e name hreads hname hindex hne => ?_⟩
    obtain ⟨hc, tree, hroot, hreads⟩ := hreads
    have hloads := loads_column (State.standsOn_of_reads hc hroot hreads) index target
    refine ⟨hloads, fun hdecodes => hloads.resolve_right ?_⟩
    rintro ⟨error, herror⟩
    obtain ⟨row, hrow⟩ := hdecodes c rfl 0
    have hfails := herror ⟨#[], [], [], 0⟩ 0
    simp only [execute, Instruction.plain, readField, hrow] at hfails
    cases hfails

/-! ## The code of one key -/

/-- Each column is loaded by one instruction. -/
theorem emitKeyColumns_gives (h : (emitKeyColumns table source (name :: names) target).Gives b () b') :
    ∃ i, (emitKeyColumns table source names (target + 1)).Gives (b.emit i) () b' ∧
      ∀ columns s e, source.Reads table columns s e → name ∈ columns → Loads i s target (table.read name e) ∧
          (source.Decodes s → Stores i s target (table.read name e)) := by
  unfold emitKeyColumns at h
  split at h
  · obtain ⟨_, b1, hthrow, -⟩ := gives_bind.mp h
    exact (gives_throw hthrow).elim
  · rename_i index hindex
    dsimp only at h
    split at h
    · rename_i hrowid
      obtain ⟨_, b1, hload, hrest⟩ := gives_bind.mp h
      obtain ⟨i, rfl, hi⟩ := KeySource.emitRowid_stores hload
      refine ⟨i, hrest, fun columns s e hreads _ => ?_⟩
      rw [Table.read_eq hindex, if_pos hrowid]
      have hstores := hi table columns s e hreads
      exact ⟨.inl hstores, fun _ => hstores⟩
    · rename_i hrowid
      obtain ⟨_, b1, hload, hrest⟩ := gives_bind.mp h
      obtain ⟨i, rfl, hi⟩ := KeySource.emitField_stores hload
      refine ⟨i, hrest, fun columns s e hreads hname => ?_⟩
      rw [Table.read_eq hindex, if_neg hrowid]
      exact hi table columns s e name hreads hname hindex (by simpa using hrowid)

/-- The columns of a key come to stand in a block that is new. -/
theorem emitKeyColumns_leads (h : (emitKeyColumns table source names target).Gives b () b') (hb : b.Valid)
    (hend : b'.Begins σ.final) (hgood : σ.Lenient ∨ source.Decodes s) (ht : 0 < target)
    (hreads : source.Reads table columns s e)
    (huses : ∀ r, source.Uses table r → 0 < r ∧ (r < target ∨ target + names.length ≤ r))
    (hnames : ∀ name ∈ names, name ∈ columns) : σ.Leads (fun pc s' => pc = b'.address ∧
      s'.getBlock target names.length = names.map (table.read · e) ∧
      Quiet (fun r => 0 < r ∧ (r < target ∨ target + names.length ≤ r)) (fun _ => True) s s') b.address s := by
  induction names generalizing b s target with
  | nil =>
    obtain ⟨-, rfl⟩ := gives_pure.mp h
    exact .here ⟨rfl, rfl, .refl s⟩
  | cons name names ih =>
    obtain ⟨i, hrest, hi⟩ := emitKeyColumns_gives h
    have h1 := (Builder.Grows.refl hb).emit i
    have hend1 := (hrest.grows h1.valid).begins.trans hend
    simp only [List.length_cons] at huses ⊢
    obtain ⟨hloads, hstores⟩ := hi columns s e hreads (hnames name List.mem_cons_self)
    have hload : σ.Leads (fun pc s' => pc = (b.emit i).address ∧ s' = s.set target (table.read name e))
        b.address s := by
      rcases hgood with hlenient | hdecodes
      · exact hloads.leads hend1
      · exact (hstores hdecodes).leads hend1
    refine hload.bind ?_
    rintro pc s1 ⟨rfl, rfl⟩
    have hq1 : Quiet (fun r => 0 < r ∧ r ≠ target) (fun _ => True) s
        (s.set target (table.read name e)) := .set s _ fun r hr => hr
    refine (ih hrest h1.valid (hgood.imp_right (·.keeps hreads hq1.toFrame.keeps rfl)) (by omega) (hreads.quiet hq1 ?_) ?_ ?_).mono ?_
    · intro r hr
      have := huses r hr
      omega
    · intro r hr
      have := huses r hr
      omega
    · exact fun name hin => hnames name (List.mem_cons_of_mem _ hin)
    rintro pc s' ⟨rfl, hblock, hq⟩
    refine ⟨rfl, ?_, .trans (hq1.mono ?_ fun _ h => h) (hq.mono ?_ fun _ h => h)⟩
    · rw [State.getBlock_succ, hblock, hq.get target ⟨ht, by omega⟩, State.get_set_self, List.map_cons]
    · rintro r ⟨hr, hout⟩
      omega
    · rintro r ⟨hr, hout⟩
      omega

theorem emitKey_grows {r : Int} (h : (emitKey table columns source).Gives b r b') (hb : b.Valid) :
    b.Grows b' ∧ ¬ b.Holds r := by
  simp only [emitKey, gives_bind, gives_op, gives_pure] at h
  obtain ⟨base, b1, hbase, _, b2, hcolumns, _, b3, hrowid, record, b4, hrecord, _, b5, rfl, rfl, rfl⟩ := h
  have htakes := takes_registers hbase hb
  have h2 := htakes.grows.trans (hcolumns.grows htakes.grows.valid)
  obtain ⟨i, rfl, -⟩ := KeySource.emitRowid_stores hrowid
  have h3 := h2.emit i
  have htakes' := takes_register hrecord h3.valid
  exact ⟨(h3.trans htakes'.grows).emit _, fun hheld => htakes'.new rfl (h3.holds _ hheld)⟩

/-- **The code of a key leaves its record in a register of its own.** It goes through wherever the row can be
decoded and the key is not too long. -/
theorem emitKey_leads {r : Int} (h : (emitKey table columns source).Gives b r b') (hb : b.Valid)
    (hend : b'.Begins σ.final)
    (hgood : σ.Lenient ∨ source.Decodes s ∧ ∃ bytes, Record.encode (table.key columns e) = .ok bytes)
    (hreads : source.Reads table columns s e) (huses : ∀ r, source.Uses table r → b.Holds r) :
    σ.Leads (fun pc s' => pc = b'.address ∧ Quiet b.Holds (fun _ => True) s s' ∧
      ∃ bytes, s'.get r = .blob bytes ∧ Record.encode (table.key columns e) = .ok bytes) b.address s := by
  simp only [emitKey, gives_bind, gives_op, gives_pure] at h
  obtain ⟨base, b1, hbase, _, b2, hcolumns, _, b3, hrowid, record, b4, hrecord, _, b5, rfl, rfl, rfl⟩ := h
  have htakes := takes_registers hbase hb
  have h2 := hcolumns.grows htakes.grows.valid
  obtain ⟨i, rfl, hi⟩ := KeySource.emitRowid_stores hrowid
  have h3 := h2.emit i
  have htakes' := takes_register hrecord h3.valid
  have hstart := registers_eq_next hbase
  have hpos : 0 < base := hstart ▸ hb.next_pos
  -- What is held already lies below the block.
  have hbelow : ∀ q, b.Holds q → 0 < q ∧ q < base := fun q hq => ⟨hq.1, hstart ▸ hq.2.1⟩
  have hend3 : (b2.emit i).Begins σ.final :=
    (htakes'.grows.emit (.plain .makeRecord base (columns.length + 1) r)).begins.trans hend
  have hend2 := ((Builder.Grows.refl h2.valid).emit i).begins.trans hend3
  rw [← htakes.address]
  refine (emitKeyColumns_leads hcolumns htakes.grows.valid hend2 (hgood.imp_right And.left) hpos hreads ?_
    fun _ h => h).bind ?_
  · intro q hq
    have := hbelow q (huses q hq)
    omega
  rintro pc s1 ⟨rfl, hblock, hq1⟩
  have hq1' : Quiet b.Holds (fun _ => True) s s1 := hq1.mono (fun q hq => by
    have := hbelow q hq
    omega) fun _ h => h
  refine ((hi table columns s1 e (hreads.quiet hq1' huses)).leads hend3).bind ?_
  rintro pc s2 ⟨rfl, rfl⟩
  rw [← htakes'.address]
  have hkey : (s1.set (base + columns.length) (.int e.1)).getBlock base (columns.length + 1) =
      table.key columns e := by
    have hcount : (columns.length : Int) + 1 = ((columns.length + 1 : Nat) : Int) := by omega
    rw [hcount, State.getBlock_append]
    have hq2 : Quiet (fun q => 0 < q ∧ q < base + columns.length) (fun _ => True) s1
        (s1.set (base + columns.length) (.int e.1)) := .set s1 _ fun q hq => ⟨hq.1, by omega⟩
    rw [hq2.toFrame.getBlock (fun q hle hlt => ⟨by omega, by omega⟩), hblock, Table.key]
    congr 1
    rw [State.getBlock_succ, State.get_set_self]
    rfl
  cases hencode : Record.encode (table.key columns e) with
  | error error =>
    rcases hgood with hlenient | ⟨-, bytes, hbytes⟩
    · refine .failed hend (f := .rejected error) ?_ (σ.admits_rejected error)
      simp only [execute, Instruction.plain, makeRecord, applyAffinities, hkey, hencode]
    · cases hencode.symm.trans hbytes
  | ok bytes =>
    refine .op hend rfl (t := (s1.set (base + columns.length) (.int e.1)).set r (.blob bytes)) ?_
      (.here ⟨rfl, ?_, bytes, State.get_set_self .., rfl⟩)
    · simp only [execute, Instruction.plain, makeRecord, applyAffinities, hkey, hencode]
    · have hnew : ∀ q, b.Holds q → q ≠ r := fun q hq hqr =>
        htakes'.new hqr (h3.holds _ (htakes.grows.holds _ hq))
      refine .trans (hq1'.trans (.set s1 _ fun q hq => ?_)) (.set _ _ fun q hq => ⟨hq.1, hnew q hq⟩)
      have := hbelow q hq
      omega

/-! ## The code that opens indexes -/

theorem execute_openWrite {env : Environment} {pc : Nat} {c root : Int} {payload : Payload} {tree : Tree}
    (h : s.store.tree? root = some tree) : execute env pc ⟨.openWrite, c, root, 0, payload, 0⟩ s =
      .ok (.next, s.openCursor c (.stored root)) := by
  simp only [execute, openTree, rootOf_plain, h]

/-- Every index is open, and stands nowhere. -/
def OpenedOn (s : State) (opened : List OpenIndex) : Prop :=
  ∀ o ∈ opened, s.cursors.get? o.1 = some ⟨.stored o.2.root, none⟩

theorem OpenedOn.keeps {C : Int → Prop} (h : OpenedOn s opened) (hk : Keeps R C s s') (hC : ∀ o ∈ opened, C o.1) :
    OpenedOn s' opened :=
  fun o ho => (hk.cursors o.1 (hC o ho)).trans (h o ho)

/-- Each index gets a cursor of its own. -/
theorem emitOpenIndexes_grows : (emitOpenIndexes indexes).Gives b opened b' → b.Valid →
      b.Grows b' ∧ opened.map (·.2) = indexes ∧ ∀ o ∈ opened, b.cursors ≤ o.1 := by
  induction indexes generalizing b opened with
  | nil =>
    intro h hb
    obtain ⟨rfl, rfl⟩ := gives_pure.mp h
    exact ⟨.refl hb, rfl, nofun⟩
  | cons index rest ih =>
    intro h hb
    simp only [emitOpenIndexes, gives_bind, gives_newCursor, gives_opWith, gives_pure] at h
    obtain ⟨c, b1, ⟨rfl, rfl⟩, _, b2, rfl, more, b3, hrest, rfl, rfl⟩ := h
    have h2 := (Builder.Grows.refl hb).newCursor.emit ⟨.openWrite, b.cursors, index.root, 0,
      .index index.name, 0⟩
    obtain ⟨h3, hindexes, hcursors⟩ := ih hrest h2.valid
    refine ⟨h2.trans h3, congrArg (index :: ·) hindexes, ?_⟩
    intro o ho
    rcases List.mem_cons.mp ho with rfl | ho
    · exact Int.le_refl _
    · exact Int.le_trans h2.cursors (hcursors o ho)

/-- The indexes are opened, where their trees are there. -/
theorem emitOpenIndexes_leads (h : (emitOpenIndexes indexes).Gives b opened b') (hb : b.Valid)
    (hend : b'.Begins σ.final) (hgood : σ.Lenient ∨ ∀ index ∈ indexes, s.store.tree? index.root ≠ none) :
    σ.Leads (fun pc s' => pc = b'.address ∧ Quiet (fun _ => True) (· < b.cursors) s s' ∧
      OpenedOn s' opened ∧ ∀ c, b.cursors ≤ c → s.cursors.get? c = none →
        ∀ cursor, s'.cursors.get? c = some cursor → ∃ root, cursor = ⟨.stored root, none⟩) b.address s := by
  induction indexes generalizing b opened s with
  | nil =>
    obtain ⟨rfl, rfl⟩ := gives_pure.mp h
    refine .here ⟨rfl, .refl s, nofun, fun c _ hnone cursor hc => ?_⟩
    cases hnone.symm.trans hc
  | cons index rest ih =>
    simp only [emitOpenIndexes, gives_bind, gives_newCursor, gives_opWith, gives_pure] at h
    obtain ⟨c, b1, ⟨rfl, rfl⟩, _, b2, rfl, more, b3, hrest, rfl, rfl⟩ := h
    have h2 := (Builder.Grows.refl hb).newCursor.emit ⟨.openWrite, b.cursors, index.root, 0,
      .index index.name, 0⟩
    have hend2 := (emitOpenIndexes_grows hrest h2.valid).1.begins.trans hend
    cases hroot : s.store.tree? index.root with
    | none =>
      rcases hgood with hlenient | hthere
      · refine .failed (b := b.newCursor.2) hend2 (f := .noSuchRoot index.root) ?_ (σ.admits _ rfl)
        simp only [execute, openTree, rootOf_plain, hroot]
      · exact absurd hroot (hthere index List.mem_cons_self)
    | some tree =>
      refine .op (b := b.newCursor.2) hend2 rfl (execute_openWrite hroot) ?_
      have hopened : Quiet (fun _ => True) (· ≠ b.cursors) s
          (s.openCursor b.cursors (.stored index.root)) := .setCursor s _ fun d hd => hd
      refine (ih hrest h2.valid (hgood.imp_right fun hthere index hin =>
        hthere index (List.mem_cons_of_mem _ hin))).mono ?_
      rintro pc s' ⟨rfl, hq, hmore, hidle⟩
      have hfirst : s'.cursors.get? b.cursors = some ⟨.stored index.root, none⟩ := by
        refine (hq.cursors _ ?_).trans (Slots.get?_set_self ..)
        show b.cursors < b.cursors + 1
        omega
      refine ⟨rfl, ?_, ?_, ?_⟩
      · refine (hopened.mono (fun _ h => h) ?_).trans (hq.mono (fun _ h => h) ?_)
        · exact fun d hd => Int.ne_of_lt hd
        · intro d hd
          show d < b.cursors + 1
          omega
      · intro o ho
        rcases List.mem_cons.mp ho with rfl | ho
        · exact hfirst
        · exact hmore o ho
      · intro d hd hnone cursor hcursor
        by_cases hsame : d = b.cursors
        · rw [hsame, hfirst] at hcursor
          exact ⟨index.root, (Option.some.inj hcursor).symm⟩
        · refine hidle d ?_ ((hopened.cursors d hsame).trans hnone) cursor hcursor
          show b.cursors + 1 ≤ d
          omega

/-! ## The code that changes indexes -/

/-- Each index is changed by the key of the row, and no other tree is, those of tables among them. A
tree that serves several indexes is changed by the key in each of them. -/
structure Store.Rekeyed (change : List Value → List (List Value) → List (List Value)) (table : Table)
    (e : Entry) (indexes : List Index) (st st' : Store) : Prop where
  nextRoot : st'.nextRoot = st.nextRoot
  outside : table.root ∉ indexes.map (·.root)
  other : ∀ root, root ∉ indexes.map (·.root) → st'.tree? root = st.tree? root
  tables : ∀ root rows, st.tree? root = some (.table rows) → st'.tree? root = some (.table rows)
  keys : ∀ root keys, st.tree? root = some (.index keys) → st'.tree? root = some (.index (indexes.foldl
    (fun keys index => if index.root = root then change (table.key index.columns e) keys else keys) keys))

theorem Store.Rekeyed.keys_of_nodup {st st' : Store}
    (h : st.Rekeyed change table e indexes st') (hnodup : (indexes.map (·.root)).Nodup) {index : Index}
    (hindex : index ∈ indexes) {keys : List (List Value)} (hkeys : st.tree? index.root = some (.index keys)) :
    st'.tree? index.root = some (.index (change (table.key index.columns e) keys)) := by
  rw [h.keys _ keys hkeys]
  clear h hkeys
  induction indexes generalizing keys with
  | nil => cases hindex
  | cons first rest ih =>
    obtain ⟨hfirst, hrest⟩ := List.nodup_cons.mp hnodup
    rw [List.foldl_cons]
    rcases List.mem_cons.mp hindex with rfl | hindex
    · rw [if_pos rfl]
      -- No other index has this root.
      have hnone : ∀ keys : List (List Value), rest.foldl (fun keys other => if other.root = index.root then
          change (table.key other.columns e) keys else keys) keys = keys := by
        intro keys
        refine (List.foldl_ext _ (fun keys _ => keys) keys fun _ other hother => ?_).trans
          (List.foldl_fixed _)
        exact if_neg fun heq => hfirst (List.mem_map.mpr ⟨other, hother, heq⟩)
      rw [hnone]
    · rw [if_neg fun heq => hfirst (List.mem_map.mpr ⟨index, hindex, heq.symm⟩)]
      exact ih hrest hindex

/-- An operation on the keys of indexes. -/
structure Opcode.ChangesKeys (opcode : Opcode) (change : List Value → List (List Value) → List (List Value)) :
    Prop where
  changesRows : opcode.changesRows = false
  runs : ∀ env pc i s, i.opcode = opcode → execute env pc i s = changeKeys change pc i s

/-- Nothing stands against the keys of a row: the row can be decoded, no key is too long, and the indexes
have trees. -/
structure Keyed (s : State) (table : Table) (indexes : List Index) (source : KeySource) (e : Entry) :
    Prop where
  decodes : indexes ≠ [] → source.Decodes s
  encodes : ∀ index ∈ indexes, ∃ bytes, Record.encode (table.key index.columns e) = .ok bytes
  trees : ∀ index ∈ indexes, ∃ keys, s.store.tree? index.root = some (.index keys)

/-- **Every open index is changed by the key of the row.** Where the table itself stands at the root of an
index, the program fails. -/
theorem emitKeys_leads {opcode : Opcode} (hop : opcode.ChangesKeys change)
    (h : (emitKeys opcode table source opened).Gives b () b') (hb : b.Valid) (hend : b'.Begins σ.final)
    (hgood : σ.Lenient ∨ Keyed s table (opened.map (·.2)) source e) (hopened : OpenedOn s opened)
    {rows : List (Int64 × Bytes)} (htable : s.store.tree? table.root = some (.table rows))
    (hreads : ∀ o ∈ opened, source.Reads table o.2.columns s e) (huses : ∀ r, source.Uses table r → b.Holds r) :
    σ.Leads (fun pc s' => pc = b'.address ∧ Keeps b.Holds (fun _ => True) s s' ∧
      s.store.Rekeyed change table e (opened.map (·.2)) s'.store) b.address s := by
  induction opened generalizing b s with
  | nil =>
    obtain ⟨-, rfl⟩ := gives_pure.mp h
    exact .here ⟨rfl, .refl s, ⟨rfl, List.not_mem_nil, fun _ _ => rfl, fun _ _ hrows => hrows,
      fun _ _ hkeys => hkeys⟩⟩
  | cons o rest ih =>
    simp only [emitKeys, gives_bind, gives_opWith] at h
    obtain ⟨r, b1, hkey, _, b2, rfl, hrest⟩ := h
    obtain ⟨h1, hnew⟩ := emitKey_grows hkey hb
    have h2 := h1.emit ⟨opcode, o.1, r, 0, .index o.2.name, 0⟩
    have hend2 := (hrest.grows h2.valid).begins.trans hend
    have hend1 := ((Builder.Grows.refl h1.valid).emit _).begins.trans hend2
    refine (emitKey_leads hkey hb hend1 (hgood.imp_right fun hkeyed =>
      ⟨hkeyed.decodes (List.cons_ne_nil _ _), hkeyed.encodes _ List.mem_cons_self⟩) (hreads o List.mem_cons_self) huses).bind ?_
    rintro pc s1 ⟨rfl, hq1, bytes, hget, hencode⟩
    have hdecode := Record.decode_encode hencode
    have hc1 : s1.cursors.get? o.1 = some ⟨.stored o.2.root, none⟩ :=
      (hq1.cursors _ trivial).trans (hopened o List.mem_cons_self)
    -- Where the root holds no index, the instruction fails.
    rcases hroot : s.store.tree? o.2.root with _ | (rows | keys)
    · rcases hgood with hlenient | hkeyed
      · refine .failed hend2 (f := .noSuchRoot o.2.root) ?_ (σ.admits _ rfl)
        rw [hop.runs _ _ _ _ rfl]
        simp only [changeKeys, State.getFields, State.getRecord, hget, hdecode, Fault.lift, State.tree,
          State.cursor, hc1, hq1.store, hroot]
      · obtain ⟨keys, hkeys⟩ := hkeyed.trees _ List.mem_cons_self
        cases hroot.symm.trans hkeys
    · rcases hgood with hlenient | hkeyed
      · refine .failed hend2 (f := .badOperand opcode b1.address .indexOperationOnTable) ?_ (σ.admits _ rfl)
        rw [hop.runs _ _ _ _ rfl]
        simp only [changeKeys, State.getFields, State.getRecord, hget, hdecode, Fault.lift, State.tree,
          State.cursor, hc1, hq1.store, hroot]
      · obtain ⟨keys, hkeys⟩ := hkeyed.trees _ List.mem_cons_self
        cases hroot.symm.trans hkeys
    have hapart : table.root ≠ o.2.root := by
      intro heq
      rw [heq, hroot] at htable
      cases htable
    let store2 := s.store.setTree o.2.root (.index (change (table.key o.2.columns e) keys))
    have hx : execute σ.env b1.address ⟨opcode, o.1, r, 0, .index o.2.name, 0⟩ s1 =
        .ok (.next, { s1 with store := store2 }) := by
      rw [hop.runs _ _ _ _ rfl]
      simp only [changeKeys, State.getFields, State.getRecord, hget, hdecode, Fault.lift, State.tree,
        State.cursor, hc1, hroot, State.setTree, hq1.store, store2]
    refine .op hend2 hop.changesRows hx ?_
    have hk1 : Keeps b.Holds (fun _ => True) s { s1 with store := store2 } :=
      ⟨hq1.get, hq1.rowSets, hq1.cursors⟩
    have hother : ∀ root, root ≠ o.2.root → store2.tree? root = s.store.tree? root :=
      fun root hne => Store.tree?_setTree_of_ne hne
    have hkeyed1 : Keyed s table ((o :: rest).map (·.2)) source e →
        Keyed { s1 with store := store2 } table (rest.map (·.2)) source e := by
      intro hkeyed
      have hdecodes := hkeyed.decodes (List.cons_ne_nil _ _)
      refine ⟨fun _ => hdecodes.keeps (hreads o List.mem_cons_self) hk1 (hother _ hapart),
        fun index hin => hkeyed.encodes index (List.mem_cons_of_mem _ hin), fun index hin => ?_⟩
      by_cases hsame : index.root = o.2.root
      · rw [hsame]
        exact ⟨_, Store.tree?_setTree_self ..⟩
      · obtain ⟨keys, hkeys⟩ := hkeyed.trees index (List.mem_cons_of_mem _ hin)
        exact ⟨keys, (hother _ hsame).trans hkeys⟩
    refine (ih hrest h2.valid (hgood.imp_right hkeyed1) (fun p hp => (hk1.cursors _ trivial).trans
      (hopened p (List.mem_cons_of_mem _ hp))) ((hother _ hapart).trans htable) ?_
      (fun q hq => h2.holds q (huses q hq))).mono ?_
    · intro p hp
      exact (hreads p (List.mem_cons_of_mem _ hp)).keeps hk1 huses (hother _ hapart)
    rintro pc s' ⟨rfl, hk, hrekeyed⟩
    have hrest1 : ∀ root, root ∉ rest.map (·.2.root) → s'.store.tree? root = store2.tree? root := by
      intro root hroot
      refine hrekeyed.other root fun hin => hroot ?_
      rwa [List.map_map] at hin
    refine ⟨rfl, hk1.trans (hk.mono (fun q hq => h2.holds q hq) fun _ h => h), hrekeyed.nextRoot, ?_, ?_, ?_,
      ?_⟩
    · rw [List.map_cons, List.map_cons, List.mem_cons, not_or]
      exact ⟨hapart, hrekeyed.outside⟩
    · intro root hroot
      simp only [List.map_cons, List.map_map, List.mem_cons, not_or] at hroot
      rw [hrest1 root hroot.2, hother root hroot.1]
    · intro root rows' hrows'
      refine hrekeyed.tables root rows' ((hother root fun heq => ?_).trans hrows')
      subst heq
      cases hroot.symm.trans hrows'
    · intro root keys' hkeys'
      rw [List.map_cons, List.foldl_cons]
      by_cases hsame : o.2.root = root
      · subst hsame
        cases hroot.symm.trans hkeys'
        rw [if_pos rfl]
        exact hrekeyed.keys _ _ (Store.tree?_setTree_self ..)
      · rw [if_neg hsame]
        exact hrekeyed.keys root keys' ((hother root fun heq => hsame heq.symm).trans hkeys')

end QueryMachine
