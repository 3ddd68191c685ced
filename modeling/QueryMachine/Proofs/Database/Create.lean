import QueryMachine.Proofs.Database.Writing
import QueryMachine.Proofs.Outline.Catalog

/-!
# Filling a new index

CREATE INDEX makes a tree, adds its row to the catalog, and then walks over the rows of the table and puts
the key of each into the new tree. Each row has a rowid of its own, which is the last field of its key, so
no two keys are equal and the index gets exactly one key for every row.

* `Catalog.emitEntry_leads` — a tree is made and entered into the catalog.
* `IndexDef.emit_fills` — the new index has one key for every row.
-/

namespace QueryMachine

open Emit Machine Catalog

variable {σ : Setting} {b b' : Builder} {s : State}

/-! ## The row of the catalog -/

namespace Catalog

variable {cursor r : Int} {e : Catalog.Entry}

theorem emitEntry_grows (h : (emitEntry cursor e).Gives b r b') (hb : b.Valid) : b.Grows b' ∧ b'.Holds r := by
  refine ⟨h.grows hb, ?_⟩
  obtain ⟨b1, rowid, b4, base, b5, record, b6, hr, hrowid, hbase, hrecord, rfl⟩ := emitEntry_gives h
  have hr := takes_register hr hb
  have hrowid := takes_register hrowid hr.grows.valid
  have hbase := takes_registers hbase hrowid.grows.valid
  have hrecord := takes_register hrecord hbase.grows.valid
  exact hrecord.grows.holds r (hbase.grows.holds r (hrowid.grows.holds r (hr.held rfl)))

/-- The values of a catalog row are loaded. -/
theorem load_leads {base : Int} {number : Int64} (hget : s.get r = .int number) (hbase : 0 < base) (hr : r < base)
    (hend : (loading b base r e).Begins σ.final) (hpos : 0 < r) :
    σ.Leads (fun pc s' => pc = (loading b base r e).address ∧ Quiet (fun q => 0 < q ∧ q < base) (fun _ => True) s s' ∧
      s'.getBlock base 5 = e.values number) b.address s := by
  have hset : ∀ (s : State) {q : Int} (v : Value), base ≤ q →
      Quiet (fun q => 0 < q ∧ q < base) (fun _ => True) s (s.set q v) :=
    fun s q v hq => .set s v fun p hp => ⟨hp.1, by omega⟩
  let s1 := s.set base (.text e.kind.name)
  let s2 := s1.set (base + 1) (.text e.name)
  let s3 := s2.set (base + 2) (.text e.tableName)
  let s4 := s3.set (base + 3) (.int number)
  let s5 := s4.set (base + 4) (.text e.sql)
  have hq3 : Quiet (fun q => 0 < q ∧ q < base) (fun _ => True) s s3 :=
    ((hset s _ (Int.le_refl _)).trans (hset s1 _ (by omega))).trans (hset s2 _ (by omega))
  have hend4 := (Builder.Begins.emit _ _).trans hend
  have hend3 := (Builder.Begins.emit _ _).trans hend4
  have hend2 := (Builder.Begins.emit _ _).trans hend3
  have hend1 := (Builder.Begins.emit _ _).trans hend2
  refine .op hend1 rfl (t := s1) rfl (.op hend2 rfl (t := s2) rfl (.op hend3 rfl (t := s3) rfl ?_))
  refine .op hend4 rfl (t := s4) ?_ (.op hend rfl (t := s5) rfl (.here ⟨rfl, ?_, ?_⟩))
  · have hcopied : s3.get r = .int number := (hq3.get r ⟨hpos, hr⟩).trans hget
    simp only [execute, Instruction.plain, hcopied, s4]
  · exact (hq3.trans (hset s3 _ (by omega))).trans (hset s4 _ (by omega))
  · have hblock : s5.getBlock base 5 = [s5.get (base + 0), s5.get (base + 1), s5.get (base + 2),
        s5.get (base + 3), s5.get (base + 4)] := rfl
    rw [hblock]
    simp (disch := omega) only [s5, s4, s3, s2, s1, State.get_set_self, State.get_set_of_ne, Int.add_zero,
      Entry.values]

/-- **A tree is made and its row added to the catalog.** -/
theorem emitEntry_leads (hfree : σ.Free) (h : (emitEntry cursor e).Gives b r b') (hb : b.Valid)
    (hend : b'.Begins σ.final) {rows : List (Int64 × Bytes)}
    (hrows : (Made s.store e).tree? root = some (.table rows)) :
    σ.Leads (fun pc s' => pc = b'.address ∧ Entered s.store e s'.store ∧
      s'.get r = .int (Int64.ofInt s.store.nextRoot) ∧ s'.cursors.get? cursor = none ∧
      ∀ d, d ≠ cursor → s'.cursors.get? d = s.cursors.get? d) b.address s := by
  obtain ⟨b1, rowid, b4, base, b5, record, b6, hr, hrowid, hbase, hrecord, rfl⟩ := emitEntry_gives h
  have hr' := takes_register hr hb
  have h3 := ((Builder.Grows.refl hr'.grows.valid).emit (.plain .createBtree 0 r e.kind.treeCode)).emit
    ⟨.openWrite, cursor, root, 0, .table tableName, 0⟩
  have hrowid' := takes_register hrowid h3.valid
  have hbase' := takes_registers hbase hrowid'.grows.valid
  have hrecord' := takes_register hrecord hbase'.grows.valid
  have h36 := (hrowid'.grows.trans hbase'.grows).trans hrecord'.grows
  have haddress := (hrecord'.address.trans hbase'.address).trans hrowid'.address
  have hrowid_eq : rowid = r + 1 := (register_eq_next hrowid).trans (next_of_register hr : b1.pool.next = r + 1)
  have hbase_eq : base = rowid + 1 := (registers_eq_next hbase).trans (next_of_register hrowid)
  have hrecord_eq : record = base + 5 :=
    (register_eq_next hrecord).trans (next_of_registers hbase (by decide))
  have hend14 := (Builder.Begins.emit _ _).trans hend
  have hend13 := (Builder.Begins.emit _ _).trans hend14
  have hend12 := (Builder.Begins.emit _ _).trans hend13
  have hend7 : (b6.emit (.plain .newRowid cursor rowid 0)).Begins σ.final :=
    ((((((Builder.Begins.emit _ _).trans (.emit _ _)).trans (.emit _ _)).trans (.emit _ _)).trans
      (.emit _ _)).trans (.refl _)).trans hend12
  have hend3 := (h36.begins.trans (.emit _ _)).trans hend7
  have hend2 := (Builder.Begins.emit _ _).trans hend3
  -- The tree is made, and the catalog opened.
  let s1 : State := { s with store := Made s.store e }.set r (.int (Int64.ofInt s.store.nextRoot))
  let s2 := s1.openCursor cursor (.stored root)
  let s3 := s2.set rowid (.int (Tree.table rows).nextRowid)
  have hcursor2 : s2.cursors.get? cursor = some ⟨.stored root, none⟩ := Slots.get?_set_self ..
  rw [← hr'.address]
  refine .op hend2 rfl (t := s1) ?_ (.op hend3 rfl (t := s2) (execute_openWrite hrows) ?_)
  · cases hkind : e.kind <;> simp [execute, Instruction.plain, createTree, Kind.treeCode, Made, Entry.tree,
      hkind, Store.create, s1]
  rw [← haddress]
  refine .op hend7 rfl (t := s3) ?_ ?_
  · simp only [execute, Instruction.plain, newRowid, State.tree_eq hcursor2 hrows, s3]
  -- The row is put together.
  have hpos : 0 < r := (hr'.held rfl : b1.Holds r).1
  have hget3 : s3.get r = .int (Int64.ofInt s.store.nextRoot) :=
    (State.get_set_of_ne _ _ hpos (by omega)).trans (State.get_set_self ..)
  refine (load_leads (e := e) hget3 (by omega) (by omega) hend12 hpos).bind ?_
  rintro pc s8 ⟨rfl, hq, hblock⟩
  have hstore8 : s8.store = Made s.store e := hq.store
  cases hencode : e.encode (Int64.ofInt s.store.nextRoot) with
  | error error =>
    refine .failed hend13 (f := .rejected error) ?_ (hfree.admits _)
    simp only [execute, makeRecord, hblock, applyAffinities_values]
    rw [show Record.encode (e.values (Int64.ofInt s.store.nextRoot)) = _ from hencode]
  | ok bytes =>
    let s9 := s8.set record (.blob bytes)
    refine .op hend13 rfl (t := s9) ?_ ?_
    · simp only [execute, makeRecord, hblock, applyAffinities_values]
      rw [show Record.encode (e.values (Int64.ofInt s.store.nextRoot)) = _ from hencode]
    -- The row is added, and the catalog closed.
    have hcursor9 : s9.cursors.get? cursor = some ⟨.stored root, none⟩ :=
      (hq.cursors cursor trivial).trans hcursor2
    have htree9 : s9.store.tree? root = some (.table rows) := hstore8 ▸ hrows
    have hid : s9.get rowid = .int (Tree.table rows).nextRowid :=
      (State.get_set_of_ne _ _ (by omega) (by omega)).trans
        ((hq.get rowid ⟨by omega, by omega⟩).trans (State.get_set_self ..))
    have hbytes : s9.get record = .blob bytes := State.get_set_self ..
    let put := Rows.put (Tree.table rows).nextRowid bytes rows
    let s10 : State := { s9 with
      store := s9.store.setTree root (.table put)
      cursors := s9.cursors.set cursor ⟨.stored root, some (.rowid (Tree.table rows).nextRowid)⟩ }
    refine .permitted hend14 (hfree.permits _ _) (t := s10) ?_
      (.op hend rfl (t := { s10 with cursors := s10.cursors.erase cursor }) rfl
        (.here ⟨rfl, ?_, ?_, Slots.get?_erase_self .., fun d hd => ?_⟩))
    · simp only [execute, insertRow, getRecord_of_get hbytes, hid, Value.toInt64,
        State.tree_eq hcursor9 htree9, State.setTree, State.setPosition, hcursor9, s10, put]
    · refine ⟨rows, bytes, hrows, hencode, ?_⟩
      show s8.store.setTree root (.table put) = _
      rw [hstore8]
    · exact (State.get_set_of_ne _ _ hpos (by omega)).trans ((hq.get r ⟨hpos, by omega⟩).trans hget3)
    · refine (Slots.get?_erase_of_ne _ hd).trans ((Slots.get?_set_of_ne _ _ hd).trans ?_)
      exact (hq.cursors d trivial).trans (Slots.get?_set_of_ne _ _ hd)

end Catalog

/-! ## One key for every row -/

/-- A key that equals no other is one more key. -/
theorem Keys.perm_add {key : List Value} {keys : List (List Value)}
    (h : ∀ k ∈ keys, Value.orderRows key k ≠ .eq) : (add key keys).Perm (key :: keys) := by
  induction keys with
  | nil => exact .refl _
  | cons first keys ih =>
    obtain ⟨hfirst, hrest⟩ := List.forall_mem_cons.mp h
    unfold add
    split
    · exact .refl _
    · rename_i heq
      exact absurd heq hfirst
    · exact ((ih hrest).cons first).trans (.swap ..)

variable {st st' : Store} {table : Table} {index : Index} {rows before rest : List (Int64 × Bytes)}
  {row : Int64 × Bytes}

/-- The index has exactly one key for every row: the key of the row. -/
def Store.Indexed (st : Store) (table : Table) (index : Index) (rows : List (Int64 × Bytes)) : Prop :=
  ∃ keys, st.tree? index.root = some (.index keys) ∧
    keys.Perm ((Rows.entries rows).map (table.key index.columns))

theorem Store.Indexed.mirrors (h : st.Indexed table index rows) : st.Mirrors table index rows := by
  obtain ⟨keys, hkeys, hperm⟩ := h
  refine ⟨keys, hkeys, fun key => ?_⟩
  rw [hperm.mem_iff, List.mem_map]
  exact exists_congr fun e => and_congr_right fun _ => eq_comm

/-- The key of a further row is added. -/
theorem Store.Indexed.add (h : st.Indexed table index before) (hrows : Rows.Ascending (before ++ row :: rest))
    (hkeys : st.Rekeyed Keys.add table (Rows.entry row) [index] st') : st'.Indexed table index (before ++ [row]) := by
  obtain ⟨keys, htree, hperm⟩ := h
  refine ⟨_, hkeys.keys_of_nodup (List.pairwise_singleton ..) List.mem_cons_self htree, ?_⟩
  -- The rows so far have other rowids.
  have hother : ∀ k ∈ keys, Value.orderRows (table.key index.columns (Rows.entry row)) k ≠ .eq := by
    intro k hk heq
    obtain ⟨e, he, rfl⟩ := List.mem_map.mp (hperm.mem_iff.mp hk)
    obtain ⟨record, hin, -⟩ := Rows.mem_entries.mp he
    have hlt := (List.pairwise_append.mp hrows).2.2 _ hin row List.mem_cons_self
    exact Int64.ne_of_lt hlt (Table.eq_of_orderRows_key heq).symm
  refine (Keys.perm_add hother).trans ((hperm.cons _).trans ?_)
  rw [Rows.entries_eq_map, Rows.entries_eq_map, List.map_append, List.map_append]
  exact (List.perm_append_singleton ..).symm

section Fill

variable {c : Int} {o : OpenIndex} {top : Label}

section

variable (h : (emitKeys .idxInsert table (.row c) [o]).Gives b () b') (hb : b.Valid)
  (hend : (b'.emitJump .next c 0 top .empty 0).Begins σ.final) (htop : top < b'.labels.size)
  (hattop : σ.At top b.address)
  (hw : Writing s c table [o] (before ++ row :: rest) (some (.rowid row.1)))
  (hindexed : s.store.Indexed table o.2 before)

include h hb hend htop hattop hw hindexed

/-- One round of the loop: the key of the row is added, and the cursor moves on. -/
theorem fillRow_leads [σ.Lenient] : σ.Leads (fun pc s' =>
      Writing s' c table [o] (before ++ row :: rest) (rest.head?.map fun row => .rowid row.1) ∧
      s.store.OnlyAt [o.2.root] s'.store ∧ s'.store.Indexed table o.2 (before ++ [row]) ∧
      pc = if rest.isEmpty then (b'.emitJump .next c 0 top .empty 0).address else b.address) b.address s := by
  have hmem := Rows.entry_mem_middle before row rest
  refine (hw.keys_leads idxInsert_changesKeys h hb ((Builder.Begins.emitJump ..).trans hend)
    (.inl inferInstance) (fun _ _ => hw.keySource hmem _) nofun).bind ?_
  rintro pc s1 ⟨rfl, hw1, -, hkeys⟩
  refine (hw1.next_leads hend htop hattop).mono ?_
  rintro pc s2 ⟨hw2, hq, hpc⟩
  refine ⟨hw2, ?_, ?_, hpc⟩
  · rw [hq.store]
    exact ⟨hkeys.nextRoot, hkeys.other⟩
  · rw [hq.store]
    exact hindexed.add hw.ascending hkeys

/-- The rows that are still to come get their keys. -/
theorem fill_leads [σ.Lenient] : σ.Leads (fun pc s' => pc = (b'.emitJump .next c 0 top .empty 0).address ∧
      s.store.OnlyAt [o.2.root] s'.store ∧ s'.store.Indexed table o.2 (before ++ row :: rest)) b.address s := by
  induction rest generalizing before row s with
  | nil =>
    refine (fillRow_leads h hb hend htop hattop hw hindexed).mono ?_
    rintro pc s1 ⟨-, honly, hindexed1, rfl⟩
    exact ⟨rfl, honly, hindexed1⟩
  | cons next rest ih =>
    refine (fillRow_leads h hb hend htop hattop hw hindexed).bind ?_
    rintro pc s1 ⟨hw1, honly, hindexed1, rfl⟩
    have hsplit : before ++ row :: next :: rest = (before ++ [row]) ++ next :: rest := by simp
    rw [hsplit] at hw1 ⊢
    refine (ih hw1 hindexed1).mono ?_
    rintro pc s2 ⟨rfl, honly2, hindexed2⟩
    exact ⟨rfl, honly.trans honly2, hindexed2⟩

end

end Fill

/-- **A new index gets exactly one key for every row of its table.** -/
theorem IndexDef.emit_fills {i : IndexDef} {reuse : Bool} {final : Builder} {env : Environment} {store store' : Store}
    {execution : Execution} (h : (i.emit table).Gives (Builder.fresh reuse) () final) (hcode : env.code = final.code)
    (hrun : Machine.run env store = (.ok execution, store')) (htree : store.tree? table.root = some (.table rows))
    (hrows : Rows.Ascending rows) (hcatalog : ∃ rows, store.tree? Catalog.root = some (.table rows))
    (hnew : store.nextRoot ≠ Catalog.root) (hrange : Integer.inRange32 store.nextRoot = true)
    (htable : table.root ≠ Catalog.root ∧ table.root ≠ store.nextRoot) :
    ∃ st1, Entered store (.ofIndex i) st1 ∧ st1.OnlyAt [store.nextRoot] store' ∧
      store'.Indexed table ⟨i.name, store.nextRoot, i.columns, i.unique⟩ rows := by
  simp only [emit, gives_bind, gives_newCursor, gives_newLabel, gives_jump, gives_labelHere, gives_opWith,
    gives_opFlagged, gives_bindHere] at h
  obtain ⟨_, b1, hinit, catalog, b2, ⟨rfl, rfl⟩, r, b3, hentry, c, b4, ⟨rfl, rfl⟩, keys, b5, ⟨rfl, rfl⟩, h⟩ := h
  obtain ⟨_, b6, rfl, _, b7, hb7, done, b8, ⟨rfl, rfl⟩, _, b9, rfl, top, b10, ⟨rfl, rfl⟩, h⟩ := h
  obtain ⟨key, b11, hkey, _, b12, rfl, _, b13, rfl, _, b14, rfl, _, b15, hclose, hhalt⟩ := h
  obtain rfl := gives_op.mp hhalt
  obtain ⟨hvalid, hcursors⟩ := emitInit_spec hinit (Builder.valid_fresh _)
  let index : Index := ⟨i.name, store.nextRoot, i.columns, i.unique⟩
  let c := b3.cursors
  let o : OpenIndex := (b3.newCursor.2.cursors, index)
  let b9 := b7.newLabel.2.emitJump .rewind c 0 b7.labels.size .empty 0
  let b12 := b11.emit ⟨.idxInsert, o.1, key, 0, .index i.name, 0⟩
  -- The stages: the catalog row, the cursors, and the loop with its head, a round and its end.
  have h2 := (Builder.Grows.refl hvalid).newCursor
  obtain ⟨h23, hr⟩ := emitEntry_grows hentry h2.valid
  have h37 : b3.Grows b7 := by
    rw [hb7]
    exact (((Builder.Grows.refl h23.valid).newCursor.newCursor).emit _).emit _
  have h78 := (Builder.Grows.refl h37.valid).newLabel
  have h89 := (Builder.Grows.refl h78.valid).emitJump .rewind c 0 b7.labels.size .empty 0
  have h810 := h89.newLabel.bindHere h89.labels_le
  have hkeys : (emitKeys .idxInsert table (.row c) [o]).Gives (b9.newLabel.2.bindHere b9.labels.size) ()
      b12 := by
    simp only [emitKeys, gives_bind, gives_opWith, gives_pure]
    exact ⟨key, b11, hkey, (), _, rfl, trivial, rfl⟩
  have h1012 := hkeys.grows h810.valid
  have h1013 := h1012.emitJump .next c 0 b9.labels.size .empty 0
  have h813 := h810.trans h1013
  have h714 := (h78.trans h813).bindHere (Nat.le_refl _)
  have h1415 := hclose.grows h714.valid
  have hbody : ∀ σ : Setting, σ.Free → b15.Begins σ.final → b1.Begins b15 ∧
      σ.Leads (fun pc s => pc = b15.address ∧ ∃ st1, Entered store (.ofIndex i) st1 ∧
        st1.OnlyAt [store.nextRoot] s.store ∧ s.store.Indexed table index rows)
        b1.address (State.start store) := by
    intro σ hfree hend
    refine ⟨((((h2.trans h23).trans h37).trans h714).trans h1415).begins, ?_⟩
    have hend14 := h1415.begins.trans hend
    have hend13 := (Builder.Begins.bindHere (h813.unbound (Builder.lt_newLabel _)
      (Builder.target?_newLabel _))).trans hend14
    have hatdone := Setting.at_of_bindHere hend14
      (Nat.lt_of_lt_of_le (Builder.lt_newLabel _) h813.labels_le)
    obtain ⟨hattop, htop, hend9⟩ := Setting.at_of_labelHere h1013 hend13
    have hend7 := (((Builder.Begins.newLabel b7).trans (.emitJump ..))).trans hend9
    rw [hb7] at hend7
    have hend6 := (Builder.Begins.emit _ _).trans hend7
    have hend3 := ((Builder.Grows.refl h23.valid).newCursor.newCursor.emit
      ⟨.openRead, c, table.root, 0, .table table.name, 0⟩).begins.trans hend6
    -- The tree of the index is made and entered.
    obtain ⟨catalogRows, hcatalogRows⟩ := Contract.made_catalog (e := .ofIndex i) hnew hcatalog
    refine (emitEntry_leads (s := State.start store) hfree hentry h2.valid hend3 hcatalogRows).bind ?_
    rintro pc s3 ⟨rfl, hentered, hget, hclosed, hother⟩
    have hnone : ∀ d, s3.cursors.get? d = none := by
      intro d
      by_cases hd : d = b1.cursors
      · exact hd ▸ hclosed
      · exact (hother d hd).trans (Slots.get?_empty d)
    -- Table and index are opened.
    let s6 := s3.openCursor c (.stored table.root)
    let s7 := s6.openCursor o.1 (.stored store.nextRoot)
    have htree3 : s3.store.tree? table.root = some (.table rows) :=
      (tree?_of_entered hentered htable.1 htable.2).trans htree
    have hempty : s3.store.tree? store.nextRoot = some .emptyIndex := newTree_of_entered hentered hnew
    refine .op (b := b3.newCursor.2.newCursor.2) hend6 rfl (t := s6) ?_ (.op hend7 rfl (t := s7) ?_ ?_)
    · simp only [execute, openTree, rootOf_plain, htree3, s6, c]
    · have hflag : (Flag.rootInRegister &&& Flag.rootInRegister != 0) = true := by decide
      have hnumber : (Int64.ofInt store.nextRoot).toInt = store.nextRoot := by
        simp only [Integer.inRange32, Bool.and_eq_true, decide_eq_true_eq] at hrange
        exact Int64.toInt_ofInt_of_le (by omega) (by omega)
      have hget6 : s6.get r = .int (Int64.ofInt store.nextRoot) := hget
      have hempty6 : s6.store.tree? store.nextRoot = some .emptyIndex := hempty
      simp only [execute, openTree, rootOf, Instruction.has, hflag, if_true, hget6, Value.toInt64, hnumber,
        hrange, hempty6, s7, o]
    have hapart : o.1 ≠ c := by
      show b3.cursors + 1 ≠ b3.cursors
      omega
    have hw : Writing s7 c table [o] rows none := by
      refine ⟨?_, htree3, hrows, ?_, ?_, ?_⟩
      · exact (Slots.get?_set_of_ne _ _ hapart.symm).trans (Slots.get?_set_self ..)
      · rintro o' ho'
        obtain rfl := List.mem_singleton.mp ho'
        exact Slots.get?_set_self ..
      · rintro o' ho'
        obtain rfl := List.mem_singleton.mp ho'
        exact hapart
      · intro d hd cursor hcursor
        by_cases ho : d = o.1
        · rw [ho] at hcursor
          cases (Slots.get?_set_self ..).symm.trans hcursor
          exact ⟨_, rfl⟩
        · have hd' : s7.cursors.get? d = none :=
            (Slots.get?_set_of_ne _ _ ho).trans ((Slots.get?_set_of_ne _ _ hd).trans (hnone d))
          cases hd'.symm.trans hcursor
    have hindexed : s7.store.Indexed table index [] := ⟨[], hempty, .refl _⟩
    -- The loop, and closing.
    rw [← hb7]
    refine (hw.rewind_leads (b := b7.newLabel.2) hend9 (Builder.lt_newLabel b7) hatdone).bind ?_
    rintro pc s9 ⟨hw9, hq9, rfl⟩
    have hfill : σ.Leads (fun pc s' => pc = (b12.emitJump .next c 0 b9.labels.size .empty 0).address ∧
        s9.store.OnlyAt [store.nextRoot] s'.store ∧ s'.store.Indexed table index rows)
        (if rows.isEmpty then (b12.emitJump .next c 0 b9.labels.size .empty 0).address else b9.address) s9 := by
      rw [← hq9.store] at hindexed
      cases rows with
      | nil => exact .here ⟨rfl, .refl .., hindexed⟩
      | cons row rest =>
        have hw0 : Writing s9 c table [o] ([] ++ row :: rest) (some (.rowid row.1)) := hw9
        exact fill_leads hkeys h810.valid hend13 (Nat.lt_of_lt_of_le htop (Nat.le_refl _))
          hattop hw0 hindexed
    refine hfill.bind ?_
    rintro pc s13 ⟨rfl, honly, hindexed⟩
    refine (emitClose_leads hclose h714.valid hend).mono ?_
    rintro pc s ⟨rfl, hq⟩
    refine ⟨rfl, s3.store, hentered, ?_, ?_⟩
    · rw [hq.store]
      rwa [hq9.store] at honly
    · rw [hq.store]
      exact hindexed
  obtain ⟨s, hfilled, -, rfl⟩ := run_of_body rfl hinit hcode hbody hrun
  exact hfilled

end QueryMachine
