import QueryMachine.Proofs.Outline.Writing

/-!
# Outlines of CREATE TABLE and CREATE INDEX

CREATE makes a tree, then adds its row to the catalog, and CREATE INDEX then fills the tree. Wherever it
is cut off, it has done a first part of that and nothing else.

* `Catalog.Made`, `Catalog.Entered`, `Catalog.Filled` — the trees after each part.
* `Contract.runs_of_tableDef`, `Contract.runs_of_indexDef` — what the runs of the statements do.
-/

namespace QueryMachine

open Machine Emit

variable {κ : Contract} {O : Outline} {b b' : Builder} {F F' G : Facts} {cursor : Int} {st st0 : Store}

namespace Catalog

/-- The tree that an entry is about, before anything is in it. -/
def Entry.tree (e : Entry) : Tree :=
  match e.kind with
  | .table => .emptyTable
  | .index => .emptyIndex

/-- The trees once that of the entry is made. -/
def Made (st0 : Store) (e : Entry) : Store := (st0.create e.tree).2

/-- The trees once the row of the entry is in the catalog as well. -/
def Entered (st0 : Store) (e : Entry) (st : Store) : Prop :=
  ∃ rows bytes, (Made st0 e).tree? root = some (.table rows) ∧
    e.encode (Int64.ofInt st0.nextRoot) = .ok bytes ∧
    st = (Made st0 e).setTree root (.table (Rows.put (Tree.table rows).nextRowid bytes rows))

theorem applyAffinities_values (e : Entry) (root : Int64) :
    applyAffinities affinityCodes.toList (e.values root) = e.values root := by
  have htext : Affinity.ofChar 'B' = .text := by decide
  have hinteger : Affinity.ofChar 'D' = .integer := by decide
  have hcodes : affinityCodes.toList = ['B', 'B', 'B', 'D', 'B'] := by decide
  rw [hcodes, Entry.values]
  simp only [applyAffinities, htext, hinteger, Value.withAffinity]

end Catalog

theorem Facts.holds_trees {S : Store → Prop} {s : State} (h : S s.store) : (trees S).Holds s :=
  ⟨h, fun _ => trivial, fun _ => trivial⟩

theorem Contract.Outlines.loads (ho : κ.Outlines O b F) {i : Instruction} {r : Int} {P : Value → Prop}
    (hr : b.Holds r) (hi : ∀ s, F.Holds s → ∃ v, P v ∧ Stores i s r v) : κ.Reaches O b (b.emit i) (F.note r P) := by
  refine ho.op (ho.within.note hr _) ho.keeps_here fun s hs => ?_
  obtain ⟨v, hv, hstores⟩ := hi s hs
  rw [hstores.runs]
  exact hs.note ho.within hv

namespace Catalog

/-- The code that loads the values of a catalog row. -/
abbrev loading (b : Builder) (base r : Int) (e : Entry) : Builder :=
  ((((b.emit ⟨.str8, 0, base, 0, .str e.kind.name, 0⟩).emit ⟨.str8, 0, base + 1, 0, .str e.name, 0⟩).emit
    ⟨.str8, 0, base + 2, 0, .str e.tableName, 0⟩).emit (.plain .shallowCopy r (base + 3) 0)).emit
    ⟨.str8, 0, base + 4, 0, .str e.sql, 0⟩

/-- The values of a catalog row are loaded. -/
def Loaded (F : Facts) (base : Int) (e : Entry) (root : Int64) : Facts :=
  ((((F.note base (· = .text e.kind.name)).note (base + 1) (· = .text e.name)).note (base + 2)
    (· = .text e.tableName)).note (base + 3) (· = .int root)).note (base + 4) (· = .text e.sql)

variable {base r rowid : Int} {e : Entry} {rows : List (Int64 × Bytes)}

theorem getBlock_of_loaded {root : Int64} {s : State} (h : (Loaded F base e root).Holds s) :
    s.getBlock base 5 = e.values root := by
  have h0 := h.register base
  have h1 := h.register (base + 1)
  have h2 := h.register (base + 2)
  have h3 := h.register (base + 3)
  have h4 := h.register (base + 4)
  simp (disch := omega) only [Loaded, Facts.note_register_self, Facts.note_register_of_ne] at h0 h1 h2 h3 h4
  have hblock : s.getBlock base 5 =
      [s.get (base + 0), s.get (base + 1), s.get (base + 2), s.get (base + 3), s.get (base + 4)] := rfl
  rw [hblock, Int.add_zero, h0, h1, h2, h3, h4, Entry.values]

theorem makeEntry_outlines {root : Int64} {record : Int} (hκ : κ.Fair) (ho : κ.Outlines O b (Loaded F base e root))
    (hrecord : b.Holds record) : κ.Reaches O b (b.emit ⟨.makeRecord, base, 5, record, .affinity affinityCodes, 0⟩)
      ((Loaded F base e root).note record fun v => ∃ bytes, e.encode root = .ok bytes ∧ v = .blob bytes) := by
  refine ho.op (ho.within.note hrecord _) ho.keeps_here fun s hs => ?_
  simp only [execute, makeRecord, getBlock_of_loaded hs, applyAffinities_values]
  cases hencode : Record.encode (e.values root) with
  | error error => exact hκ.encodes 5 (by decide) (e.values root) rfl error hencode
  | ok bytes => exact hs.note ho.within ⟨bytes, hencode, rfl⟩

/-- The values of a catalog row are loaded. -/
theorem load_outlines {root : Int64} (ho : κ.Outlines O b F) (hr : ∀ v, F.register r v → v = .int root)
    (hne : ∀ q, base ≤ q → q < base + 5 → r ≠ q) (hbase : ∀ q, base ≤ q → q < base + 5 → b.Holds q) :
    κ.Reaches O b (loading b base r e) (Loaded F base e root) := by
  have htext : ∀ {O b F q} (text : String), κ.Outlines O b F → b.Holds q →
      κ.Reaches O b (b.emit ⟨.str8, 0, q, 0, .str text, 0⟩) (F.note q (· = .text text)) :=
    fun text ho hq => ho.loads hq fun s _ => ⟨_, rfl, rfl, fun _ _ => rfl⟩
  have hne0 := hne base (Int.le_refl _) (by omega)
  have hne1 := hne (base + 1) (by omega) (by omega)
  have hne2 := hne (base + 2) (by omega) (by omega)
  refine (htext e.kind.name ho (hbase base (Int.le_refl _) (by omega))).bind fun O1 g1 ho1 => ?_
  refine (htext e.name ho1 (g1.holds _ (hbase (base + 1) (by omega) (by omega)))).bind fun O2 g2 ho2 => ?_
  refine (htext e.tableName ho2 ((g1.trans g2).holds _ (hbase (base + 2) (by omega) (by omega)))).bind fun O3 g3 ho3 => ?_
  have g13 := (g1.trans g2).trans g3
  refine (ho3.loads (i := .plain .shallowCopy r (base + 3) 0) (P := (· = .int root)) (g13.holds _ (hbase (base + 3) (by omega) (by omega)))
    fun s hs => ⟨s.get r, hr _ ?_, rfl, fun _ _ => rfl⟩).bind fun O4 g4 ho4 => ?_
  · have hget := hs.register r
    simp (disch := omega) only [Facts.note_register_of_ne] at hget
    exact hget
  · exact htext e.sql ho4 ((g13.trans g4).holds _ (hbase (base + 4) (by omega) (by omega)))

/-- What is known while the row of an entry is put together: the root of its tree, and the rowid that the
row is to get in the catalog. -/
def Entering (st0 : Store) (e : Entry) (rows : List (Int64 × Bytes)) (r cursor rowid : Int) : Facts :=
  (((Facts.trees (· = Made st0 e)).note r (· = .int (Int64.ofInt st0.nextRoot))).put cursor
    (Use.on fun backing tree => backing = .stored root ∧ tree = .table rows)).note rowid
      (· = .int (Tree.table rows).nextRowid)

theorem register_entering (h : r ≠ rowid) :
    (Entering st0 e rows r cursor rowid).register r = (· = .int (Int64.ofInt st0.nextRoot)) := by
  rw [Entering, Facts.note_register_of_ne h]
  exact Facts.note_register_self ..

theorem cursor_entering (rowid : Int) : (Entering st0 e rows r cursor rowid).cursor cursor =
      Use.on fun backing tree => backing = .stored root ∧ tree = .table rows :=
  Facts.put_cursor_self ..

/-- The row is added to the catalog. -/
theorem insertEntry_outlines {record : Int} {payload : Payload}
    (ho : κ.Outlines O b ((Loaded (Entering st0 e rows r cursor rowid) base e (Int64.ofInt st0.nextRoot)).note
      record fun v => ∃ bytes, e.encode (Int64.ofInt st0.nextRoot) = .ok bytes ∧ v = .blob bytes))
    (hrows : (Made st0 e).tree? root = some (.table rows)) (hr : b.Holds r) (hrow : r ≠ rowid)
    (hrecord : record ≠ r ∧ record ≠ rowid) (hbase : ∀ q, base ≤ q → q < base + 5 → r ≠ q ∧ rowid ≠ q)
    (hentered : ∀ st, Entered st0 e st → κ.Keeps st) :
    κ.Reaches O b (b.emit ⟨.insert, cursor, record, rowid, payload, 0⟩)
      ((Facts.trees (Entered st0 e)).note r (· = .int (Int64.ofInt st0.nextRoot))) := by
  refine ho.op (.note (fun q _ => Facts.free_trees _ q) hr _) hentered fun s hs => ?_
  -- Neither the row's values nor the record took the place of what was known.
  have hkept : ∀ q, q ≠ record → (∀ p, base ≤ p → p < base + 5 → q ≠ p) →
      (Entering st0 e rows r cursor rowid).register q (s.get q) := by
    intro q hq hblock
    have h0 := hblock base (Int.le_refl _) (by omega)
    have h1 := hblock (base + 1) (by omega) (by omega)
    have h2 := hblock (base + 2) (by omega) (by omega)
    have h3 := hblock (base + 3) (by omega) (by omega)
    have h4 := hblock (base + 4) (by omega) (by omega)
    have hget := hs.register q
    simp (disch := assumption) only [Loaded, Facts.note_register_of_ne] at hget
    exact hget
  have hroot := hkept r hrecord.1.symm fun p hle hlt => (hbase p hle hlt).1
  rw [register_entering hrow] at hroot
  have hid : s.get rowid = .int (Tree.table rows).nextRowid := by
    have hget := hkept rowid hrecord.2.symm fun p hle hlt => (hbase p hle hlt).2
    rwa [Entering, Facts.note_register_self] at hget
  have hbytes := hs.register record
  rw [Facts.note_register_self] at hbytes
  obtain ⟨bytes, hencode, hbytes⟩ := hbytes
  obtain ⟨_, position, tree, hget, htree, rfl, rfl⟩ := hs.used (cursor_entering rowid)
  have hstore : s.store = Made st0 e := hs.store
  simp only [execute, insertRow, getRecord_of_get hbytes, State.tree_eq hget htree, State.setTree, hget,
    State.setPosition, hid]
  refine ⟨⟨rows, bytes, hrows, hencode, ?_⟩, fun _ => trivial, fun q => ?_⟩
  · rw [← hstore]
    rfl
  · by_cases heq : q = r
    · rw [heq, Facts.note_register_self]
      exact hroot
    · rw [Facts.note_register_of_ne heq]
      trivial

/-- How the row of the catalog is written. -/
theorem emitEntry_gives (h : (emitEntry cursor e).Gives b r b') :
    ∃ b1 rowid b4 base b5 record b6, register.Gives b r b1 ∧
      register.Gives ((b1.emit (.plain .createBtree 0 r e.kind.treeCode)).emit
        ⟨.openWrite, cursor, root, 0, .table tableName, 0⟩) rowid b4 ∧
      (registers 5).Gives b4 base b5 ∧ register.Gives b5 record b6 ∧
      b' = (((loading (b6.emit (.plain .newRowid cursor rowid 0)) base r e).emit
        ⟨.makeRecord, base, 5, record, .affinity affinityCodes, 0⟩).emit
        ⟨.insert, cursor, record, rowid, .table tableName, 0⟩).emit (.plain .close cursor 0 0) := by
  simp only [emitEntry, gives_bind, gives_op, gives_opWith, gives_pure] at h
  obtain ⟨r, b1, hr, _, _, rfl, _, _, rfl, rowid, b4, hrowid, base, b5, hbase, record, b6, hrecord, h⟩ := h
  obtain ⟨_, _, rfl, _, _, rfl, _, _, rfl, _, _, rfl, _, _, rfl, _, _, rfl, _, _, rfl, h⟩ := h
  obtain ⟨_, _, rfl, _, _, rfl, rfl, rfl⟩ := h
  exact ⟨b1, rowid, b4, base, b5, record, b6, hr, hrowid, hbase, hrecord, rfl⟩

/-- A tree is made and its row added to the catalog. -/
theorem emitEntry_outlines (h : (emitEntry cursor e).Gives b r b') (hκ : κ.Fair)
    (ho : κ.Outlines O b (.trees (· = st0))) (hroot : ∃ rows, (Made st0 e).tree? root = some (.table rows))
    (hmade : κ.Keeps (Made st0 e)) (hentered : ∀ st, Entered st0 e st → κ.Keeps st) :
    κ.Reaches O b b' ((Facts.trees (Entered st0 e)).note r (· = .int (Int64.ofInt st0.nextRoot))) ∧ b'.Holds r := by
  obtain ⟨b1, rowid, b4, base, b5, record, b6, hr, hrowid, hbase, hrecord, rfl⟩ := emitEntry_gives h
  obtain ⟨rows, hrows⟩ := hroot
  have hr := takes_register hr ho.valid
  have g1 : O.Grows b O b1 := .takes hr O
  -- The tree is made.
  obtain ⟨O2, g2, ho2⟩ : κ.Reaches O b1 (b1.emit (.plain .createBtree 0 r e.kind.treeCode))
      ((Facts.trees (· = Made st0 e)).note r (· = .int (Int64.ofInt st0.nextRoot))) := by
    refine (ho.takes hr).op (.note (fun q _ => Facts.free_trees _ q) (hr.held rfl) _)
      (fun st hst => hst ▸ hmade) fun s hs => ?_
    obtain rfl : s.store = st0 := hs.store
    have hexecute : execute κ.env b1.address (.plain .createBtree 0 r e.kind.treeCode) s =
        .ok (.next, { s with store := Made s.store e }.set r (.int (Int64.ofInt s.store.nextRoot))) := by
      cases hkind : e.kind <;> simp [execute, Instruction.plain, createTree, Kind.treeCode, Made, Entry.tree,
        hkind, Store.create]
    rw [hexecute]
    exact Facts.Holds.note (b := b) (Facts.holds_trees (S := (· = Made s.store e)) rfl)
      (fun q _ => Facts.free_trees _ q) rfl
  -- The row is put together.
  obtain ⟨O3, g3, ho3⟩ := ho2.openAt (k := cursor) (K := fun backing tree => backing = .stored root ∧
    tree = .table rows) (.inr rfl) _ fun st hst => ⟨_, hst ▸ hrows, rfl, rfl⟩
  have hrowid := takes_register hrowid ho3.valid
  have ho4 := ho3.takes hrowid
  have hbase := takes_registers hbase ho4.valid
  have ho5 := ho4.takes hbase
  have hrecord := takes_register hrecord ho5.valid
  have ho6 := ho5.takes hrecord
  have hr3 := g3.holds r (g2.holds r (hr.held rfl))
  have hr4 : b4.Holds r := hrowid.grows.holds r hr3
  have hrowid4 : b4.Holds rowid := hrowid.held rfl
  have hr5 : b5.Holds r := hbase.grows.holds r hr4
  have hrowid5 : b5.Holds rowid := hbase.grows.holds rowid hrowid4
  have hrow : r ≠ rowid := fun heq => hrowid.new rfl (heq ▸ hr3)
  have hblock : ∀ q, base ≤ q → q < base + 5 → r ≠ q ∧ rowid ≠ q := fun q hle hlt =>
    ⟨fun heq => hbase.new ⟨hle, hlt⟩ (heq ▸ hr4), fun heq => hbase.new ⟨hle, hlt⟩ (heq ▸ hrowid4)⟩
  have hapart : record ≠ r ∧ record ≠ rowid :=
    ⟨fun heq => hrecord.new rfl (heq ▸ hr5), fun heq => hrecord.new rfl (heq ▸ hrowid5)⟩
  obtain ⟨O7, g7, ho7⟩ : κ.Reaches O3 b6 (b6.emit (.plain .newRowid cursor rowid 0))
      (Entering st0 e rows r cursor rowid) :=
    ho6.loads (hrecord.grows.holds _ hrowid5) fun s hs => ⟨_, rfl, rfl, fun _ _ => by
      obtain ⟨_, position, tree, hget, htree, rfl, rfl⟩ := hs.used (Facts.put_cursor_self ..)
      simp only [execute, Instruction.plain, newRowid, State.tree_eq hget htree]⟩
  have hnumber : ∀ v, (Entering st0 e rows r cursor rowid).register r v →
      v = .int (Int64.ofInt st0.nextRoot) := by
    intro v hv
    rwa [register_entering hrow] at hv
  obtain ⟨O12, g12, ho12⟩ := load_outlines (e := e) ho7 hnumber (fun q hle hlt => (hblock q hle hlt).1)
    fun q hle hlt => g7.holds q (hrecord.grows.holds q (hbase.held ⟨hle, hlt⟩))
  have g712 := g7.trans g12
  obtain ⟨O13, g13, ho13⟩ := makeEntry_outlines hκ ho12 (g712.holds record (hrecord.held rfl))
  have g713 := g712.trans g13
  have hr6 : b6.Holds r := hrecord.grows.holds r hr5
  -- The row is added.
  obtain ⟨O14, g14, ho14⟩ := insertEntry_outlines ho13 hrows (g713.holds r hr6) hrow hapart hblock hentered
  obtain ⟨O15, g15, ho15⟩ := ho14.close (k := cursor) fun _ => trivial
  have g715 := (g713.trans g14).trans g15
  have g46 : O3.Grows _ O3 b6 := ((Outline.Grows.takes hrowid O3).trans (.takes hbase O3)).trans
    (.takes hrecord O3)
  exact ⟨⟨O15, (((g1.trans g2).trans g3).trans g46).trans g715, ho15⟩, g715.holds r hr6⟩

/-- The trees once keys are in the tree of the entry. -/
def Filled (st0 : Store) (e : Entry) (st : Store) : Prop :=
  ∃ st1 keys, Entered st0 e st1 ∧ [] ∉ keys ∧ st.tree? st0.nextRoot = some (.index keys) ∧
    (∀ root, root ≠ st0.nextRoot → st.tree? root = st1.tree? root) ∧ st.nextRoot = st1.nextRoot

/-- The trees as CREATE may leave them, wherever it is cut off. -/
inductive Begun (st0 : Store) (e : Entry) : Store → Prop
  | nothing : Begun st0 e st0
  | made : Begun st0 e (Made st0 e)
  | entered {st : Store} (h : Entered st0 e st) : Begun st0 e st
  | filled {st : Store} (hkind : e.kind = .index) (h : Filled st0 e st) : Begun st0 e st

theorem emitNothing_outlines {S : Store → Prop} (h : emitNothing.Gives b () b')
    (ho : κ.Outlines O b (.trees S)) (hends : ∀ s, S s.store → κ.Ends s) : κ.Reaches O b b' .never := by
  obtain ⟨_, b1, hinit, hhalt⟩ := gives_bind.mp h
  exact (emitInit_outlines hinit ho).bind fun _ _ ho1 =>
    emitHalt_outlines hhalt ho1 fun s hs => hends s hs.store

end Catalog

open Catalog

/-! ## CREATE TABLE -/

theorem TableDef.emit_outlines {t : TableDef} (h : t.emit.Gives b () b') (hκ : κ.Fair)
    (ho : κ.Outlines O b (.trees (· = st0)))
    (hroot : ∃ rows, (Made st0 (.ofTable t)).tree? Catalog.root = some (.table rows))
    (hkeeps : ∀ st, Begun st0 (.ofTable t) st → κ.Keeps st)
    (hends : ∀ s, Entered st0 (.ofTable t) s.store → κ.Ends s) : κ.Reaches O b b' .never := by
  simp only [TableDef.emit, gives_bind, gives_newCursor] at h
  obtain ⟨_, b1, hinit, _, b2, ⟨rfl, rfl⟩, r, b3, hentry, hhalt⟩ := h
  obtain ⟨O1, g1, ho1⟩ := emitInit_outlines hinit ho
  obtain ⟨⟨O2, g2, ho2⟩, -⟩ := emitEntry_outlines hentry hκ ho1.newCursor hroot (hkeeps _ .made)
    fun st hst => hkeeps st (.entered hst)
  obtain ⟨O3, g3, ho3⟩ := emitHalt_outlines hhalt ho2 fun s hs => hends s hs.store
  exact ⟨O3, ((g1.trans (.newCursor O1 b1)).trans g2).trans g3, ho3⟩

/-! ## CREATE INDEX -/

/-- The tree with the given root, as it is. -/
def Exactly (root : Int) (tree : Tree) (backing : Backing) (tree' : Tree) : Prop :=
  backing = .stored root ∧ tree' = tree

/-- What is known while an index is filled through one cursor, as another one goes over the rows of a table. -/
def Filling (st0 : Store) (e : Catalog.Entry) (rows keys : Int) (use : Store → Option Cursor → Prop) : Facts :=
  ((Facts.trees (Filled st0 e)).put keys (Use.on fun backing tree =>
    backing = .stored st0.nextRoot ∧ ∃ keys, tree = .index keys ∧ [] ∉ keys)).put rows use

section Filling

variable {e : Catalog.Entry} {root rows keys : Int} {tree : Tree} {use : Store → Option Cursor → Prop}

theorem tree?_of_entered (h : Entered st0 e st) (hcatalog : root ≠ Catalog.root)
    (hnew : root ≠ st0.nextRoot) : st.tree? root = st0.tree? root := by
  obtain ⟨rows, bytes, -, -, rfl⟩ := h
  rw [Store.tree?_setTree_of_ne hcatalog]
  exact Slots.get?_set_of_ne _ _ hnew

theorem newTree_of_entered (h : Entered st0 e st) (hnew : st0.nextRoot ≠ Catalog.root) :
    st.tree? st0.nextRoot = some e.tree := by
  obtain ⟨rows, bytes, -, -, rfl⟩ := h
  rw [Store.tree?_setTree_of_ne hnew]
  exact Slots.get?_set_self ..

theorem filled_of_entered (h : Entered st0 e st) (hkind : e.kind = .index)
    (hnew : st0.nextRoot ≠ Catalog.root) : Filled st0 e st := by
  refine ⟨st, [], h, List.not_mem_nil, ?_, fun _ _ => rfl, rfl⟩
  rw [newTree_of_entered h hnew, Entry.tree, hkind]
  rfl

/-- A key is added to the index. -/
theorem addKey_outlines {key : Int} (payload : Payload)
    (ho : κ.Outlines O b ((Filling st0 e rows keys use).note key IsRecord)) (hne : rows ≠ keys)
    (hfirm : ∀ st cursor tree, use st cursor → use (st.setTree st0.nextRoot tree) cursor) :
    κ.Reaches O b (b.emit ⟨.idxInsert, keys, key, 0, payload, 0⟩) (Filling st0 e rows keys use) := by
  refine ho.op (fun r _ => Facts.free_trees (Filled st0 e) r) ho.keeps_here fun s hs => ?_
  have hrecord := hs.register key
  rw [Facts.note_register_self] at hrecord
  obtain ⟨values, hvalues, hfields⟩ := hrecord.getFields rfl
  have hkeys : (Filling st0 e rows keys use).cursor keys s.store (s.cursors.get? keys) := hs.cursor keys
  rw [Filling, Facts.put_cursor_of_ne hne.symm, Facts.put_cursor_self] at hkeys
  obtain ⟨_, position, tree', hget, htree, rfl, found, rfl, hempty⟩ := hkeys
  have hempty' : [] ∉ Keys.add values found := fun hin =>
    (Keys.mem_of_mem_add hin).elim (fun heq => hvalues heq.symm) hempty
  have htree' : s.store.tree? st0.nextRoot = some (.index found) := htree
  simp only [execute, changeKeys, hfields, State.tree_eq hget htree, State.setTree, hget]
  refine ⟨?_, fun c => ?_, fun _ => trivial⟩
  · obtain ⟨st1, _, hentered, -, -, hother, hnext⟩ := hs.store
    refine ⟨st1, _, hentered, hempty', Store.tree?_setTree_self .., fun r hr => ?_, hnext⟩
    rw [Store.tree?_setTree_of_ne hr]
    exact hother r hr
  · have hcursor : (Filling st0 e rows keys use).cursor c s.store (s.cursors.get? c) := hs.cursor c
    show (Filling st0 e rows keys use).cursor c
      (s.store.setTree st0.nextRoot (.index (Keys.add values found))) (s.cursors.get? c)
    by_cases hrows : c = rows
    · subst hrows
      rw [Filling, Facts.put_cursor_self] at hcursor ⊢
      exact hfirm _ _ _ hcursor
    · rw [Filling, Facts.put_cursor_of_ne hrows] at hcursor ⊢
      by_cases hc : c = keys
      · subst hc
        rw [Facts.put_cursor_self]
        exact ⟨_, position, _, hget, Store.tree?_setTree_self .., rfl, _, rfl, hempty'⟩
      · rw [Facts.put_cursor_of_ne hc]
        trivial

/-- The cursor on the index is opened, whose root is in a register. -/
theorem openFilling_outlines {r : Int} (keys : Int) (payload : Payload)
    (ho : κ.Outlines O b (((Facts.trees (Entered st0 e)).note r (· = .int (Int64.ofInt st0.nextRoot))).put rows use))
    (hne : rows ≠ keys) (hkind : e.kind = .index) (hnew : st0.nextRoot ≠ Catalog.root)
    (hrange : Integer.inRange32 st0.nextRoot = true) (hkeeps : ∀ st, Filled st0 e st → κ.Keeps st) :
    κ.Reaches O b (b.emit ⟨.openWrite, keys, r, 0, payload, Flag.rootInRegister⟩) (Filling st0 e rows keys use) := by
  refine ho.op (fun q _ => Facts.free_trees (Filled st0 e) q) hkeeps fun s hs => ?_
  have hr : s.get r = .int (Int64.ofInt st0.nextRoot) := by
    have hget := hs.register r
    change (((Facts.trees (Entered st0 e)).note r (· = .int (Int64.ofInt st0.nextRoot))).register r) _ at hget
    rwa [Facts.note_register_self] at hget
  have hentered : Entered st0 e s.store := hs.store
  have htree : s.store.tree? st0.nextRoot = some .emptyIndex := by
    rw [newTree_of_entered hentered hnew, Entry.tree, hkind]
  have hnumber : (Int64.ofInt st0.nextRoot).toInt = st0.nextRoot := by
    simp only [Integer.inRange32, Bool.and_eq_true, decide_eq_true_eq] at hrange
    exact Int64.toInt_ofInt_of_le (by omega) (by omega)
  have hflag : (Flag.rootInRegister &&& Flag.rootInRegister != 0) = true := by decide
  simp only [execute, openTree, rootOf, Instruction.has, hflag, if_true, hr, Value.toInt64, hnumber, hrange,
    htree]
  have hfilled : ((Facts.trees (Filled st0 e)).put rows use).Holds s := by
    refine ⟨filled_of_entered hentered hkind hnew, fun c => ?_, fun _ => trivial⟩
    have hcursor := hs.cursor c
    by_cases hc : c = rows
    · rw [hc, Facts.put_cursor_self] at hcursor ⊢
      exact hcursor
    · rw [Facts.put_cursor_of_ne hc]
      trivial
  rw [Filling, Facts.put_comm hne.symm]
  exact hfilled.setCursor ⟨_, none, _, rfl, htree, rfl, [], rfl, List.not_mem_nil⟩

theorem Filling.put (use use' : Store → Option Cursor → Prop) :
    (Filling st0 e rows keys use).put rows use' = Filling st0 e rows keys use' := Facts.put_put ..

theorem Filling.rows_cursor : (Filling st0 e rows keys use).cursor rows = use := Facts.put_cursor_self ..

end Filling

/-- What is asked of a cursor for a loop over its entries: what is known of it outside of the loop, and inside. -/
structure Contract.Ranges (κ : Contract) (outside inside : Store → Option Cursor → Prop) : Prop where
  rewind : ∀ {O : Outline} {b : Builder} {F G : Facts} {c : Int} {l : Label}, κ.Outlines O b F →
    F.cursor c = outside → O.Marks b l G → F.Entails G →
    κ.Reaches O b (b.emitJump .rewind c 0 l .empty 0) (F.put c inside)
  next : ∀ {O : Outline} {b : Builder} {F : Facts} {c : Int} {l : Label}, κ.Outlines O b (F.put c inside) →
    F.cursor c = outside → O.Marks b l (F.put c inside) → κ.Reaches O b (b.emitJump .next c 0 l .empty 0) F
  reads : ∀ {F : Facts} {p : Place}, F.cursor p.cursor = inside → κ.Reads F p

theorem Contract.ranges_of_views {K : Backing → Tree → Prop} (h : κ.Views K) : κ.Ranges (Use.on K) (Use.row K) where
  rewind ho hc hl hG := ho.rewind hc hl hG
  next ho hc hl := ho.next hc hl
  reads hp := reads_of_row h.decodes h.numbers hp

theorem Facts.Holds.setPosition {s : State} {c : Int} (h : F.Holds s) (hc : F.cursor c = Use.any)
    (position : Option Position) : F.Holds (s.setPosition c position) := by
  unfold State.setPosition
  split
  · exact h.sameCursor (by rw [hc]; trivial)
  · exact h

/-- Where every fault is admitted, nothing need be known of a cursor. -/
theorem Contract.Lax.ranges (h : κ.Lax) : κ.Ranges Use.any Use.any where
  rewind {O b F G c l} ho hc hl hG := by
    rw [Facts.put_eq_self hc]
    refine ho.jump hl ho.within ho.keeps_here fun s hs t => ?_
    simp only [execute, moveToEnd]
    split
    · exact h _
    · unfold jumpIf
      split
      · exact ⟨rfl, hG _ (hs.setPosition hc _)⟩
      · exact hs.setPosition hc _
  next {O b F c l} ho hc hl := by
    rw [Facts.put_eq_self hc] at ho hl
    refine ho.jump hl ho.within ho.keeps_here fun s hs t => ?_
    simp only [execute, moveOn]
    split
    · exact h _
    · exact h _
    · unfold jumpIf
      split
      · exact ⟨rfl, hs.setPosition hc _⟩
      · exact hs.setPosition hc _
  reads _ := h.reads _ _

theorem Contract.Lax.openAny (h : κ.Lax) (ho : κ.Outlines O b F) {k root : Int} (payload : Payload) :
    κ.Reaches O b (b.emit ⟨.openRead, k, root, 0, payload, 0⟩) (F.put k Use.any) := by
  refine ho.op (ho.within.put k Use.any) ho.keeps_here fun s hs => ?_
  simp only [execute, openTree, rootOf_plain]
  split
  · exact hs.setCursor trivial
  · exact h _

/-- The code of a CREATE INDEX, whatever is known of the table that the index is made for. -/
theorem IndexDef.emit_outlines {i : IndexDef} {table : Table} {outside inside : Store → Option Cursor → Prop}
    (h : (i.emit table).Gives b () b') (hκ : κ.Fair) (ho : κ.Outlines O b (.trees (· = st0)))
    (hroot : ∃ rows, (Made st0 (.ofIndex i)).tree? Catalog.root = some (.table rows))
    (hranges : κ.Ranges outside inside)
    (hopen : ∀ {O : Outline} {b : Builder} {k : Int} {F : Facts}, F.store = Entered st0 (.ofIndex i) →
      κ.Outlines O b F →
      κ.Reaches O b (b.emit ⟨.openRead, k, table.root, 0, .table table.name, 0⟩) (F.put k outside))
    (hfirm : ∀ st cursor tree, inside st cursor → inside (st.setTree st0.nextRoot tree) cursor)
    (hnew : st0.nextRoot ≠ Catalog.root) (hrange : Integer.inRange32 st0.nextRoot = true)
    (hkeeps : ∀ st, Begun st0 (.ofIndex i) st → κ.Keeps st)
    (hends : ∀ s, Filled st0 (.ofIndex i) s.store → κ.Ends s) : κ.Reaches O b b' .never := by
  simp only [IndexDef.emit, gives_bind, gives_newCursor, gives_opWith, gives_opFlagged, gives_jump,
    gives_labelHere, gives_bindHere] at h
  obtain ⟨_, b1, hinit, _, b2, ⟨rfl, rfl⟩, r, b3, hentry, _, b4, ⟨rfl, rfl⟩, _, b5, ⟨rfl, rfl⟩, h⟩ := h
  obtain ⟨_, b6, rfl, _, b7, rfl, done, b8, hdone, _, b9, rfl, top, b10, ⟨rfl, rfl⟩, key, b11, hkey, h⟩ := h
  obtain ⟨_, b12, rfl, _, b13, rfl, _, b14, rfl, _, b15, hclose, hhalt⟩ := h
  have hfilled : ∀ st, Filled st0 (.ofIndex i) st → κ.Keeps st := fun st hst => hkeeps st (.filled rfl hst)
  obtain ⟨O1, g1, ho1⟩ := emitInit_outlines hinit ho
  obtain ⟨⟨O3, g3, ho3⟩, -⟩ := emitEntry_outlines hentry hκ ho1.newCursor hroot (hkeeps _ .made)
    fun st hst => hkeeps st (.entered hst)
  obtain ⟨O6, g6, ho6⟩ := hopen (k := b3.newCursor.1) rfl ho3.newCursor.newCursor
  have hne : b3.newCursor.1 ≠ b3.newCursor.2.newCursor.1 := by
    simp only [Builder.newCursor]
    omega
  obtain ⟨O7, g7, ho7⟩ := openFilling_outlines b3.newCursor.2.newCursor.1 (.index i.name) ho6 hne rfl hnew
    hrange hfilled
  obtain ⟨O8, g8, ho8, hdone⟩ := ho7.label hdone (Filling st0 (.ofIndex i) _ _ outside)
  obtain ⟨O9, g9, ho9⟩ := hranges.rewind ho8 Filling.rows_cursor hdone (.refl _)
  obtain ⟨O10, g10, ho10, htop⟩ := ho9.labelHere
  obtain ⟨⟨O11, g11, ho11⟩, -⟩ := emitKey_outlines hkey hκ ho10 fun c hc => by
    cases hc
    exact ⟨fun index => hranges.reads (Facts.put_cursor_self ..), hranges.reads (Facts.put_cursor_self ..)⟩
  rw [Filling.put] at ho11
  obtain ⟨O12, g12, ho12⟩ := addKey_outlines (.index i.name) ho11 hne hfirm
  have g1012 := g11.trans g12
  rw [← Filling.put outside] at ho12
  obtain ⟨O13, g13, ho13⟩ := hranges.next ho12 Filling.rows_cursor (g1012.marks htop)
  have g813 := ((g9.trans g10).trans g1012).trans g13
  obtain ⟨O14, g14, ho14⟩ := ho13.bindHere (g813.marks hdone) (.refl _) ho13.within ho13.keeps_here
  have hentails : (Filling st0 (.ofIndex i) b3.newCursor.1 b3.newCursor.2.newCursor.1 outside).Entails
      (.trees (Filled st0 (.ofIndex i))) := fun s hs => ⟨hs.store, fun _ => trivial, fun _ => trivial⟩
  obtain ⟨O15, g15, ho15⟩ := ho14.weaken hentails (fun q _ => Facts.free_trees _ q) hfilled
  obtain ⟨O16, g16, ho16⟩ := emitClose_outlines hclose ho15 fun _ _ _ => trivial
  obtain ⟨O17, g17, ho17⟩ := emitHalt_outlines hhalt ho16 fun s hs => hends s hs.store
  have g35 := (Outline.Grows.newCursor O3 b3).trans (.newCursor O3 b3.newCursor.2)
  have g08 := (((g1.trans (.newCursor O1 b1)).trans g3).trans g35).trans ((g6.trans g7).trans g8)
  exact ⟨O17, (g08.trans g813).trans (((g14.trans g15).trans g16).trans g17), ho17⟩

/-! ## Runs -/

namespace Contract

variable {schema : Schema} {options : Options} {program : Program}

theorem made_catalog {e : Catalog.Entry} (hnew : st0.nextRoot ≠ Catalog.root)
    (hroot : ∃ rows, st0.tree? Catalog.root = some (.table rows)) :
    ∃ rows, (Made st0 e).tree? Catalog.root = some (.table rows) := by
  obtain ⟨rows, hrows⟩ := hroot
  exact ⟨rows, (Slots.get?_set_of_ne _ _ hnew.symm).trans hrows⟩

section Runs

variable (hcode : κ.env.code = program.code) (hlong : program.code.size ≤ κ.span) (hκ : κ.Fair)
  (hnew : st0.nextRoot ≠ Catalog.root) (hroot : ∃ rows, st0.tree? Catalog.root = some (.table rows))

include hcode hlong hκ hnew hroot

/-- **What the runs of a CREATE TABLE do.** -/
theorem runs_of_tableDef {t : TableDef} (h : t.compile schema options = .ok program)
    (hkeeps : ∀ st, Begun st0 (.ofTable t) st → κ.Keeps st)
    (hends : ∀ s, (t.validate schema = .ok false ∧ s.store = st0) ∨
      (t.validate schema = .ok true ∧ Entered st0 (.ofTable t) s.store) → κ.Ends s) : κ.Runs st0 := by
  obtain ⟨fresh, hfresh, h⟩ := bind_eq_ok.mp h
  obtain ⟨⟨program', ⟨⟩⟩, hbuild, h⟩ := bind_eq_ok.mp h
  cases h
  refine runs_of_build hbuild hcode hlong (S := (· = st0)) rfl (fun st hst => hst ▸ hkeeps _ .nothing)
    fun hsteps ho => ?_
  cases fresh with
  | true =>
    exact TableDef.emit_outlines hsteps hκ ho (made_catalog hnew hroot) hkeeps
      fun s hs => hends s (.inr ⟨hfresh, hs⟩)
  | false => exact emitNothing_outlines hsteps ho fun s hs => hends s (.inl ⟨hfresh, hs⟩)

variable {i : IndexDef} (h : i.compile schema options = .ok program) (hrange : Integer.inRange32 st0.nextRoot = true)
  (hkeeps : ∀ st, Begun st0 (.ofIndex i) st → κ.Keeps st)
  (hends : ∀ s, (i.validate schema = .ok none ∧ s.store = st0) ∨
    (∃ table, i.validate schema = .ok (some table) ∧ Filled st0 (.ofIndex i) s.store) → κ.Ends s)

include h hrange hkeeps hends

/-- What the runs of a CREATE INDEX do, whatever is known of the table that the index is made for. -/
theorem runs_of_indexDef
    (htable : ∀ table, i.validate schema = .ok (some table) → ∃ outside inside, κ.Ranges outside inside ∧
      (∀ {O : Outline} {b : Builder} {k : Int} {F : Facts}, F.store = Entered st0 (.ofIndex i) → κ.Outlines O b F →
        κ.Reaches O b (b.emit ⟨.openRead, k, table.root, 0, .table table.name, 0⟩) (F.put k outside)) ∧
      ∀ st cursor tree, inside st cursor → inside (st.setTree st0.nextRoot tree) cursor) : κ.Runs st0 := by
  obtain ⟨found, hfound, h⟩ := bind_eq_ok.mp h
  obtain ⟨⟨program', ⟨⟩⟩, hbuild, h⟩ := bind_eq_ok.mp h
  cases h
  refine runs_of_build hbuild hcode hlong (S := (· = st0)) rfl (fun st hst => hst ▸ hkeeps _ .nothing)
    fun hsteps ho => ?_
  cases found with
  | some table =>
    obtain ⟨outside, inside, hranges, hopen, hfirm⟩ := htable table hfound
    exact IndexDef.emit_outlines hsteps hκ ho (made_catalog hnew hroot) hranges hopen hfirm hnew hrange hkeeps
      fun s hs => hends s (.inr ⟨table, hfound, hs⟩)
  | none => exact emitNothing_outlines hsteps ho fun s hs => hends s (.inl ⟨hfound, hs⟩)

/-- **What the runs of a CREATE INDEX do**, where the tree of the table can be read. -/
theorem runs_of_index_views
    (htable : ∀ table, i.validate schema = .ok (some table) → table.root ≠ Catalog.root ∧
      table.root ≠ st0.nextRoot ∧
        ∃ tree, st0.tree? table.root = some tree ∧ κ.Views (Exactly table.root tree)) : κ.Runs st0 := by
  refine runs_of_indexDef hcode hlong hκ hnew hroot h hrange hkeeps hends fun table hvalid => ?_
  obtain ⟨hcatalog, hnext, tree, htree, hviews⟩ := htable table hvalid
  refine ⟨_, _, ranges_of_views hviews, fun {O b k F} hF ho => ?_, ?_⟩
  · refine ho.openAt (.inl rfl) _ fun st hst => ⟨tree, ?_, rfl, rfl⟩
    rw [hF] at hst
    exact (tree?_of_entered hst hcatalog hnext).trans htree
  · rintro st cursor tree' ⟨_, position, found, hc, hfound, ⟨rfl, rfl⟩, hhas⟩
    exact ⟨_, position, found, hc, (Store.tree?_setTree_of_ne hnext).trans hfound, ⟨rfl, rfl⟩, hhas⟩

end Runs

end Contract

end QueryMachine
