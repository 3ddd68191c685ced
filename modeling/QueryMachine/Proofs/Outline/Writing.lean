import QueryMachine.Proofs.Outline.Output
import QueryMachine.Proofs.Outline.Whole

/-!
# Outlines of writing

Rows and keys are written through cursors on stored trees. A tree stays of its kind, its records can be
decoded and its keys are not empty; so what is known of other cursors is known of them afterwards.

* `Tree.Sound`, `Stored` — the trees that rows and keys are written to.
* `Facts.Survives` — what is known outlives a change of trees of some kind.
* `Contract.Outlines.changeKeys`, `insertRow`, `deleteRow` — one change.
* `emitKeys_outlines` — the key of a row is added to or taken out of every index.
-/

namespace QueryMachine

open Machine Emit

variable {κ : Contract} {O : Outline} {b b' : Builder} {F F' G : Facts} {k root target : Int}
  {model : Tree}

/-- Trees with the property can be read. -/
structure Contract.Views (κ : Contract) (T : Backing → Tree → Prop) : Prop where
  decodes : κ.Decodes T
  numbers : κ.Numbers T

/-! ## Stored trees -/

namespace Tree

/-- Every record can be decoded, and no key is empty. -/
def Sound : Tree → Prop
  | table rows => ∀ row ∈ rows, ∃ values, Record.decode row.2 = .ok values
  | index keys => [] ∉ keys

/-- Both are tables or both are indexes. -/
def Like : Tree → Tree → Prop
  | table _, table _ | index _, index _ => True
  | _, _ => False

theorem like_table {tree : Tree} (h : tree.Like emptyTable) : ∃ rows, tree = .table rows := by
  cases tree with
  | table rows => exact ⟨rows, rfl⟩
  | index keys => exact h.elim

theorem like_index {tree : Tree} (h : tree.Like emptyIndex) : ∃ keys, tree = .index keys := by
  cases tree with
  | table rows => exact h.elim
  | index keys => exact ⟨keys, rfl⟩

theorem Like.trans {a b c : Tree} (h : a.Like b) (h' : c.Like b) {d : Tree} (hd : a.Like d) : c.Like d := by
  cases a <;> cases b <;> cases c <;> cases d <;> trivial

end Tree

/-- The tree with the given root, which is sound and of the kind of `model`. -/
def Stored (root : Int) (model : Tree) (backing : Backing) (tree : Tree) : Prop :=
  backing = .stored root ∧ tree.Like model ∧ tree.Sound

theorem Contract.views_of_sound (κ : Contract) {T : Backing → Tree → Prop}
    (h : ∀ backing tree, T backing tree → tree.Sound) : κ.Views T := by
  refine ⟨fun backing rows hT row hrow e he => ?_, fun backing keys hT hin => ?_⟩
  · obtain ⟨values, hvalues⟩ := h backing _ hT row hrow
    rw [hvalues] at he
    cases he
  · exact absurd hin (h backing _ hT)

theorem Contract.views_stored (κ : Contract) (root : Int) (model : Tree) : κ.Views (Stored root model) :=
  κ.views_of_sound fun _ _ hT => hT.2.2

/-- The store has a sound tree of the kind of `model` at the root. -/
def Store.Bears (st : Store) (root : Int) (model : Tree) : Prop :=
  ∃ tree, st.tree? root = some tree ∧ tree.Like model ∧ tree.Sound

/-! ## What outlives a change -/

/-- What is known of a cursor outlives a change of a tree of the kind of `model`. -/
def Use.Firm (model : Tree) (use : Store → Option Cursor → Prop) : Prop :=
  ∀ st cursor root tree tree', use st cursor → st.tree? root = some tree → tree.Like model →
    tree'.Like model → tree'.Sound → use (st.setTree root tree') cursor

/-- What is known outlives a change of a tree of the kind of `model`. -/
structure Facts.Survives (F : Facts) (model : Tree) : Prop where
  store : ∀ st root tree tree', F.store st → st.tree? root = some tree → tree.Like model →
    tree'.Like model → tree'.Sound → F.store (st.setTree root tree')
  cursor : ∀ c, Use.Firm model (F.cursor c)

namespace Use

theorem firm_any (model : Tree) : Firm model any := fun _ _ _ _ _ _ _ _ _ _ => trivial

theorem firm_on (root : Int) (model model' : Tree) : Firm model (on (Stored root model')) := by
  rintro st cursor root' tree0 tree' ⟨_, position, tree, rfl, htree, rfl, hlike, hsound⟩ hroot h h' hs
  by_cases heq : root' = root
  · subst heq
    cases htree.symm.trans hroot
    exact ⟨_, position, tree', rfl, Store.tree?_setTree_self .., rfl, h.trans h' hlike, hs⟩
  · exact ⟨_, position, tree, rfl, (Store.tree?_setTree_of_ne (Ne.symm heq)).trans htree, rfl, hlike, hsound⟩

theorem firm_row (root : Int) : Firm .emptyIndex (row (Stored root .emptyTable)) := by
  rintro st cursor root' tree0 tree' ⟨_, position, tree, rfl, htree, ⟨rfl, hlike, hsound⟩, hhas⟩ hroot h - -
  have hne : root ≠ root' := by
    rintro rfl
    cases htree.symm.trans hroot
    obtain ⟨rows, rfl⟩ := Tree.like_table hlike
    exact h.elim
  exact ⟨_, position, tree, rfl, (Store.tree?_setTree_of_ne hne).trans htree, ⟨rfl, hlike, hsound⟩, hhas⟩

end Use

theorem Facts.Survives.put (h : F.Survives model) {use : Store → Option Cursor → Prop}
    (huse : Use.Firm model use) (k : Int) : (F.put k use).Survives model := by
  refine ⟨h.store, fun c => ?_⟩
  by_cases heq : c = k
  · rw [heq, put_cursor_self]
    exact huse
  · rw [put_cursor_of_ne heq]
    exact h.cursor c

theorem Facts.Survives.note (h : F.Survives model) (r : Int) (P : Value → Prop) : (F.note r P).Survives model :=
  ⟨h.store, h.cursor⟩

theorem Rows.mem_put_self (id : Int64) (record : Bytes) (rows : List (Int64 × Bytes)) :
    (id, record) ∈ Rows.put id record rows := by
  fun_induction Rows.put id record rows <;> simp_all

theorem Use.row_entails {K : Backing → Tree → Prop} (hk : F.cursor k = on K) : (F.put k (row K)).Entails F := by
  have hput : (F.put k (row K)).Entails (F.put k (on K)) := Facts.put_entails fun _ _ _ => on_of_row
  rwa [Facts.put_eq_self hk] at hput

theorem Facts.Holds.setStored {s : State} {tree tree' : Tree} (hs : F.Holds s) (hF : F.Survives model)
    {position : Option Position} (hget : s.cursors.get? k = some ⟨.stored root, position⟩)
    (htree : s.store.tree? root = some tree) (h : tree.Like model) (h' : tree'.Like model)
    (hsound : tree'.Sound) : F.Holds (s.setTree k tree') := by
  simp only [State.setTree, hget]
  exact ⟨hF.store _ _ _ _ hs.store htree h h' hsound,
    fun c => hF.cursor c _ _ _ _ _ (hs.cursor c) htree h h' hsound, hs.register⟩

namespace Contract.Outlines

/-! ## Instructions on stored trees -/

variable {o : Opcode} {payload : Payload} {r : Int}

section

variable (ho : κ.Outlines O b F)

include ho

/-- A cursor is opened on the tree with a root. -/
theorem openAt (hopcode : o = .openRead ∨ o = .openWrite) (payload : Payload) {K : Backing → Tree → Prop}
    (hroot : ∀ st, F.store st → ∃ tree, st.tree? root = some tree ∧ K (.stored root) tree) :
    κ.Reaches O b (b.emit ⟨o, k, root, 0, payload, 0⟩) (F.put k (Use.on K)) := by
  refine ho.op (ho.within.put _ _) ho.keeps_here fun s hs => ?_
  obtain ⟨tree, htree, hK⟩ := hroot s.store hs.store
  have hexecute : execute κ.env b.address ⟨o, k, root, 0, payload, 0⟩ s =
      .ok (.next, s.openCursor k (.stored root)) := by
    rcases hopcode with rfl | rfl <;>
      simp only [execute, openTree, rootOf_plain, htree]
  rw [hexecute]
  exact hs.setCursor ⟨_, _, tree, rfl, htree, hK⟩

theorem openStored (hopcode : o = .openRead ∨ o = .openWrite) (hroot : ∀ st, F.store st → st.Bears root model) :
    κ.Reaches O b (b.emit ⟨o, k, root, 0, payload, 0⟩) (F.put k (Use.on (Stored root model))) :=
  ho.openAt hopcode payload fun st hst => by
    obtain ⟨tree, htree, hlike, hsound⟩ := hroot st hst
    exact ⟨tree, htree, rfl, hlike, hsound⟩

theorem column {index : Nat} (hfree : F.Free target) (hreads : κ.Reads F (.field k index)) :
    κ.Reaches O b (b.emit (.plain .column k index target)) F := by
  refine ho.writes hfree fun s hs => ?_
  simp only [execute, Instruction.plain, readField]
  rcases hreads s hs with ⟨v, row, hrow, rfl⟩ | hidden
  · rw [hrow]
    exact ⟨_, rfl⟩
  · obtain ⟨f, hf, hrow⟩ := hidden b.address
    rw [hrow]
    exact hf

theorem rowid (hfree : F.Free target) (hreads : κ.Reads F (.rowid k)) :
    κ.Reaches O b (b.emit (.plain .rowid k target 0)) F := by
  refine ho.writes hfree fun s hs => ?_
  simp only [execute, Instruction.plain, readRowid]
  rcases hreads s hs with ⟨v, id, hid, rfl⟩ | hidden
  · rw [hid]
    exact ⟨_, rfl⟩
  · obtain ⟨f, hf, hid⟩ := hidden b.address
    rw [hid]
    exact hf

/-- A key is added to a stored index, or taken out of it. -/
theorem changeKeys (hopcode : o = .idxInsert ∨ o = .idxDelete) (hk : F.cursor k = Use.on (Stored root .emptyIndex))
    (hF : F.Survives .emptyIndex) (hr : ∀ v, F.register r v → IsRecord v) :
    κ.Reaches O b (b.emit ⟨o, k, r, 0, payload, 0⟩) F := by
  refine ho.op ho.within ho.keeps_here fun s hs => ?_
  obtain ⟨values, hne, hfields⟩ := (hr _ (hs.register r)).getFields rfl
  obtain ⟨_, position, tree, hget, htree, rfl, hlike, hsound⟩ := hs.used hk
  obtain ⟨keys, rfl⟩ := Tree.like_index hlike
  rcases hopcode with rfl | rfl
  · simp only [execute, Machine.changeKeys, hfields, State.tree_eq hget htree]
    refine hs.setStored hF hget htree hlike trivial fun hin => ?_
    exact (Keys.mem_of_mem_add hin).elim (fun heq => hne heq.symm) hsound
  · simp only [execute, Machine.changeKeys, hfields, State.tree_eq hget htree]
    exact hs.setStored hF hget htree hlike trivial fun hin => hsound (List.mem_of_mem_filter hin)

/-- A record is stored in a stored table, and the cursor goes there. -/
theorem insertRow {id : Int} (hk : F.cursor k = Use.on (Stored root .emptyTable))
    (hF : F.Survives .emptyTable) (hr : ∀ v, F.register r v → IsRecord v) :
    κ.Reaches O b (b.emit ⟨.insert, k, r, id, payload, 0⟩) (F.put k (Use.row (Stored root .emptyTable))) := by
  refine ho.op (ho.within.put _ _) ho.keeps_here fun s hs => ?_
  obtain ⟨bytes, values, hbytes, hdecode, -⟩ := hr _ (hs.register r)
  obtain ⟨_, position, tree, hget, htree, rfl, hlike, hsound⟩ := hs.used hk
  obtain ⟨rows, rfl⟩ := Tree.like_table hlike
  simp only [execute, Machine.insertRow, getRecord_of_get hbytes, State.tree_eq hget htree]
  have hsound' : (Tree.table (Rows.put (s.get id).toInt64 bytes rows)).Sound := by
    intro row hin
    rcases Rows.mem_of_mem_put hin with rfl | hin
    · exact ⟨values, hdecode⟩
    · exact hsound row hin
  have hheld := hs.setStored hF hget htree hlike (show Tree.Like (.table _) _ from trivial) hsound'
  simp only [State.setTree, hget] at hheld ⊢
  simp only [State.setPosition, hget]
  exact hheld.setCursor ⟨_, _, _, rfl, Store.tree?_setTree_self .., ⟨rfl, trivial, hsound'⟩,
    Rows.get?_isSome_of_mem (Rows.mem_put_self ..)⟩

end

/-- The current row of a stored table is deleted. -/
theorem deleteRow (ho : κ.Outlines O b (F.put k (Use.row (Stored root .emptyTable))))
    (hk : F.cursor k = Use.on (Stored root .emptyTable)) (hF : F.Survives .emptyTable) :
    κ.Reaches O b (b.emit ⟨.delete, k, 0, 0, payload, 0⟩) F := by
  refine ho.op ho.within ho.keeps_here fun s hs => ?_
  obtain ⟨_, position, tree, hget, htree, ⟨rfl, hlike, hsound⟩, hhas⟩ := hs.used (Facts.put_cursor_self ..)
  obtain ⟨rows, rfl⟩ := Tree.like_table hlike
  have hat : s.cursor b.address k = .ok ⟨.stored root, some position⟩ := by simp only [State.cursor, hget]
  cases position with
  | key key => exact hhas.elim
  | rowid id =>
    simp only [execute, Machine.deleteRow, hat, State.tree_eq hget htree]
    exact (Use.row_entails hk s hs).setStored hF hget htree hlike (show Tree.Like (.table _) _ from trivial)
      fun row hin => hsound row (List.mem_of_mem_filter hin)

/-- The cursor goes to a row, if it is there. -/
theorem notExists (ho : κ.Outlines O b F) {l : Label} (hk : F.cursor k = Use.on (Stored root .emptyTable))
    (hl : O.Marks b l G) (hG : F.Entails G) :
    κ.Reaches O b (b.emitJump .notExists k r l .empty 0) (F.put k (Use.row (Stored root .emptyTable))) := by
  refine ho.jump hl (ho.within.put _ _) ho.keeps_here fun s hs t => ?_
  obtain ⟨_, position, tree, hget, htree, rfl, hlike, hsound⟩ := hs.used hk
  simp only [execute, Machine.notExists, State.tree_eq hget htree, State.setPosition_eq hget]
  split
  · rename_i hhas
    obtain ⟨rows, rfl⟩ := Tree.like_table hlike
    exact hs.setCursor ⟨_, _, _, rfl, htree, ⟨rfl, hlike, hsound⟩, hhas⟩
  · exact ⟨rfl, hG s hs⟩

/-- A stored tree is cleared. -/
theorem clear (ho : κ.Outlines O b F) (hF : F.Survives model) (hroot : ∀ st, F.store st → st.Bears root model) :
    κ.Reaches O b (b.emit ⟨.clear, root, 0, 0, payload, 0⟩) F := by
  refine ho.op ho.within ho.keeps_here fun s hs => ?_
  obtain ⟨tree, htree, hlike, -⟩ := hroot s.store hs.store
  simp only [execute, clearTree, htree]
  have hlike' : tree.cleared.Like model := by
    cases tree <;> cases model <;> trivial
  have hsound' : tree.cleared.Sound := by
    cases tree
    · exact fun row hin => (List.not_mem_nil hin).elim
    · exact List.not_mem_nil
  exact ⟨hF.store _ _ _ _ hs.store htree hlike hlike' hsound',
    fun c => hF.cursor c _ _ _ _ _ (hs.cursor c) htree hlike hlike' hsound', hs.register⟩

end Contract.Outlines

/-! ## Keys of a row -/

/-- The row that a key is built from can be read. -/
def KeySource.Readable (source : KeySource) (κ : Contract) (F : Facts) : Prop :=
  ∀ c, source = .row c → (∀ index, κ.Reads F (.field c index)) ∧ κ.Reads F (.rowid c)

section Keys

variable {table : Table} {source : KeySource}

theorem KeySource.emitRowid_outlines (h : (source.emitRowid target).Gives b () b') (ho : κ.Outlines O b F)
    (hsource : source.Readable κ F) (hfree : F.Free target) : κ.Reaches O b b' F := by
  cases source with
  | registers base rowid =>
    obtain rfl := gives_op.mp h
    exact ho.stores hfree fun s _ => ⟨s.get rowid, rfl, fun _ _ => rfl⟩
  | row c =>
    obtain rfl := gives_op.mp h
    exact ho.rowid hfree (hsource c rfl).2

theorem KeySource.emitField_outlines {index : Nat} (h : (source.emitField index target).Gives b () b')
    (ho : κ.Outlines O b F) (hsource : source.Readable κ F) (hfree : F.Free target) : κ.Reaches O b b' F := by
  cases source with
  | registers base rowid =>
    obtain rfl := gives_op.mp h
    exact ho.stores hfree fun s _ => ⟨s.get (base + index), rfl, fun _ _ => rfl⟩
  | row c =>
    obtain rfl := gives_op.mp h
    exact ho.column hfree ((hsource c rfl).1 index)

theorem emitKeyColumns_outlines {names : List String} :
    (emitKeyColumns table source names target).Gives b () b' → κ.Outlines O b F → source.Readable κ F →
    (∀ r, target ≤ r → r < target + names.length → F.Free r) → κ.Reaches O b b' F := by
  induction names generalizing b O target with
  | nil => exact fun h ho _ _ => ho.pure h
  | cons name names ih =>
    intro h ho hsource hfree
    simp only [List.length_cons, Int.natCast_add, Int.natCast_one] at hfree
    have hself := hfree target (Int.le_refl _) (by omega)
    unfold emitKeyColumns at h
    split at h
    · exact (gives_throw h).elim
    · split at h <;>
      · obtain ⟨_, b1, hfirst, hrest⟩ := gives_bind.mp h
        first
          | refine (KeySource.emitRowid_outlines hfirst ho hsource hself).bind fun O1 _ ho1 => ?_
          | refine (KeySource.emitField_outlines hfirst ho hsource hself).bind fun O1 _ ho1 => ?_
        exact ih hrest ho1 hsource fun r hle hlt => hfree r (by omega) (by omega)

/-- The key of a row is built. -/
theorem emitKey_outlines {columns : List String} {r : Int} (h : (emitKey table columns source).Gives b r b')
    (hκ : κ.Fair) (ho : κ.Outlines O b F) (hsource : source.Readable κ F) :
    κ.Reaches O b b' (F.note r IsRecord) ∧ F.Free r := by
  simp only [emitKey, gives_bind, gives_op, gives_pure] at h
  obtain ⟨base, b1, hbase, _, b2, hcolumns, _, b3, hrowid, record, b4, hrecord, _, b5, rfl, rfl, rfl⟩ := h
  have hbase := takes_registers hbase ho.valid
  have hfree : ∀ q, base ≤ q → q < base + ((columns.length : Int) + 1) → F.Free q :=
    fun q hle hlt => ho.within q (hbase.new ⟨hle, hlt⟩)
  obtain ⟨O2, g2, ho2⟩ := emitKeyColumns_outlines hcolumns (ho.takes hbase) hsource
    fun q hle hlt => hfree q hle (by omega)
  obtain ⟨O3, g3, ho3⟩ := KeySource.emitRowid_outlines hrowid ho2 hsource (hfree _ (by omega) (by omega))
  have hrecord := takes_register hrecord ho3.valid
  obtain ⟨O4, g4, ho4⟩ := (ho3.takes hrecord).makeRecord (hrecord.held rfl)
    (hκ.encodes ((columns.length : Int) + 1) (by omega))
  have g1 : O.Grows b O b1 := .takes hbase O
  have g34 : O3.Grows b3 O3 b4 := .takes hrecord O3
  exact ⟨⟨O4, (((g1.trans g2).trans g3).trans g34).trans g4, ho4⟩, ho3.within _ (hrecord.new rfl)⟩

/-- **The key of a row is added to every index, or taken out of it.** -/
theorem emitKeys_outlines {o : Opcode} {opened : List OpenIndex} : (emitKeys o table source opened).Gives b () b' →
    κ.Fair → κ.Outlines O b F → o = .idxInsert ∨ o = .idxDelete → source.Readable κ F →
    (∀ x ∈ opened, F.cursor x.1 = Use.on (Stored x.2.root .emptyIndex)) → F.Survives .emptyIndex →
    κ.Reaches O b b' F := by
  induction opened generalizing b O with
  | nil => exact fun h _ ho _ _ _ _ => ho.pure h
  | cons first opened ih =>
    intro h hκ ho hopcode hsource hopened hF
    simp only [emitKeys, gives_bind, gives_opWith] at h
    obtain ⟨key, b1, hkey, _, b2, rfl, hrest⟩ := h
    obtain ⟨⟨O1, g1, ho1⟩, hfree⟩ := emitKey_outlines hkey hκ ho hsource
    obtain ⟨O2, g2, ho2⟩ := ho1.changeKeys hopcode
      (hopened first List.mem_cons_self) (hF.note key _) F.of_note
    have g12 := g1.trans g2
    obtain ⟨O3, g3, ho3⟩ := ho2.weaken (Facts.note_entails hfree _) (g12.within ho.within) ho.keeps_here
    obtain ⟨O4, g4, ho4⟩ := ih hrest hκ ho3 hopcode hsource
      (fun x hx => hopened x (List.mem_cons_of_mem _ hx)) hF
    exact ⟨O4, (g12.trans g3).trans g4, ho4⟩

end Keys

/-! ## Open indexes -/

/-- The indexes of a table are open, as far as they are maintained. -/
structure Indexed (F F' : Facts) (opened : List OpenIndex) (low high : Int) : Prop where
  store : F'.store = F.store
  register : F'.register = F.register
  cursor : ∀ x ∈ opened, F'.cursor x.1 = Use.on (Stored x.2.root .emptyIndex)
  range : ∀ x ∈ opened, low ≤ x.1 ∧ x.1 < high
  other : ∀ k, k ∉ opened.map (·.1) → F'.cursor k = F.cursor k

namespace Indexed

variable {opened : List OpenIndex} {low high : Int}

theorem below (h : Indexed F F' opened low high) (hk : k < low) : F'.cursor k = F.cursor k := by
  refine h.other k fun hin => ?_
  obtain ⟨x, hx, rfl⟩ := List.mem_map.mp hin
  exact absurd (h.range x hx).1 (Int.not_le.mpr hk)

theorem survives (h : Indexed F F' opened low high) (hF : F.Survives model) : F'.Survives model := by
  refine ⟨h.store ▸ hF.store, fun c => ?_⟩
  by_cases hin : c ∈ opened.map (·.1)
  · obtain ⟨x, hx, rfl⟩ := List.mem_map.mp hin
    rw [h.cursor x hx]
    exact Use.firm_on _ _ _
  · rw [h.other c hin]
    exact hF.cursor c

theorem back (h : Indexed F F' opened low high) (hany : ∀ k, low ≤ k → F.cursor k = Use.any) : F'.Entails F := by
  refine fun s hs => ⟨h.store ▸ hs.store, fun c => ?_, fun r => h.register ▸ hs.register r⟩
  by_cases hin : c ∈ opened.map (·.1)
  · obtain ⟨x, hx, rfl⟩ := List.mem_map.mp hin
    rw [hany x.1 (h.range x hx).1]
    trivial
  · rw [← h.other c hin]
    exact hs.cursor c

end Indexed

/-- The indexes of a table are opened. -/
theorem emitOpenIndexes_outlines {indexes : List Index} {opened : List OpenIndex} :
    (emitOpenIndexes indexes).Gives b opened b' → κ.Outlines O b F →
    (∀ index ∈ indexes, ∀ st, F.store st → st.Bears index.root .emptyIndex) →
    ∃ F', κ.Reaches O b b' F' ∧ Indexed F F' opened b.cursors b'.cursors ∧ opened.map (·.2) = indexes := by
  induction indexes generalizing b O F opened with
  | nil =>
    intro h ho _
    obtain ⟨rfl, rfl⟩ := gives_pure.mp h
    exact ⟨F, ho.reaches, ⟨rfl, rfl, nofun, nofun, fun _ _ => rfl⟩, rfl⟩
  | cons index indexes ih =>
    intro h ho hroots
    simp only [emitOpenIndexes, gives_bind, gives_newCursor, gives_opWith, gives_pure] at h
    obtain ⟨_, b1, ⟨rfl, rfl⟩, _, b2, rfl, rest, b3, hrest, rfl, rfl⟩ := h
    obtain ⟨O1, g1, ho1⟩ := ho.newCursor.openStored (k := b.cursors) (.inr rfl)
      (hroots index List.mem_cons_self)
    obtain ⟨F', ⟨O2, g2, ho2⟩, hindexed, hsame⟩ := ih hrest ho1
      fun index hin => hroots index (List.mem_cons_of_mem _ hin)
    have hlt : b.cursors < b.newCursor.2.cursors := by
      simp only [Builder.newCursor]
      omega
    have hle : b.newCursor.2.cursors ≤ b'.cursors := Int.le_trans g1.cursors_le g2.cursors_le
    have hrange : ∀ x ∈ rest, b.newCursor.2.cursors ≤ x.1 ∧ x.1 < b'.cursors :=
      fun x hx => ⟨Int.le_trans g1.cursors_le (hindexed.range x hx).1, (hindexed.range x hx).2⟩
    have hself : F'.cursor b.cursors = Use.on (Stored index.root .emptyIndex) := by
      rw [hindexed.below (Int.lt_of_lt_of_le hlt g1.cursors_le)]
      exact Facts.put_cursor_self ..
    refine ⟨F', ⟨O2, ((Outline.Grows.newCursor O b).trans g1).trans g2, ho2⟩,
      ⟨hindexed.store, hindexed.register, fun x hx => ?_, fun x hx => ?_, fun k hk => ?_⟩, ?_⟩
    · rcases List.mem_cons.mp hx with rfl | hx
      · exact hself
      · exact hindexed.cursor x hx
    · rcases List.mem_cons.mp hx with rfl | hx
      · exact ⟨Int.le_refl _, Int.lt_of_lt_of_le hlt hle⟩
      · exact ⟨Int.le_trans (Int.le_of_lt hlt) (hrange x hx).1, (hrange x hx).2⟩
    · rw [List.map_cons, List.mem_cons, not_or] at hk
      rw [hindexed.other k hk.2, Facts.put_cursor_of_ne hk.1]
    · rw [List.map_cons, hsame]

end QueryMachine
