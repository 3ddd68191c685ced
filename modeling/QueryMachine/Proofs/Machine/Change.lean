import Mathlib.Logic.Relation
import QueryMachine.Proofs.Machine.Path

/-!
# What a run does to the trees

Few instructions touch the trees of a database, and each of them changes one tree in one of a few
ways. What a run does to the trees is a sequence of such changes, whatever the program, and also
where it ends in a fault.

* `Store.Change` — everything that one instruction can do to the trees.
* `Machine.run_changes` — a run is a sequence of changes.
-/

namespace QueryMachine

/-- What one instruction does to the trees of a database. -/
inductive Store.Change (st : Store) : Store → Prop
  | same : Change st st
  | put {root : Int} {rows : List (Int64 × Bytes)} (id : Int64) (record : Bytes)
      (h : st.tree? root = some (.table rows)) :
      Change st (st.setTree root (.table (Rows.put id record rows)))
  | erase {root : Int} {rows : List (Int64 × Bytes)} (id : Int64)
      (h : st.tree? root = some (.table rows)) :
      Change st (st.setTree root (.table (Rows.erase id rows)))
  | addKey {root : Int} {keys : List (List Value)} (key : List Value)
      (h : st.tree? root = some (.index keys)) :
      Change st (st.setTree root (.index (Keys.add key keys)))
  | eraseKey {root : Int} {keys : List (List Value)} (key : List Value)
      (h : st.tree? root = some (.index keys)) :
      Change st (st.setTree root (.index (Keys.erase key keys)))
  | clear {root : Int} {tree : Tree} (h : st.tree? root = some tree) :
      Change st (st.setTree root tree.cleared)
  | create {tree : Tree} (h : tree = .emptyTable ∨ tree = .emptyIndex) :
      Change st (st.create tree).2

/-- What a sequence of instructions does to the trees. -/
abbrev Store.Changes : Store → Store → Prop := Relation.ReflTransGen Store.Change

namespace Machine

variable {env : Environment} {pc : Nat} {i : Instruction} {s s' : State} {flow : Flow}

/-! ## One instruction -/

theorem State.store_setPosition (s : State) (c : Int) (position : Option Position) :
    (s.setPosition c position).store = s.store := by
  unfold State.setPosition
  split <;> rfl

theorem setNulls_keeps (first : Int) (count : Nat) (s : State) :
    (setNulls first count s).store = s.store ∧ (setNulls first count s).cursors = s.cursors := by
  induction count generalizing first s with
  | zero => exact ⟨rfl, rfl⟩
  | succ count ih => exact ih (first + 1) (s.set first .null)

theorem copyBlock_keeps (source target : Int) (count : Nat) (s : State) :
    (copyBlock source target count s).store = s.store ∧ (copyBlock source target count s).cursors = s.cursors := by
  induction count generalizing source target s with
  | zero => exact ⟨rfl, rfl⟩
  | succ count ih => exact ih (source + 1) (target + 1) (s.set target (s.get source))

/-- A tree under a cursor is one of the database, or the cursor's own. -/
theorem State.tree_cases {opener : Opcode} {c : Int} {tree : Tree} (h : s.tree pc opener c = .ok tree) :
    (∃ root, s.store.tree? root = some tree ∧ ∀ tree', (s.setTree c tree').store = s.store.setTree root tree') ∨
    ∀ tree', (s.setTree c tree').store = s.store := by
  unfold State.tree State.cursor at h
  cases hc : s.cursors.get? c with
  | none => simp only [hc] at h; cases h
  | some cursor =>
    obtain ⟨backing, position⟩ := cursor
    simp only [hc] at h
    cases backing with
    | stored root =>
      dsimp only at h
      cases hroot : s.store.tree? root with
      | none => rw [hroot] at h; cases h
      | some found =>
        rw [hroot] at h
        cases h
        refine .inl ⟨root, hroot, fun tree' => ?_⟩
        simp only [State.setTree, hc]
    | transient found =>
      refine .inr fun tree' => ?_
      simp only [State.setTree, hc]
    | sorter sorter => cases h

/-- The instructions that touch the trees of a database. -/
def writes : Opcode → Bool
  | .insert | .delete | .clear | .idxInsert | .idxDelete | .createBtree => true
  | _ => false

theorem insertRow_cases (h : insertRow pc i s = .ok (flow, s')) :
    s'.store = s.store ∨ ∃ root rows id record, s.store.tree? root = some (.table rows) ∧
      s.get i.p2 = .blob record ∧ s'.store = s.store.setTree root (.table (Rows.put id record rows)) := by
  unfold insertRow State.getRecord at h
  repeat' split at h
  all_goals cases h
  rename_i record hrecord _ rows htree
  have hrecord : s.get i.p2 = .blob record := by
    split at hrecord <;> cases hrecord
    assumption
  rw [State.store_setPosition]
  rcases State.tree_cases htree with ⟨root, hroot, hset⟩ | hset
  · exact .inr ⟨root, rows, _, record, hroot, hrecord, hset _⟩
  · exact .inl (hset _)

theorem deleteRow_cases (h : deleteRow pc i s = .ok (flow, s')) : s'.store = s.store ∨ ∃ root,
      (∃ rows id, s.store.tree? root = some (.table rows) ∧
        s'.store = s.store.setTree root (.table (Rows.erase id rows))) ∨
      ∃ keys key, s.store.tree? root = some (.index keys) ∧
        s'.store = s.store.setTree root (.index (Keys.erase key keys)) := by
  unfold deleteRow at h
  repeat' split at h
  all_goals cases h
  all_goals
    rename_i htree
    rcases State.tree_cases htree with ⟨root, hroot, hset⟩ | hset
  · exact .inr ⟨root, .inl ⟨_, _, hroot, hset _⟩⟩
  · exact .inl (hset _)
  · exact .inr ⟨root, .inr ⟨_, _, hroot, hset _⟩⟩
  · exact .inl (hset _)

theorem changeKeys_cases {change : List Value → List (List Value) → List (List Value)}
    (h : changeKeys change pc i s = .ok (flow, s')) :
    s'.store = s.store ∨ ∃ root keys key, s.store.tree? root = some (.index keys) ∧
      s'.store = s.store.setTree root (.index (change key keys)) := by
  unfold changeKeys at h
  split at h
  · cases h
  · rename_i key hkey
    split at h
    · cases h
    · rename_i keys htree
      cases h
      rcases State.tree_cases htree with ⟨root, hroot, hset⟩ | hset
      · exact .inr ⟨root, keys, key, hroot, hset _⟩
      · exact .inl (hset _)
    · cases h

/-- What an instruction does to the cursors, where it touches no trees. -/
inductive CursorChange (pc : Nat) (i : Instruction) (s : State) : Slots Cursor → Prop
  | same : CursorChange pc i s s.cursors
  | moved (c : Int) (position : Option Position) : CursorChange pc i s (s.setPosition c position).cursors
  | opened {root : Int} (hop : i.opcode = .openRead ∨ i.opcode = .openWrite) (hroot : rootOf pc i s = .ok root) :
      CursorChange pc i s (s.cursors.set i.p1 ⟨.stored root, none⟩)
  | own {c : Int} {cursor : Cursor} (h : ∀ root, cursor.backing ≠ .stored root) :
      CursorChange pc i s (s.cursors.set c cursor)
  | closed : CursorChange pc i s (s.cursors.erase i.p1)

/-- The other instructions leave the trees alone. -/
theorem execute_keeps (h : execute env pc i s = .ok (flow, s')) (hop : writes i.opcode = false) :
    s'.store = s.store ∧ CursorChange pc i s s'.cursors := by
  cases hcode : i.opcode with
  | insert | delete | clear | idxInsert | idxDelete | createBtree =>
    rw [hcode] at hop
    cases hop
  | init | goto | halt | noop | gosub | ret | initCoroutine | yield | ifTrue | ifNot | decrJumpZero
  | isNull | notNull | integer | shallowCopy | add | subtract | multiply | divide | and | or
  | rowSetAdd | resultRow =>
    simp only [execute, hcode] at h
    cases h
    exact ⟨rfl, .same⟩
  | openEphemeral | sorterOpen =>
    simp only [execute, hcode] at h
    cases h
    exact ⟨rfl, .own (by simp)⟩
  | close =>
    simp only [execute, hcode] at h
    cases h
    exact ⟨rfl, .closed⟩
  | null =>
    simp only [execute, hcode] at h
    cases h
    obtain ⟨hstore, hcursors⟩ := setNulls_keeps i.p2 (max i.p3 i.p2 - i.p2 + 1).toNat s
    exact ⟨hstore, hcursors ▸ .same⟩
  | copy =>
    simp only [execute, hcode] at h
    cases h
    obtain ⟨hstore, hcursors⟩ := copyBlock_keeps i.p1 i.p2 (i.p3.toNat + 1) s
    exact ⟨hstore, hcursors ▸ .same⟩
  | rewind | last | next | prev =>
    simp only [execute, hcode, moveToEnd, moveOn] at h
    split at h
    all_goals cases h
    all_goals exact ⟨State.store_setPosition .., .moved ..⟩
  | notExists =>
    simp only [execute, hcode, Machine.notExists] at h
    repeat' split at h
    all_goals cases h
    · exact ⟨State.store_setPosition .., .moved ..⟩
    · exact ⟨rfl, .same⟩
  | openRead | openWrite =>
    simp only [execute, hcode, openTree] at h
    repeat' split at h
    all_goals cases h
    exact ⟨rfl, .opened (by simp [hcode]) ‹_›⟩
  | endCoroutine | ifPos | mustBeInt | int64 | real | str8 | str | blob | eq | ne | lt | le | gt | ge
  | found | notFound | column | rowid | makeRecord | newRowid | sorterData | rowSetRead | aggStep
  | aggFinal | fkCheck =>
    simp only [execute, hcode, Machine.endCoroutine, Machine.ifPos, Machine.mustBeInt, loadConstant,
      compareRegisters, probe, readField, readRowid, Machine.makeRecord, Machine.newRowid,
      Machine.sorterData, Machine.rowSetRead, Machine.aggStep, Machine.aggFinal, foreignKeyCheck] at h
    repeat' split at h
    all_goals cases h
    all_goals exact ⟨rfl, .same⟩
  | sorterInsert | sorterSort | sorterNext =>
    simp only [execute, hcode, Machine.sorterInsert, Machine.sorterSort, Machine.sorterNext] at h
    repeat' split at h
    all_goals cases h
    all_goals exact ⟨rfl, .own (by simp)⟩

/-- **Every instruction makes one of the changes.** -/
theorem execute_change (h : execute env pc i s = .ok (flow, s')) : s.store.Change s'.store := by
  by_cases hop : writes i.opcode = true
  · cases hcode : i.opcode with
    | insert =>
      simp only [execute, hcode] at h
      rcases insertRow_cases h with hsame | ⟨root, rows, id, record, hroot, -, hset⟩
      · exact hsame ▸ .same
      · exact hset ▸ .put id record hroot
    | delete =>
      simp only [execute, hcode] at h
      rcases deleteRow_cases h with hsame | ⟨root, ⟨rows, id, hroot, hset⟩ | ⟨keys, key, hroot, hset⟩⟩
      · exact hsame ▸ .same
      · exact hset ▸ .erase id hroot
      · exact hset ▸ .eraseKey key hroot
    | clear =>
      simp only [execute, hcode, clearTree] at h
      split at h
      · rename_i hroot
        cases h
        exact .clear hroot
      · cases h
    | idxInsert =>
      simp only [execute, hcode] at h
      rcases changeKeys_cases h with hsame | ⟨root, keys, key, hroot, hset⟩
      · exact hsame ▸ .same
      · exact hset ▸ .addKey key hroot
    | idxDelete =>
      simp only [execute, hcode] at h
      rcases changeKeys_cases h with hsame | ⟨root, keys, key, hroot, hset⟩
      · exact hsame ▸ .same
      · exact hset ▸ .eraseKey key hroot
    | createBtree =>
      simp only [execute, hcode] at h
      cases h
      refine .create ?_
      split
      · exact .inr rfl
      · exact .inl rfl
    | _ =>
      rw [hcode] at hop
      cases hop
  · rw [(execute_keeps h (by simpa using hop)).1]
    exact .same

/-! ## A run -/

theorem runFrom_changes (env : Environment) (fuel pc : Nat) (s : State) (trace : Array Opcode) :
    Store.Changes s.store (runFrom env fuel pc s trace).2 := by
  fun_induction runFrom env fuel pc s trace with
  | case1 | case2 | case3 => exact .refl
  | case4 pc s trace i hi fuel s' hstep =>
    obtain ⟨flow, hx⟩ := execute_of_step hstep
    exact .single (execute_change hx)
  | case5 pc s trace i hi fuel pc' s' hstep ih =>
    obtain ⟨flow, hx⟩ := execute_of_step hstep
    exact ih.head (execute_change hx)

/-- **What a run does to the trees is a sequence of changes.** -/
theorem run_changes (env : Environment) (store : Store) : Store.Changes store (run env store).2 :=
  runFrom_changes env env.stepLimit 0 (State.start store) #[]

end Machine

end QueryMachine
