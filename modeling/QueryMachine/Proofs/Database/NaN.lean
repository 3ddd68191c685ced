import QueryMachine.Proofs.Database.Effect
import QueryMachine.Proofs.Machine.Walk

/-!
# Where a NaN comes from

Arithmetic gives NULL in the place of a NaN, and a text such as `nan` is no number to an affinity. So where neither
the trees nor the constants of a program hold a NaN, no register, tree, key, sorter or row of the run ever does, up
to the first sum or average that is one: a total takes `nan` for a number, and two infinities can cancel out.

A blob that reads as a record holds what the fields of the record hold.

* `Value.HoldsNaN` — a NaN, or a record that holds one.
* `Machine.State.Clean` — nothing in the state holds a NaN.
* `Machine.execute_clean` — one instruction.
* `Database.nan_from_totals` — statements.
-/

namespace QueryMachine

/-! ## Numbers and texts -/

namespace Binary64

theorem isNaN_ofMagnitude (negative : Bool) {m : Nat} (h : m ≤ infiniteMagnitude) :
    (ofMagnitude negative m).isNaN = false := by
  have hsign : infiniteMagnitude < signBit := by decide
  rw [isNaN, magnitude_ofMagnitude negative (by omega)]
  simpa using h

@[grind =]
theorem isNaN_ofUnits (negative : Bool) (num den : Nat) : (ofUnits negative num den).isNaN = false :=
  isNaN_ofMagnitude _ (Nat.min_le_right ..)

theorem isNaN_ofDecimal (negative : Bool) (digits : Nat) (exponent : Int) :
    (ofDecimal negative digits exponent).isNaN = false := by
  grind [ofDecimal, signedZero, infinity, isNaN_ofMagnitude]

end Binary64

namespace Text

/-- A NaN is written by a word. -/
theorem occursIn_of_readBinary64? {text : List Char} {x : Binary64} (h : readBinary64? text = some x)
    (hx : x.isNaN = true) : occursIn "nan".toList (text.map Char.toLower) = true := by
  have hsuffix : ∀ {part text : List Char}, part <:+ text → occursIn part text = true := by
    intro part text h
    induction text with
    | nil => simp [List.suffix_nil.mp h, occursIn]
    | cons c rest ih => grind [List.suffix_cons_iff, occursIn]
  have hsplit : (splitSign text).2 <:+ text := by
    unfold splitSign
    split <;> simp
  unfold readBinary64? at h
  dsimp only at h
  split at h
  · grind [Binary64.infinity, Binary64.isNaN_ofMagnitude]
  · split at h
    · rename_i hword
      have hchars := congrArg String.toList (eq_of_beq hword)
      rw [String.toList_ofList] at hchars
      rw [← hchars]
      exact hsuffix (hsplit.map _)
    · grind [readDecimal?, Binary64.isNaN_ofDecimal, Option.map_eq_some_iff]

end Text

/-! ## Values -/

namespace Value

/-- A NaN, or a record of which some field is one or holds one. -/
inductive HoldsNaN : Value → Prop
  | real {x : Binary64} (h : x.isNaN = true) : HoldsNaN (real x)
  | record {bytes : Bytes} {values : List Value} {v : Value} (h : Record.decode bytes = .ok values)
      (hv : v ∈ values) (hnan : HoldsNaN v) : HoldsNaN (blob bytes)

/-- The value holds no NaN. -/
def Clean (v : Value) : Prop := ¬ v.HoldsNaN

variable {v w : Value} {x : Binary64} {bytes : Bytes} {values : List Value}

@[grind =]
theorem clean_real_iff : (real x).Clean ↔ x.isNaN = false := by
  grind [Clean, HoldsNaN]

@[grind .]
theorem clean_null : null.Clean := nofun

@[grind .]
theorem clean_int (i : Int64) : (int i).Clean := nofun

@[grind .]
theorem clean_text (text : String) : (Value.text text).Clean := nofun

theorem Clean.isNaN (h : v.Clean) : v.isNaN = false := by
  cases v <;> grind [Value.isNaN]

theorem Clean.field (h : (blob bytes).Clean) (hdecode : Record.decode bytes = .ok values) : ∀ v ∈ values, v.Clean :=
  fun _ hv hnan => h (.record hdecode hv hnan)

theorem clean_record (h : Record.encode values = .ok bytes) (hvalues : ∀ v ∈ values, v.Clean) : (blob bytes).Clean := by
  rintro (_ | ⟨hdecode, hv, hnan⟩)
  cases (Record.decode_encode h).symm.trans hdecode
  exact hvalues _ hv hnan

theorem clean_ofReal (x : Binary64) : (ofReal x).Clean := by grind [ofReal]

theorem clean_arithmetic (onInts : Int → Int → Int) (onReals : Binary64 → Binary64 → Binary64) (v w : Value) :
    (arithmetic onInts onReals v w).Clean := by
  fun_cases arithmetic onInts onReals v w <;> grind [clean_ofReal]

theorem clean_div (v w : Value) : (v.div w).Clean := by grind [div, clean_arithmetic]

theorem clean_ofTruth (truth : Option Bool) : (ofTruth truth).Clean := by
  rcases truth with _ | _ | _ <;> exact nofun

theorem clean_narrow (h : x.isNaN = false) : (narrow x).Clean := by grind [narrow]

theorem clean_of_numberOfText? {text : String} (h : numberOfText? text = some v) : v.Clean := by
  grind [numberOfText?, clean_narrow, Text.occursIn_of_readBinary64?]

theorem Clean.withAffinity (h : v.Clean) (affinity : Affinity) : (v.withAffinity affinity).Clean := by
  have hnumber : ∀ text, ((numberOfText? text).getD (.text text)).Clean := by
    intro text
    cases hv : numberOfText? text <;> grind [clean_of_numberOfText?]
  fun_cases Value.withAffinity affinity v <;> grind [clean_of_numberOfText?, clean_narrow, Binary64.ofInt]

end Value

/-! ## States -/

/-- No value of a row holds a NaN. -/
@[grind =]
def CleanRow (row : List Value) : Prop := ∀ v ∈ row, v.Clean

/-- No record and no key of a tree holds a NaN. -/
@[grind =]
def Tree.Clean : Tree → Prop
  | .table rows => ∀ row ∈ rows, (Value.blob row.2).Clean
  | .index keys => ∀ key ∈ keys, CleanRow key

@[grind =]
def Position.Clean : Position → Prop
  | .rowid _ => True
  | .key fields => CleanRow fields

@[grind =]
def Sorter.Clean (s : Sorter) : Prop := ∀ row ∈ s.rows, CleanRow row.1 ∧ (Value.blob row.2).Clean

/-- The best value so far holds no NaN. Totals are not asked. -/
@[grind =]
def Accumulator.Clean : Accumulator → Prop
  | .min best | .max best => ∀ v, best = some v → v.Clean
  | _ => True

@[grind =]
def Store.Clean (st : Store) : Prop := ∀ root tree, st.tree? root = some tree → tree.Clean

@[grind =]
def Payload.Clean : Payload → Prop
  | .real x => (Value.real x).Clean
  | .blob bytes => (Value.blob bytes).Clean
  | _ => True

theorem CleanRow.applyAffinities {row : List Value} (h : CleanRow row) (codes : List Char) :
    CleanRow (Machine.applyAffinities codes row) := by
  induction codes generalizing row <;> cases row <;> grind [Machine.applyAffinities, Value.Clean.withAffinity]

namespace Machine

@[grind =]
def Backing.Clean : Backing → Prop
  | .stored _ => True
  | .transient tree => tree.Clean
  | .sorter s => s.Clean

@[grind =]
def Cursor.Clean (c : Cursor) : Prop := c.backing.Clean ∧ ∀ p, c.position = some p → p.Clean

/-- Nothing in the state holds a NaN. -/
structure State.Clean (s : State) : Prop where
  registers : ∀ r, (s.get r).Clean
  store : s.store.Clean
  cursors : ∀ c cursor, s.cursors.get? c = some cursor → cursor.Clean
  accumulators : ∀ r a, s.accumulators.get? r = some a → a.Clean
  rows : ∀ row ∈ s.rows, CleanRow row

end Machine

/-! ## What instructions read and write -/

namespace Tree.Clean

variable {tree : Tree} (h : tree.Clean)

include h

theorem ends {p : Position} (hp : tree.first? = some p ∨ tree.last? = some p) : p.Clean := by
  cases tree <;> grind [Tree.first?, Tree.last?, Option.map_eq_some_iff, List.mem_of_head?, List.mem_of_getLast?]

theorem after {p q : Position} (hq : tree.after? p = some q) : q.Clean := by
  cases tree <;> cases p <;> grind [Tree.after?, Option.map_eq_some_iff, List.mem_of_find?_eq_some]

theorem before {p q : Position} (hq : tree.before? p = some q) : q.Clean := by
  cases tree <;> cases p <;> grind [Tree.before?, Option.map_eq_some_iff, List.mem_of_getLast?]

end Tree.Clean

theorem Tree.Clean.put {rows : List (Int64 × Bytes)} {record : Bytes} (h : (Tree.table rows).Clean)
    (hrecord : (Value.blob record).Clean) (id : Int64) : (Tree.table (Rows.put id record rows)).Clean := by
  induction rows <;> grind [Rows.put]

theorem Tree.Clean.add {keys : List (List Value)} {key : List Value} (h : (Tree.index keys).Clean)
    (hkey : CleanRow key) : (Tree.index (Keys.add key keys)).Clean := by
  induction keys <;> grind [Keys.add]

theorem Tree.clean_cleared (tree : Tree) : tree.cleared.Clean := by
  cases tree <;> grind [Tree.cleared, Tree.emptyTable, Tree.emptyIndex]

theorem Sorter.Clean.insert {t : Sorter} {values : List Value} {record : Bytes} (h : t.Clean)
    (hrecord : (Value.blob record).Clean) (hvalues : Record.decode record = .ok values) :
    (t.insert values record).Clean := by
  grind [Sorter.insert, hrecord.field hvalues]

theorem Store.Clean.setTree {st : Store} (h : st.Clean) (root : Int) {tree : Tree} (htree : tree.Clean) :
    (st.setTree root tree).Clean := by
  grind [Store.tree?_setTree_self, Store.tree?_setTree_of_ne]

theorem Sorter.Clean.sort {t : Sorter} (h : t.Clean) : t.sort.Clean := by
  grind [Sorter.sort_eq, List.mem_mergeSort]

theorem Sorter.Clean.current {t : Sorter} {row : List Value × Bytes} (h : t.Clean) (hrow : t.current? = some row) :
    CleanRow row.1 ∧ (Value.blob row.2).Clean := by
  obtain ⟨k, -, hk⟩ := Option.bind_eq_some_iff.mp hrow
  exact h row (Array.mem_of_getElem? hk)

namespace Accumulator

variable {a : Accumulator}

theorem Clean.step (h : a.Clean) {args : List Value} (hargs : CleanRow args) : (a.step args).Clean := by
  cases args with
  | nil => cases a <;> exact h
  | cons v more =>
    rw [Accumulator.step]
    split
    · exact h
    · cases a with
      | min best | max best => cases best <;> grind [Accumulator.take, better]
      | _ => trivial

theorem clean_start {name : String} (h : startNamed? name = some a) : a.Clean := by
  obtain ⟨func, -, rfl⟩ := Option.map_eq_some_iff.mp h
  cases func <;> grind [start]

/-- The accumulator adds values up. -/
def adds : Accumulator → Bool
  | .sum .. | .avg .. => true
  | _ => false

/-- Only a total can be a NaN. -/
theorem Clean.result (h : a.Clean) (hnan : ¬ a.result.Clean) : a.adds = true ∧ a.result.isNaN = true := by
  cases a with
  | sum exact total seen => cases seen <;> cases exact <;> grind [Accumulator.result, adds, Value.isNaN]
  | avg total n => cases n <;> simp_all [Accumulator.result, adds, Value.isNaN, Value.clean_real_iff, Value.clean_null]
  | min best | max best | groupConcat best => cases best <;> grind [Accumulator.result]
  | count => grind [Accumulator.result]

end Accumulator

namespace Machine

theorem lift_eq_ok {α : Type} {x : Except Error α} {a : α} (h : Fault.lift x = .ok a) : x = .ok a := by
  cases x <;> cases h
  rfl

namespace State.Clean

variable {s : State} {pc : Nat} {o : Opcode} {r c : Int} (h : s.Clean)

include h

@[grind ←]
theorem set {v : Value} (hv : v.Clean) : (s.set r v).Clean where
  registers q := by grind [State.get, State.set, Registers.get_set, h.registers q]
  store := h.store
  cursors := h.cursors
  accumulators := by grind [State.set, Slots.get?_erase_self, Slots.get?_erase_of_ne, h.accumulators]
  rows := h.rows

theorem setCursor {cursor : Cursor} (hcursor : cursor.Clean) :
    { s with cursors := s.cursors.set c cursor }.Clean where
  registers := h.registers
  store := h.store
  cursors := by grind [Slots.get?_set_self, Slots.get?_set_of_ne, h.cursors]
  accumulators := h.accumulators
  rows := h.rows

@[grind ←]
theorem openCursor {backing : Backing} (hb : backing.Clean) : (s.openCursor c backing).Clean := h.setCursor ⟨hb, nofun⟩

@[grind ←]
theorem setStore {store : Store} (hstore : store.Clean) : { s with store }.Clean :=
  ⟨h.registers, hstore, h.cursors, h.accumulators, h.rows⟩

theorem rowSets (rowSets : Slots (List Int64)) : { s with rowSets }.Clean :=
  ⟨h.registers, h.store, h.cursors, h.accumulators, h.rows⟩

theorem setAccumulator {a : Accumulator} (ha : a.Clean) : { s with accumulators := s.accumulators.set r a }.Clean where
  registers := h.registers
  store := h.store
  cursors := h.cursors
  accumulators := by grind [Slots.get?_set_self, Slots.get?_set_of_ne, h.accumulators]
  rows := h.rows

theorem push {row : List Value} (hrow : CleanRow row) : { s with rows := s.rows.push row }.Clean :=
  ⟨h.registers, h.store, h.cursors, h.accumulators, by grind [h.rows]⟩

@[grind .]
theorem getBlock (first count : Int) : CleanRow (s.getBlock first count) := by
  grind [State.getBlock, h.registers]

@[grind →]
theorem getRecord {bytes : Bytes} (hr : s.getRecord pc o r = .ok bytes) : (Value.blob bytes).Clean := by
  grind [State.getRecord, h.registers r]

@[grind →]
theorem getFields {fields : List Value} (hr : s.getFields pc o r = .ok fields) : CleanRow fields := by
  unfold State.getFields at hr
  split at hr
  · rename_i bytes hbytes
    exact (h.getRecord hbytes).field (lift_eq_ok hr)
  · cases hr

@[grind →]
theorem cursor {cursor : Cursor} (hc : s.cursor pc c = .ok cursor) : cursor.Clean := by
  grind [State.cursor, h.cursors]

@[grind →]
theorem tree {tree : Tree} (ht : s.tree pc o c = .ok tree) : tree.Clean := by
  have := @h.cursor
  grind [State.tree, h.store]

@[grind →]
theorem sorter {t : Sorter} (ht : s.sorter pc o c = .ok t) : t.Clean := by
  have := @h.cursor
  grind [State.sorter]

@[grind ←]
theorem setTree {tree : Tree} (ht : tree.Clean) : (s.setTree c tree).Clean := by
  unfold State.setTree
  split
  · exact h.setStore (h.store.setTree _ ht)
  · rename_i hget
    exact h.setCursor ⟨ht, (h.cursors c _ hget).2⟩
  · exact h

@[grind ←]
theorem setPosition {position : Option Position} (hp : ∀ p, position = some p → p.Clean) :
    (s.setPosition c position).Clean := by
  unfold State.setPosition
  split
  · rename_i hget
    exact h.setCursor ⟨(h.cursors c _ hget).1, hp⟩
  · exact h

@[grind ←]
theorem setSorter {t : Sorter} (ht : t.Clean) : (s.setSorter c t).Clean := h.setCursor ⟨ht, nofun⟩

@[grind →]
theorem currentRow {row : List Value} (hr : s.currentRow pc c = .ok row) : CleanRow row := by
  unfold State.currentRow at hr
  split at hr
  · cases hr
  · rename_i hcursor
    split at hr
    · rename_i found hfound
      cases hr
      exact ((h.cursor hcursor).1.current hfound).1
    · cases hr
  · rename_i hcursor
    split at hr
    · cases hr
    · rename_i htree _
      split at hr
      · rename_i hrecord
        exact (h.tree htree _ (Rows.mem_of_get? hrecord)).field (lift_eq_ok hr)
      · cases hr
    · rename_i hposition
      cases hr
      exact (h.cursor hcursor).2 _ hposition
    · cases hr

@[grind .]
theorem nulls (first : Int) (count : Nat) : (setNulls first count s).Clean := by
  induction count generalizing first s with
  | zero => exact h
  | succ count ih => exact ih (h.set (v := .null) nofun) _

@[grind .]
theorem copies (source target : Int) (count : Nat) : (copyBlock source target count s).Clean := by
  induction count generalizing source target s with
  | zero => exact h
  | succ count ih => exact ih (h.set (h.registers source)) _ _

end State.Clean

variable {env : Environment} {pc pc' n : Nat} {i : Instruction} {s s' : State} {flow : Flow}

/-- The instruction ends a total that is a NaN. -/
def Spoils (pc : Nat) (i : Instruction) (s : State) : Prop :=
  i.opcode = .aggFinal ∧ ∃ a, accumulatorOf pc i s i.p1 = .ok a ∧ a.adds = true ∧ a.result.isNaN = true

theorem accumulatorOf_clean {r : Int} {a : Accumulator} (hs : s.Clean) (h : accumulatorOf pc i s r = .ok a) :
    a.Clean := by
  grind [accumulatorOf, hs.accumulators r, Accumulator.clean_start]

/-- **One instruction brings in no NaN**, unless it ends a total that is one. -/
theorem execute_clean (h : execute env pc i s = .ok (flow, s')) (hi : i.payload.Clean) (hs : s.Clean) :
    s'.Clean ∨ Spoils pc i s := by
  cases hcode : i.opcode with simp only [execute, hcode] at h
  | aggFinal => grind [aggFinal, accumulatorOf_clean hs, Accumulator.Clean.result, Spoils]
  -- Jumps, and registers that take an address, a count, a copy or NULL.
  | init | goto | halt | noop | ret | ifTrue | ifNot | isNull | notNull | gosub | initCoroutine | yield | ifPos
  | decrJumpZero | mustBeInt | integer | shallowCopy | null | copy | rowid | newRowid =>
    grind [leave, jumpOnTruth, jumpIf, gosub, initCoroutine, changeOver, returnAddress, ifPos, decrJumpZero, mustBeInt,
      readRowid, newRowid, hs.registers]
  | endCoroutine =>
    dsimp only [endCoroutine] at h
    repeat' split at h
    all_goals grind
  | found | notFound => grind [probe, jumpIf]
  | fkCheck => grind [foreignKeyCheck]
  -- Values that are computed.
  | add | subtract | multiply =>
    cases h
    exact .inl (hs.set (Value.clean_arithmetic _ _ _ _))
  | divide => grind [arithmetic, Value.clean_div]
  | and | or | eq | ne | lt | le | gt | ge => grind [logic, compareRegisters, Value.clean_ofTruth, jumpIf]
  | int64 | real | str8 | str | blob => grind [loadConstant]
  | column => grind [readField, fieldAt]
  | makeRecord => grind [makeRecord, CleanRow.applyAffinities, Value.clean_record]
  -- Cursors.
  | openRead | openWrite | openEphemeral | sorterOpen =>
    grind [openTree, openTransient, openSorter, Tree.emptyTable, Tree.emptyIndex, Sorter.empty]
  | close =>
    cases h
    refine .inl ⟨hs.registers, hs.store, ?_, hs.accumulators, hs.rows⟩
    grind [closeCursor, Slots.get?_erase_self, Slots.get?_erase_of_ne, hs.cursors]
  | rewind | last => grind [moveToEnd, jumpIf, Tree.Clean.ends]
  | next | prev => grind [moveOn, jumpIf, Tree.Clean.after, Tree.Clean.before, Option.bind_eq_some_iff]
  | notExists => grind [notExists]
  -- Trees.
  | insert => grind [insertRow, Tree.Clean.put]
  | delete =>
    unfold deleteRow at h
    repeat' split at h
    all_goals grind [Rows.erase, Keys.erase, hs.tree]
  | clear => grind [clearTree, Tree.clean_cleared, hs.store.setTree]
  | idxInsert | idxDelete => grind [changeKeys, Tree.Clean.add, Keys.erase]
  | createBtree =>
    cases h
    refine .inl ((hs.setStore fun root tree htree => ?_).set (Value.clean_int _))
    by_cases heq : root = s.store.nextRoot
    · rw [heq] at htree
      cases (Store.tree?_create_self ..).symm.trans htree
      split <;> exact List.forall_mem_nil _
    · exact hs.store root tree ((Store.tree?_create_of_ne heq).symm.trans htree)
  -- Sorters, sets, accumulators and rows.
  | sorterInsert | sorterSort | sorterNext =>
    grind [sorterInsert, sorterSort, sorterNext, Sorter.Clean.insert, Sorter.Clean.sort, Sorter.next, jumpIf]
  | sorterData =>
    unfold sorterData at h
    repeat' split at h
    all_goals grind [Sorter.Clean.current]
  | rowSetAdd | rowSetRead => grind [rowSetAdd, rowSetRead, hs.rowSets]
  | aggStep =>
    unfold aggStep at h
    split at h
    · cases h
    · rename_i ha
      cases h
      exact .inl (hs.setAccumulator ((accumulatorOf_clean hs ha).step (hs.getBlock _ _)))
  | resultRow => grind [resultRow, hs.push]

/-- The program comes to the end of a total that is a NaN, with nothing spoilt before. -/
def ComesToNaN (env : Environment) (pc : Nat) (s : State) : Prop :=
  ∃ n pc' s' i, Walks env n pc s pc' s' ∧ s'.Clean ∧ env.code[pc']? = some i ∧ Spoils pc' i s'

theorem ComesToNaN.before (hi : env.code[pc]? = some i) (hstep : step env pc i s = .ok (some pc', s')) :
    ComesToNaN env pc' s' → ComesToNaN env pc s := by
  rintro ⟨n, pc', s', j, hwalk, hj⟩
  exact ⟨n + 1, pc', s', j, .step hi hstep hwalk, hj⟩

/-- There a NaN comes in. -/
theorem ComesToNaN.spoilt (h : ComesToNaN env pc s) : ∃ n pc' s', Walks env n pc s pc' s' ∧ ¬ s'.Clean := by
  obtain ⟨n, pc', s', i, hwalk, -, hi, hop, a, ha, -, hnan⟩ := h
  have hx : execute env pc' i s' = .ok (.next, s'.set i.p1 a.result) := by simp only [execute, hop, aggFinal, ha]
  refine ⟨n + 1, pc' + 1, _, hwalk.trans (.next hi hx), fun hclean => ?_⟩
  have hget := (hclean.registers i.p1).isNaN
  rw [State.get_set_self, hnan] at hget
  cases hget

section

variable (hcode : ∀ i ∈ env.code, i.payload.Clean) (hs : s.Clean)

include hcode hs

theorem step_clean {next : Option Nat} (hi : env.code[pc]? = some i) (h : step env pc i s = .ok (next, s')) :
    s'.Clean ∨ ComesToNaN env pc s := by
  obtain ⟨flow, hx⟩ := execute_of_step h
  exact (execute_clean hx (hcode _ (Array.mem_of_getElem? hi)) hs).imp_right fun hspoils =>
    ⟨0, _, _, _, .refl, hs, hi, hspoils⟩

/-- What is clean stays clean up to the first such total. -/
theorem Walks.clean (h : Walks env n pc s pc' s') : s'.Clean ∨ ComesToNaN env pc s := by
  induction h with
  | refl => exact .inl hs
  | step hi hstep _ ih =>
    rcases step_clean hcode hs hi hstep with hclean | hnan
    · exact (ih hclean).imp_right (.before hi hstep)
    · exact .inr hnan

theorem runFrom_clean (fuel : Nat) (trace : Array Opcode) : ((runFrom env fuel pc s trace).2.Clean ∧
    ∀ e, (runFrom env fuel pc s trace).1 = .ok e → ∀ row ∈ e.rows, CleanRow row) ∨ ComesToNaN env pc s := by
  fun_induction runFrom env fuel pc s trace with
  | case1 => exact .inl ⟨hs.store, by rintro _ ⟨⟩; exact hs.rows⟩
  | case2 | case3 => exact .inl ⟨hs.store, by rintro _ ⟨⟩⟩
  | case4 pc s trace i hi fuel s' hstep =>
    refine (step_clean hcode hs hi hstep).imp_left fun hclean => ⟨hclean.store, ?_⟩
    rintro _ ⟨⟩
    exact hclean.rows
  | case5 pc s trace i hi fuel pc' s' hstep ih =>
    rcases step_clean hcode hs hi hstep with hclean | hnan
    · exact (ih hclean).imp_right (.before hi hstep)
    · exact .inr hnan

end

theorem State.clean_start {store : Store} (h : store.Clean) : (State.start store).Clean :=
  ⟨fun _ => nofun, h, nofun, nofun, nofun⟩

end Machine

namespace Database

open Machine

variable {db : Database} {statement : Statement} {program : Program} {columns : List String}

/-- No state of the run holds a NaN, nor do the trees that the statement leaves and the rows that it gives. -/
structure StaysClean (db : Database) (statement : Statement) (program : Program) : Prop where
  states : ∀ n pc s, Walks (db.environment program) n 0 (.start db.store) pc s → s.Clean
  store : (db.execute statement).2.store.Clean
  rows : ∀ answer db', db.execute statement = (.ok answer, db') → ∀ row ∈ answer.execution.rows, CleanRow row

/-- **A NaN comes from a total only.** Where neither the trees nor the constants of the program hold one, nothing ever
does, exactly if the run never comes to the end of a sum or an average that is a NaN. -/
theorem nan_from_totals (hcompile : db.compile statement = .ok (program, columns))
    (hconstants : ∀ i ∈ program.code, i.payload.Clean) (hstore : db.store.Clean) :
    db.StaysClean statement program ↔ ¬ ComesToNaN (db.environment program) 0 (.start db.store) := by
  constructor
  · intro h hnan
    obtain ⟨n, pc, s, hwalk, hs⟩ := hnan.spoilt
    exact hs (h.states n pc s hwalk)
  · intro hnan
    have hstart := State.clean_start hstore
    have hrun := (runFrom_clean hconstants hstart db.stepLimit #[]).resolve_right hnan
    refine ⟨fun n pc s hwalk => (hwalk.clean hconstants hstart).resolve_right hnan, execute_store hcompile ▸ hrun.1,
      fun answer db' hexecute => hrun.2 _ ?_⟩
    obtain ⟨program', columns', hcompile', hanswer, -⟩ := execute_ok hexecute
    cases hcompile.symm.trans hcompile'
    exact congrArg Prod.fst hanswer

/-- One row of one value. -/
def valueOf (e : Term) : Statement := .select ⟨⟨false, [.term e none], [], none, [], none⟩, [], [], none⟩

/-- The largest of some texts, and one. -/
def largestAndOne : Statement := valueOf (.binary .add (.aggregate .max [.lit (.text "nan")]) (.lit (.int 1)))

/-- A text that reads `nan` can be the largest, and added to a number it gives NULL. -/
theorem nan_from_totals_largest : ∃ program columns,
    (empty .standard).compile largestAndOne = .ok (program, columns) ∧
      (∀ i ∈ program.code, i.payload.Clean) ∧ (empty .standard).store.Clean ∧
      ((empty .standard).StaysClean largestAndOne program ↔
        ¬ ComesToNaN ((empty .standard).environment program) 0 (.start (empty .standard).store)) := by
  have hprogram : ((empty .standard).compile largestAndOne).toOption.any (fun c => c.1.code.all fun i =>
      !(i.payload matches .real _ | .blob _)) = true := by decide +kernel
  have hstore : (empty .standard).store.Clean := by
    intro root tree htree
    by_cases hroot : root = Catalog.root
    · cases hroot
      cases htree
      exact nofun
    · cases (Slots.get?_set_of_ne _ _ hroot).symm.trans htree
  cases hcompile : (empty .standard).compile largestAndOne with
  | error e =>
    rw [hcompile] at hprogram
    cases hprogram
  | ok compiled =>
    rw [hcompile] at hprogram
    have hconstants : ∀ i ∈ compiled.1.code, i.payload.Clean := by
      intro i hi
      have hplain := Array.all_eq_true_iff_forall_mem.mp hprogram i hi
      cases hpayload : i.payload <;> simp_all [Payload.Clean]
    exact ⟨_, _, rfl, hconstants, hstore, nan_from_totals hcompile hconstants hstore⟩

/-- A sum takes the text `nan` for the number. -/
theorem nan_from_totals_sum :
    ((empty .standard).execute (valueOf (.aggregate .sum [.lit (.text "nan")]))).1.toOption.map
      (fun answer => answer.execution.rows.map (List.map Value.isNaN)) = some #[[true]] := by
  decide +kernel

end Database

end QueryMachine
