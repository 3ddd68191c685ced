import QueryMachine.Proofs.Compile.Expression
import QueryMachine.Proofs.Query.Steps

/-!
# Sorters and blocks of registers

The code that two-pass queries share: rows are sorted and met one by one, their fields are read into
registers, compared with those of the row before and copied.

* `State.Sorts`, `State.Drains` — a sorter that takes rows in, and one that gives them out.
* `sorterSort_leads`, `sorterNext_leads` — the instructions of the loop over sorted rows.
* `emitFields_leads`, `emitDiffers_leads`, `copy_leads` — blocks of registers.
-/

namespace QueryMachine

open Machine Emit

variable {σ : Setting} {b b' : Builder} {s s' : State} {rows : List (List Value)} {c target : Int} {a count : Nat}
  {row : List Value} {descending : List Bool} {keyCount : Nat} {α : Type}

/-! ## Sorters -/

/-- A sorter cursor with the given rows. -/
def Machine.State.Sorts (s : State) (c : Int) (keyCount : Nat) (descending : List Bool)
    (rows : List (List Value)) : Prop :=
  ∃ sorter, s.cursors.get? c = some ⟨.sorter sorter, none⟩ ∧ sorter.keyCount = keyCount ∧
    sorter.descending = descending ∧ sorter.rows.toList.map (·.1) = rows

/-- A sorter cursor that stands on the first of the rows that are still to come. -/
def Machine.State.Drains (s : State) (c : Int) (rows : List (List Value)) : Prop :=
  ∃ sorter i, s.cursors.get? c = some ⟨.sorter sorter, none⟩ ∧ sorter.position = some i ∧
    (sorter.rows.toList.map (·.1)).drop i = rows

/-- The rows in the order in which a sorter gives them out. -/
def sortRows (keyCount : Nat) (descending : List Bool) (rows : List (List Value)) :
    List (List Value) :=
  rows.mergeSort fun a b => Sorter.orderKeys keyCount descending a b != .gt

theorem sortRows_eq_nil : sortRows keyCount descending rows = [] ↔ rows = [] := by
  rw [← List.length_eq_zero_iff, sortRows, List.length_mergeSort, List.length_eq_zero_iff]

theorem Sorter.merge_eq (le : α → α → Bool) (xs ys : List α) : Sorter.merge le xs ys = xs.merge ys le := by
  induction xs generalizing ys with
  | nil => simp [Sorter.merge]
  | cons x xs ih =>
    rw [Sorter.merge]
    induction ys with
    | nil => simp [Sorter.mergeFrom]
    | cons y ys ihy =>
      rw [Sorter.mergeFrom, List.cons_merge_cons, ih, ihy]

/-- The sort is the one of the library. -/
theorem Sorter.mergeSort_eq (le : α → α → Bool) {bound : Nat} {xs : List α}
    (h : xs.length ≤ bound) : Sorter.mergeSort le bound xs = xs.mergeSort le := by
  induction bound generalizing xs with
  | zero =>
    rw [List.length_eq_zero_iff.mp (Nat.le_zero.mp h)]
    simp [Sorter.mergeSort]
  | succ bound ih =>
    match xs with
    | [] => simp [Sorter.mergeSort]
    | [x] => simp [Sorter.mergeSort]
    | x :: y :: xs =>
      rw [Sorter.mergeSort, if_neg (by simp), List.mergeSort]
      simp only [List.MergeSort.Internal.splitInTwo_fst, List.MergeSort.Internal.splitInTwo_snd]
      rw [Sorter.merge_eq, ih (by simp at h ⊢; omega), ih (by simp at h ⊢; omega)]

theorem Sorter.sort_eq (t : Sorter) : t.sort =
    let sorted := t.rows.toList.mergeSort fun a b => orderKeys t.keyCount t.descending a.1 b.1 != .gt
    { t with rows := sorted.toArray, position := if sorted.isEmpty then none else some 0 } := by
  rw [Sorter.sort, Sorter.mergeSort_eq _ (Nat.le_of_eq t.rows.length_toList)]

theorem Sorter.sort_rows (t : Sorter) :
    t.sort.rows.toList.map (·.1) = sortRows t.keyCount t.descending (t.rows.toList.map (·.1)) := by
  rw [Sorter.sort_eq]
  exact List.map_mergeSort fun _ _ _ _ => rfl

theorem sorter_of_cursor {t : Sorter} (h : s.cursors.get? c = some ⟨.sorter t, none⟩) (pc : Nat) (opcode : Opcode) :
    s.sorter pc opcode c = .ok t := by
  simp only [State.sorter, State.cursor, h]

/-- Sorting goes to the first row, or jumps where there is none. -/
theorem sorterSort_leads {done : Label} (hend : (b.emitJump .sorterSort c 0 done .empty 0).Begins σ.final)
    (hl : done < b.labels.size) (hat : σ.At done a) (hs : s.Sorts c keyCount descending rows) :
    σ.Leads (fun pc s' => Quiet (fun _ => True) (fun k => k ≠ c) s s' ∧ if rows = [] then pc = a
      else pc = b.address + 1 ∧ s'.Drains c (sortRows keyCount descending rows)) b.address s := by
  obtain ⟨t, hcursor, rfl, rfl, rfl⟩ := hs
  have hquiet : Quiet (fun _ => True) (fun k => k ≠ c) s (s.setSorter c t.sort) :=
    .setCursor s _ fun k hk => hk
  have hsorted := Sorter.sort_rows t
  by_cases hempty : t.rows.toList.map (·.1) = []
  · simp only [if_pos hempty]
    have hrows : t.rows.toList = [] := List.map_eq_nil_iff.mp hempty
    have hposition : t.sort.position = none := by simp [Sorter.sort_eq, hrows]
    refine .taken hend hl hat rfl (t := s.setSorter c t.sort) ?_ (.here ⟨hquiet, rfl⟩)
    simp [execute, sorterSort, sorter_of_cursor hcursor, hposition, jumpIf]
  · simp only [if_neg hempty]
    have hposition : t.sort.position = some 0 := by
      have hrows : t.rows.toList ≠ [] := fun h => hempty (by rw [h]; rfl)
      have hmerge : (t.rows.toList.mergeSort fun a b =>
          Sorter.orderKeys t.keyCount t.descending a.1 b.1 != .gt).isEmpty = false := by
        rw [List.isEmpty_eq_false_iff, ne_eq, ← List.length_eq_zero_iff, List.length_mergeSort,
          List.length_eq_zero_iff]
        exact hrows
      simp only [Sorter.sort_eq, hmerge]
      rfl
    refine .passed hend hl hat rfl (t := s.setSorter c t.sort) ?_ (.here ⟨hquiet, ?_, ?_⟩)
    · simp [execute, sorterSort, sorter_of_cursor hcursor, hposition, jumpIf]
    · exact Builder.address_emitJump ..
    · exact ⟨t.sort, 0, Slots.get?_set_self .., hposition, hsorted⟩

theorem Machine.State.Sorts.congr {n : Nat} (h : s.Sorts c n descending rows)
    (hcursor : s'.cursors.get? c = s.cursors.get? c) : s'.Sorts c n descending rows := by
  obtain ⟨t, hc, hrest⟩ := h
  exact ⟨t, hcursor.trans hc, hrest⟩

theorem Machine.State.Drains.congr (h : s.Drains c rows) (hcursor : s'.cursors.get? c = s.cursors.get? c) :
    s'.Drains c rows := by
  obtain ⟨t, i, hc, hrest⟩ := h
  exact ⟨t, i, hcursor.trans hc, hrest⟩

/-- The current row of a sorter. -/
theorem Machine.State.Drains.current (h : s.Drains c (row :: rows)) :
    ∃ t record, s.cursors.get? c = some ⟨.sorter t, none⟩ ∧ t.current? = some (row, record) := by
  obtain ⟨t, i, hcursor, hposition, hdrop⟩ := h
  have hrow : (t.rows.toList.map (·.1))[i]? = some row := by
    rw [← List.head?_drop, hdrop]
    rfl
  rw [List.getElem?_map] at hrow
  obtain ⟨⟨values, record⟩, hget, rfl⟩ := Option.map_eq_some_iff.mp hrow
  refine ⟨t, record, hcursor, ?_⟩
  simp only [Sorter.current?, hposition, Option.bind_some]
  rw [← Array.getElem?_toList]
  exact hget

theorem Machine.State.Drains.currentRow (h : s.Drains c (row :: rows)) (pc : Nat) : s.currentRow pc c = .ok row := by
  obtain ⟨t, record, hcursor, hcurrent⟩ := h.current
  simp only [State.currentRow, State.cursor, hcursor, hcurrent]

theorem sorterData_leads (hend : (b.emit (.plain .sorterData c target 0)).Begins σ.final)
    (h : s.Drains c (row :: rows)) : σ.Leads (fun pc s' => pc = (b.emit (.plain .sorterData c target 0)).address ∧
      Quiet (fun r => 0 < r ∧ r ≠ target) (fun _ => True) s s') b.address s := by
  obtain ⟨t, record, hcursor, hcurrent⟩ := h.current
  refine .op hend rfl (t := s.set target (.blob record)) ?_ (.here ⟨rfl, .set s _ fun q hq => hq⟩)
  simp only [execute, Instruction.plain, sorterData, sorter_of_cursor hcursor, hcurrent]

/-- Going to the next row at the end of a loop, or out of it if there is none. -/
theorem sorterNext_leads {head : Label} (hend : (b.emitJump .sorterNext c 0 head .empty 0).Begins σ.final)
    (hl : head < b.labels.size) (hat : σ.At head a) (h : s.Drains c (row :: rows)) :
    σ.Leads (fun pc s' => Quiet (fun _ => True) (fun k => k ≠ c) s s' ∧
      if rows = [] then pc = b.address + 1 else pc = a ∧ s'.Drains c rows) b.address s := by
  obtain ⟨t, i, hcursor, hposition, hdrop⟩ := h
  have hquiet : Quiet (fun _ => True) (fun k => k ≠ c) s (s.setSorter c t.next) :=
    .setCursor s _ fun k hk => hk
  have hrest : (t.rows.toList.map (·.1)).drop (i + 1) = rows := by
    rw [← List.drop_drop, List.drop_one, hdrop]
    rfl
  have hlength : t.rows.size - (i + 1) = rows.length := by
    rw [← hrest]
    simp
  by_cases hempty : rows = []
  · simp only [if_pos hempty]
    have hnext : t.next.position = none := by
      have hge : t.rows.size ≤ i + 1 := by
        rw [hempty] at hlength
        have hlength : t.rows.size - (i + 1) = 0 := hlength
        omega
      simp [Sorter.next, hposition, hge]
    refine .passed hend hl hat rfl (t := s.setSorter c t.next) ?_ (.here ⟨hquiet, ?_⟩)
    · simp [execute, sorterNext, sorter_of_cursor hcursor, hnext, jumpIf]
    · exact Builder.address_emitJump ..
  · simp only [if_neg hempty]
    have hnext : t.next.position = some (i + 1) := by
      have hlt : i + 1 < t.rows.size := by
        have := List.length_pos_iff.mpr hempty
        omega
      simp [Sorter.next, hposition, hlt]
    refine .taken hend hl hat rfl (t := s.setSorter c t.next) ?_ (.here ⟨hquiet, rfl, ?_⟩)
    · simp [execute, sorterNext, sorter_of_cursor hcursor, hnext, jumpIf]
    · exact ⟨t.next, i + 1, Slots.get?_set_self .., hnext, hrest⟩

/-! ## Blocks of registers -/

/-- Consecutive fields of a row. -/
def fieldsAt (row : List Value) (field : Int) (count : Nat) : List Value :=
  (List.range count).map fun (k : Nat) => fieldAt row (field + k)

theorem fieldsAt_succ (row : List Value) (field : Int) (count : Nat) :
    fieldsAt row field (count + 1) = fieldAt row field :: fieldsAt row (field + 1) count := by
  simp only [fieldsAt, List.range_succ_eq_map, List.map_cons, List.map_map, Int.natCast_zero,
    Int.add_zero, List.cons.injEq, true_and]
  apply List.map_congr_left
  intro k _
  show fieldAt row (field + ((k + 1 : Nat) : Int)) = fieldAt row (field + 1 + k)
  congr 1
  omega

/-- The fields in the middle of a row. -/
theorem fieldsAt_append (before middle after : List Value) :
    fieldsAt (before ++ middle ++ after) before.length middle.length = middle := by
  induction middle generalizing before with
  | nil => rfl
  | cons v middle ih =>
    rw [List.length_cons, fieldsAt_succ]
    have hfield : fieldAt (before ++ v :: middle ++ after) before.length = v := by
      have hnonneg : ¬ (before.length : Int) < 0 := by omega
      simp [fieldAt, hnonneg]
    have hrest := ih (before ++ [v])
    have hrow : before ++ [v] ++ middle ++ after = before ++ v :: middle ++ after := by simp
    have hnext : ((before ++ [v]).length : Int) = before.length + 1 := by simp
    rw [hrow, hnext] at hrest
    rw [hfield, hrest]

/-- Consecutive fields of the current row are read into a block. -/
theorem Output.emitFields_leads {field : Int} (h : (Output.emitFields c count field target).Gives b () b')
    (hend : b'.Begins σ.final) (hb : b.Valid) (htarget : 0 < target) (hrow : ∀ pc, s.currentRow pc c = .ok row) :
    σ.Leads (fun pc s' => pc = b'.address ∧ s'.getBlock target count = fieldsAt row field count ∧
      Quiet (fun r => 0 < r ∧ (r < target ∨ target + count ≤ r)) (fun _ => True) s s') b.address s := by
  induction count generalizing field target b s with
  | zero =>
    obtain ⟨-, rfl⟩ := gives_pure.mp h
    exact .here ⟨rfl, rfl, .refl s⟩
  | succ count ih =>
    simp only [Output.emitFields, gives_bind, gives_op] at h
    obtain ⟨_, b1, rfl, hrest⟩ := h
    have h1 := (Builder.Grows.refl hb).emit (.plain .column c field target)
    refine .op ((hrest.grows h1.valid).begins.trans hend) rfl
      (t := s.set target (fieldAt row field)) ?_ ?_
    · simp only [execute, Instruction.plain, readField, hrow]
    have hrow1 : ∀ pc, (s.set target (fieldAt row field)).currentRow pc c = .ok row := hrow
    refine (ih hrest h1.valid (by omega) hrow1).mono ?_
    rintro pc s' ⟨rfl, hblock, hq⟩
    refine ⟨rfl, ?_, .trans (.set s _ fun q hq => ⟨hq.1, by omega⟩)
      (hq.mono (fun r hr => ⟨hr.1, by omega⟩) fun _ h => h)⟩
    rw [State.getBlock_succ, hblock, hq.get target ⟨htarget, by omega⟩, State.get_set_self,
      fieldsAt_succ]

theorem comparison_ne (v w : Value) : comparison .ne true v w = some (v.order w != .eq) := by
  cases v <;> cases w <;> rfl

/-- Two blocks are compared: the code jumps unless they are equal. -/
theorem Output.emitDiffers_leads {fresh : Label} {current previous : Int}
    (h : (Output.emitDiffers fresh count current previous).Gives b () b') (hb : b.Valid) (hend : b'.Begins σ.final)
    (hl : fresh < b.labels.size) (hat : σ.At fresh a) : σ.Leads (fun pc s' => s' = s ∧
      if Value.orderRows (s.getBlock previous count) (s.getBlock current count) = .eq then pc = b'.address
      else pc = a) b.address s := by
  induction count generalizing current previous b with
  | zero =>
    obtain ⟨-, rfl⟩ := gives_pure.mp h
    exact .here ⟨rfl, rfl⟩
  | succ count ih =>
    simp only [Output.emitDiffers, gives_bind, gives_jumpFlagged] at h
    obtain ⟨_, b1, rfl, hrest⟩ := h
    have h1 := (Builder.Grows.refl hb).emitJump .ne current previous fresh .empty Flag.nullEqual
    have hend1 := (hrest.grows h1.valid).begins.trans hend
    have hexecute : ∀ target : Int, execute σ.env b.address
        ⟨.ne, current, target, previous, .empty, Flag.nullEqual⟩ s =
        .ok (jumpIf ((s.get previous).order (s.get current) != .eq) target s) := by
      intro target
      have hnull : (Flag.nullEqual &&& Flag.nullEqual != 0) = true := by decide
      have hstore : (Flag.nullEqual &&& Flag.storeResult != 0) = false := by decide
      simp only [execute, compareRegisters, Instruction.has, hnull, hstore, comparison_ne,
        Option.getD_some]
      rfl
    simp only [State.getBlock_succ, Value.orderRows]
    cases horder : (s.get previous).order (s.get current) with
    | eq =>
      refine .passed hend1 hl hat rfl (t := s) ?_ ?_
      · rw [hexecute, horder]
        rfl
      · exact ih hrest h1.valid hl
    | lt | gt =>
      refine .taken hend1 hl hat rfl (t := s) ?_ (.here ⟨rfl, rfl⟩)
      rw [hexecute, horder]
      rfl

/-- Copying a block to a later one that does not overlap it. -/
theorem copyBlock_spec {source : Int} (hpos : 0 < source) (happart : source + count ≤ target) :
    (copyBlock source target count s).getBlock target count = s.getBlock source count ∧
      Quiet (fun r => 0 < r ∧ (r < target ∨ target + count ≤ r)) (fun _ => True) s
        (copyBlock source target count s) := by
  induction count generalizing source target s with
  | zero => exact ⟨rfl, .refl s⟩
  | succ count ih =>
    obtain ⟨hblock, hq⟩ := @ih (s.set target (s.get source)) (target + 1) (source + 1) (by omega)
      (by omega)
    have hfirst : Quiet (fun r => 0 < r ∧ r ≠ target) (fun _ => True) s
        (s.set target (s.get source)) := .set s _ fun q hq => hq
    refine ⟨?_, .trans (hfirst.mono (fun r hr => ⟨hr.1, by omega⟩) fun _ h => h)
      (hq.mono (fun r hr => ⟨hr.1, by omega⟩) fun _ h => h)⟩
    show (copyBlock (source + 1) (target + 1) count (s.set target (s.get source))).getBlock target
      (count + 1 : Nat) = _
    rw [State.getBlock_succ, State.getBlock_succ, hblock, hq.get target ⟨by omega, by omega⟩,
      State.get_set_self, hfirst.toFrame.getBlock fun r hle hlt => ⟨by omega, by omega⟩]

end QueryMachine
