import QueryMachine.Machine
import QueryMachine.Proofs.Query.Meaning

/-!
# What a piece of code leaves alone

A piece of code writes some registers and moves some cursors. `Frame R C s s'` says that the
registers in `R` and the cursors in `C` are in `s'` what they were in `s`, and so are the trees of
the database; `Quiet` says in addition that no row was given out.
-/

namespace QueryMachine.Machine

/-- Without its flag, an instruction names the root itself. -/
theorem rootOf_plain (pc : Nat) (o : Opcode) (c root p3 : Int) (payload : Payload) (s : State) :
    rootOf pc ⟨o, c, root, p3, payload, 0⟩ s = .ok root := by
  have hflag : ((0 : UInt8) &&& Flag.rootInRegister != 0) = false := by decide
  simp only [rootOf, Instruction.has, hflag, Bool.false_eq_true, if_false]

namespace State

theorem get_set_self (s : State) (r : Int) (v : Value) : (s.set r v).get r = v := by
  show (s.registers.set r v).get r = v
  rw [Registers.get_set, if_pos rfl]

theorem get_set_of_ne (s : State) {r q : Int} (v : Value) (hq : 0 < q) (hne : q ≠ r) : (s.set r v).get q = s.get q := by
  have hdiff : q.toNat ≠ r.toNat := by omega
  show (s.registers.set r v).get q = s.registers.get q
  rw [Registers.get_set, if_neg hdiff]

theorem getBlock_succ (s : State) (first : Int) (count : Nat) :
    s.getBlock first (count + 1 : Nat) = s.get first :: s.getBlock (first + 1) count := by
  simp only [getBlock, Int.toNat_natCast, List.range_succ_eq_map, List.map_cons, List.map_map,
    Int.natCast_zero, Int.add_zero, List.cons.injEq, true_and]
  apply List.map_congr_left
  intro k _
  show s.get (first + ((k + 1 : Nat) : Int)) = s.get (first + 1 + k)
  congr 1
  omega

theorem getBlock_zero (s : State) (first : Int) : s.getBlock first 0 = [] := rfl

theorem getBlock_length (s : State) (first : Int) (count : Nat) : (s.getBlock first count).length = count := by
  simp [getBlock]

theorem getBlock_append (s : State) (first : Int) (m n : Nat) :
    s.getBlock first (m + n : Nat) = s.getBlock first m ++ s.getBlock (first + m) n := by
  induction m generalizing first with
  | zero => simp [getBlock_zero]
  | succ m ih =>
    have hcount : m + 1 + n = m + n + 1 := by omega
    have hfirst : first + ((m + 1 : Nat) : Int) = first + 1 + m := by omega
    rw [hcount, getBlock_succ, getBlock_succ, ih, hfirst, List.cons_append]

theorem getD_getBlock (s : State) (first : Int) {count i : Nat} (hi : i < count) :
    (s.getBlock first count).getD i .null = s.get (first + i) := by
  simp [getBlock, hi]

end State

/-! ## Frames -/

/-- The registers in `R`, the cursors in `C` and the trees of the database are what they were. -/
structure Frame (R C : Int → Prop) (s s' : State) : Prop where
  store : s'.store = s.store
  get : ∀ r, R r → s'.get r = s.get r
  accumulators : ∀ r, R r → s'.accumulators.get? r = s.accumulators.get? r
  rowSets : ∀ r, R r → s'.rowSets.get? r = s.rowSets.get? r
  cursors : ∀ c, C c → s'.cursors.get? c = s.cursors.get? c

/-- A frame in which no row was given out. -/
structure Quiet (R C : Int → Prop) (s s' : State) : Prop extends Frame R C s s' where
  rows : s'.rows = s.rows

namespace Frame

variable {R R' C C' : Int → Prop} {s s' s'' : State}

theorem refl (s : State) : Frame R C s s :=
  ⟨rfl, fun _ _ => rfl, fun _ _ => rfl, fun _ _ => rfl, fun _ _ => rfl⟩

theorem trans (h : Frame R C s s') (k : Frame R C s' s'') : Frame R C s s'' where
  store := k.store.trans h.store
  get r hr := (k.get r hr).trans (h.get r hr)
  accumulators r hr := (k.accumulators r hr).trans (h.accumulators r hr)
  rowSets r hr := (k.rowSets r hr).trans (h.rowSets r hr)
  cursors c hc := (k.cursors c hc).trans (h.cursors c hc)

theorem mono (h : Frame R C s s') (hR : ∀ r, R' r → R r) (hC : ∀ c, C' c → C c) : Frame R' C' s s' where
  store := h.store
  get r hr := h.get r (hR r hr)
  accumulators r hr := h.accumulators r (hR r hr)
  rowSets r hr := h.rowSets r (hR r hr)
  cursors c hc := h.cursors c (hC c hc)

theorem getBlock (h : Frame R C s s') {first count : Int} (hin : ∀ r, first ≤ r → r < first + count → R r) :
    s'.getBlock first count = s.getBlock first count := by
  simp only [State.getBlock]
  apply List.map_congr_left
  intro k hk
  have hlt : k < count.toNat := List.mem_range.mp hk
  exact h.get _ (hin _ (by omega) (by omega))

/-- A block of which one register at most is not in the frame. -/
theorem getBlock_set (h : Frame R C s s') {first : Int} {count i : Nat} {v : Value}
    (hin : ∀ r, first ≤ r → r < first + count → r ≠ first + i → R r) (hget : s'.get (first + i) = v) :
    s'.getBlock first count = (s.getBlock first count).set i v := by
  refine List.ext_getElem (by simp [State.getBlock]) fun k hk _ => ?_
  have hlt : k < count := by simpa [State.getBlock] using hk
  rw [List.getElem_set]
  simp only [State.getBlock, List.getElem_map, List.getElem_range]
  split
  · rename_i hik
    rw [← hik, hget]
  · rename_i hik
    exact h.get _ (hin _ (by omega) (by omega) (by omega))

end Frame

namespace Quiet

variable {R R' C C' : Int → Prop} {s s' s'' : State}

theorem refl (s : State) : Quiet R C s s := ⟨.refl s, rfl⟩

theorem trans (h : Quiet R C s s') (k : Quiet R C s' s'') : Quiet R C s s'' :=
  ⟨h.toFrame.trans k.toFrame, k.rows.trans h.rows⟩

theorem mono (h : Quiet R C s s') (hR : ∀ r, R' r → R r) (hC : ∀ c, C' c → C c) : Quiet R' C' s s' :=
  ⟨h.toFrame.mono hR hC, h.rows⟩

theorem set (s : State) {r : Int} (v : Value) (hR : ∀ q, R q → 0 < q ∧ q ≠ r) : Quiet R C s (s.set r v) where
  store := rfl
  get q hq := s.get_set_of_ne v (hR q hq).1 (hR q hq).2
  accumulators q hq := Slots.get?_erase_of_ne _ (hR q hq).2
  rowSets q hq := Slots.get?_erase_of_ne _ (hR q hq).2
  cursors _ _ := rfl
  rows := rfl

theorem setCursor (s : State) {c : Int} (cursor : Cursor) (hC : ∀ d, C d → d ≠ c) :
    Quiet R C s { s with cursors := s.cursors.set c cursor } where
  store := rfl
  get _ _ := rfl
  accumulators _ _ := rfl
  rowSets _ _ := rfl
  cursors d hd := Slots.get?_set_of_ne _ _ (hC d hd)
  rows := rfl

end Quiet

/-! ## While trees change -/

/-- The registers in `R` and the cursors in `C` are what they were; trees may have changed. -/
structure Keeps (R C : Int → Prop) (s s' : State) : Prop where
  get : ∀ r, R r → s'.get r = s.get r
  rowSets : ∀ r, R r → s'.rowSets.get? r = s.rowSets.get? r
  cursors : ∀ c, C c → s'.cursors.get? c = s.cursors.get? c

variable {s s' : State} {c : Int}

theorem Frame.keeps {R C : Int → Prop} (h : Frame R C s s') : Keeps R C s s' :=
  ⟨h.get, h.rowSets, h.cursors⟩

namespace Keeps

variable {R R' C C' : Int → Prop} {s s' s'' : State}

theorem refl (s : State) : Keeps R C s s := ⟨fun _ _ => rfl, fun _ _ => rfl, fun _ _ => rfl⟩

theorem trans (h : Keeps R C s s') (k : Keeps R C s' s'') : Keeps R C s s'' where
  get r hr := (k.get r hr).trans (h.get r hr)
  rowSets r hr := (k.rowSets r hr).trans (h.rowSets r hr)
  cursors c hc := (k.cursors c hc).trans (h.cursors c hc)

theorem mono (h : Keeps R C s s') (hR : ∀ r, R' r → R r) (hC : ∀ c, C' c → C c) : Keeps R' C' s s' :=
  ⟨fun r hr => h.get r (hR r hr), fun r hr => h.rowSets r (hR r hr),
    fun c hc => h.cursors c (hC c hc)⟩

end Keeps

/-! ## What a cursor shows -/

theorem currentRow_congr (hstore : s'.store = s.store) (hcursor : s'.cursors.get? c = s.cursors.get? c) (pc : Nat) :
    s'.currentRow pc c = s.currentRow pc c := by
  simp only [State.currentRow, State.tree, State.cursor, hstore, hcursor]

theorem currentRowid_congr (hcursor : s'.cursors.get? c = s.cursors.get? c) (pc : Nat) :
    s'.currentRowid pc c = s.currentRowid pc c := by
  simp only [State.currentRowid, State.cursor, hcursor]

theorem toInt_returnAddress {a : Nat} (h : a + 1 < 2 ^ 63) :
    (returnAddress a).toInt64.toInt = ((a + 1 : Nat) : Int) := by
  show (Int64.ofNat (a + 1)).toInt = _
  rw [Int64.toInt_ofNat_of_lt h]

theorem fieldAt_natCast (row : List Value) (index : Nat) : fieldAt row index = row.getD index .null := by
  have hnonneg : ¬ (index : Int) < 0 := by omega
  simp only [fieldAt, if_neg hnonneg, Int.toNat_natCast]

/-- A place can be read, and holds the value. -/
def State.Shows (s : State) : Place → Value → Prop
  | .field c index, v => ∃ row, (∀ pc, s.currentRow pc c = .ok row) ∧ v = fieldAt row index
  | .rowid c, v => ∃ id, (∀ pc, s.currentRowid pc c = .ok id) ∧ v = .int id

/-- A place cannot be read: that is a fault in `A`. -/
def State.Hides (A : Fault → Prop) (s : State) : Place → Prop
  | .field c _ => ∀ pc, ∃ f, A f ∧ s.currentRow pc c = .error f
  | .rowid c => ∀ pc, ∃ f, A f ∧ s.currentRowid pc c = .error f

theorem State.currentRow_ok {pc : Nat} {row : List Value} (h : s.currentRow pc c = .ok row) (pc' : Nat) :
    s.currentRow pc' c = .ok row := by
  unfold currentRow State.tree State.cursor at *
  cases hc : s.cursors.get? c with
  | none => simp [hc] at h
  | some cursor =>
    obtain ⟨backing, position⟩ := cursor
    simp only [hc] at h ⊢
    cases backing with
    | sorter t => cases hrow : t.current? <;> simp_all
    | transient tree => cases tree <;> grind
    | stored root => cases hroot : s.store.tree? root <;> grind

theorem State.currentRowid_ok {pc : Nat} {id : Int64} (h : s.currentRowid pc c = .ok id) (pc' : Nat) :
    s.currentRowid pc' c = .ok id := by
  unfold currentRowid State.cursor at *
  cases hc : s.cursors.get? c with
  | none => simp [hc] at h
  | some cursor =>
    simp only [hc] at h ⊢
    grind

/-- Where every fault is admitted, every place is shown or hidden. -/
theorem State.shows_or_hides {A : Fault → Prop} (s : State) (h : ∀ f, A f) (p : Place) :
    (∃ v, s.Shows p v) ∨ s.Hides A p := by
  by_cases hshows : ∃ v, s.Shows p v
  · exact .inl hshows
  · refine .inr ?_
    cases p with
    | field c index =>
      intro pc
      cases hrow : s.currentRow pc c with
      | error f => exact ⟨f, h f, rfl⟩
      | ok row => exact absurd ⟨_, row, fun pc' => State.currentRow_ok hrow pc', rfl⟩ hshows
    | rowid c =>
      intro pc
      cases hid : s.currentRowid pc c with
      | error f => exact ⟨f, h f, rfl⟩
      | ok id => exact absurd ⟨_, id, fun pc' => State.currentRowid_ok hid pc', rfl⟩ hshows

theorem Frame.shows {R C : Int → Prop} (h : Frame R C s s') {p : Place} {v : Value} (hc : C p.cursor)
    (hs : s.Shows p v) : s'.Shows p v := by
  cases p with
  | field c index =>
    obtain ⟨row, hrow, rfl⟩ := hs
    exact ⟨row, fun pc => (currentRow_congr h.store (h.cursors c hc) pc).trans (hrow pc), rfl⟩
  | rowid c =>
    obtain ⟨id, hid, rfl⟩ := hs
    exact ⟨id, fun pc => (currentRowid_congr (h.cursors c hc) pc).trans (hid pc), rfl⟩

theorem Frame.hides {R C A} (h : Frame R C s s') {p : Place} (hc : C p.cursor) (hs : s.Hides A p) : s'.Hides A p := by
  cases p with
  | field c index =>
    intro pc
    rw [currentRow_congr h.store (h.cursors c hc) pc]
    exact hs pc
  | rowid c =>
    intro pc
    rw [currentRowid_congr (h.cursors c hc) pc]
    exact hs pc

end QueryMachine.Machine
