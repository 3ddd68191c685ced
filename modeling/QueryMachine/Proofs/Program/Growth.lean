import Mathlib.Algebra.Ring.Int.Defs
import Mathlib.Algebra.Ring.Nat
import QueryMachine.Program.Builder

/-!
# How a program grows

Building steps append instructions, bind labels of their own and hand registers out. `Grows b b'`
collects what every such piece of work keeps: the instructions written before, the labels known
before, and the registers held before. `Begins b b'` is the part of it that the finished program
depends on.

* `Emit.Gives` — a building step that succeeds, with its result and the builder after it.
* `Emit.Total` — a step that succeeds whatever stands before it.
* `RegisterPool.Takes` — what handing out registers does.
* `Builder.Grows`, `Builder.Begins`.
* `Builder.code_of_emit`, `Builder.code_of_jump` — the instruction that ends up at an address.
-/

namespace QueryMachine

theorem bind_eq_ok {ε α β : Type} {x : Except ε α} {f : α → Except ε β} {c : β} :
    (x >>= f) = .ok c ↔ ∃ a, x = .ok a ∧ f a = .ok c := by
  cases x <;> simp [bind, Except.bind]

theorem bind_eq_error {ε α β : Type} {x : Except ε α} {f : α → Except ε β} {e : ε} :
    (x >>= f) = .error e ↔ x = .error e ∨ ∃ a, x = .ok a ∧ f a = .error e := by
  cases x <;> simp [bind, Except.bind]

/-! ## Registers that are held -/

namespace RegisterPool

/-- The register was handed out and is not given back. -/
def Holds (p : RegisterPool) (r : Int) : Prop := 0 < r ∧ r < p.next ∧ r ∉ p.free

/-- What was given back was handed out before, and is kept once. -/
structure Valid (p : RegisterPool) : Prop where
  next_pos : 0 < p.next
  free_range : ∀ r ∈ p.free, 0 < r ∧ r < p.next
  free_nodup : p.free.Nodup

theorem valid_fresh (reuse : Bool) : (fresh reuse).Valid :=
  ⟨Int.zero_lt_one, fun _ h => (List.not_mem_nil h).elim, List.nodup_nil⟩

/-- From `p` to `p'` the registers in `R` are handed out. -/
structure Takes (p : RegisterPool) (R : Int → Prop) (p' : RegisterPool) : Prop where
  valid : p'.Valid
  holds : ∀ r, p'.Holds r ↔ p.Holds r ∨ R r
  new : ∀ r, R r → ¬ p.Holds r

variable {p : RegisterPool}

theorem takes_block (hp : p.Valid) (n : Int) : p.Takes (fun r => p.next ≤ r ∧ r < p.next + n) (p.takeBlock n).2 where
  valid := by
    refine ⟨?_, fun r hr => ?_, hp.free_nodup⟩
    · have := hp.next_pos
      simp only [takeBlock]
      omega
    · have := hp.free_range r hr
      simp only [takeBlock]
      omega
  holds r := by
    have hpos := hp.next_pos
    have hfree : p.next ≤ r → r ∉ p.free := by
      intro hle hin
      have := hp.free_range r hin
      omega
    simp only [Holds, takeBlock]
    constructor
    · rintro ⟨hr, hlt, hnot⟩
      by_cases hold : r < p.next
      · exact .inl ⟨hr, hold, hnot⟩
      · exact .inr (by omega)
    · rintro (⟨hr, hlt, hnot⟩ | ⟨hle, hlt⟩)
      · exact ⟨hr, by omega, hnot⟩
      · exact ⟨by omega, by omega, hfree hle⟩
  new r hr hheld := by
    have := hheld.2.1
    omega

theorem takes_one (hp : p.Valid) : p.Takes (· = p.takeOne.1) p.takeOne.2 := by
  have h := takes_block hp 1
  have hsame : p.takeOne.2 = (p.takeBlock 1).2 := rfl
  rw [hsame]
  refine ⟨h.valid, fun r => ?_, fun r hr => h.new r ?_⟩
  · rw [h.holds]
    refine or_congr_right ?_
    simp only [takeOne]
    omega
  · simp only [takeOne] at hr
    omega

theorem takes_temp (hp : p.Valid) : p.Takes (· = p.takeTemp.1) p.takeTemp.2 := by
  unfold takeTemp
  cases hfree : p.free with
  | nil => exact takes_one hp
  | cons r free =>
    have hnodup := hp.free_nodup
    have hrange := hp.free_range
    rw [hfree] at hnodup hrange
    have hout : r ∉ free := (List.nodup_cons.mp hnodup).1
    have hr := hrange r List.mem_cons_self
    refine ⟨⟨hp.next_pos, fun q hq => hrange q (List.mem_cons_of_mem _ hq),
      (List.nodup_cons.mp hnodup).2⟩, fun q => ?_, ?_⟩
    · simp only [Holds, hfree, List.mem_cons, not_or]
      constructor
      · rintro ⟨hq, hlt, hnot⟩
        by_cases hqr : q = r
        · exact .inr hqr
        · exact .inl ⟨hq, hlt, hqr, hnot⟩
      · rintro (⟨hq, hlt, -, hnot⟩ | rfl)
        · exact ⟨hq, hlt, hnot⟩
        · exact ⟨hr.1, hr.2, hout⟩
    · rintro q rfl hheld
      exact hheld.2.2 (by rw [hfree]; exact List.mem_cons_self)

theorem valid_giveBack (hp : p.Valid) {r : Int} (hr : p.Holds r) : (p.giveBack r).Valid := by
  unfold giveBack
  split
  · refine ⟨hp.next_pos, fun q hq => ?_, List.nodup_cons.mpr ⟨hr.2.2, hp.free_nodup⟩⟩
    rcases List.mem_cons.mp hq with rfl | hq
    · exact ⟨hr.1, hr.2.1⟩
    · exact hp.free_range q hq
  · exact hp

theorem holds_giveBack {r q : Int} (hq : p.Holds q) (hne : q ≠ r) : (p.giveBack r).Holds q := by
  unfold giveBack
  split
  · refine ⟨hq.1, hq.2.1, fun hin => ?_⟩
    rcases List.mem_cons.mp hin with rfl | hin
    · exact hne rfl
    · exact hq.2.2 hin
  · exact hq

end RegisterPool

namespace Builder

/-- The register is held. -/
def Holds (b : Builder) (r : Int) : Prop := b.pool.Holds r

/-- Every register of a block is held. -/
def HoldsBlock (b : Builder) (first : Int) (count : Nat) : Prop :=
  ∀ r, first ≤ r → r < first + count → b.Holds r

/-- The registers are in order. -/
def Valid (b : Builder) : Prop := b.pool.Valid

theorem valid_fresh (reuse : Bool) : (fresh reuse).Valid := RegisterPool.valid_fresh reuse

/-- The instructions, with the labels as far as they are bound. -/
def code (b : Builder) : Array Instruction := b.drafts.map b.resolve

theorem code_size (b : Builder) : b.code.size = b.address := Array.size_map ..

/-! ## The beginning of a finished program -/

/-- `b` is a stage on the way to `b'`: its instructions come first, and what it has bound stays. -/
structure Begins (b b' : Builder) : Prop where
  code : b.drafts.toList <+: b'.drafts.toList
  labels : ∀ l a, b.target? l = some a → b'.target? l = some a
  labels_le : b.labels.size ≤ b'.labels.size

/-- `b'` comes from `b` by work that binds only labels of its own and gives back only registers of
its own. -/
structure Grows (b b' : Builder) : Prop where
  code : b.drafts.toList <+: b'.drafts.toList
  labels : ∀ l, l < b.labels.size → b'.labels[l]? = b.labels[l]?
  labels_le : b.labels.size ≤ b'.labels.size
  valid : b'.Valid
  holds : ∀ r, b.Holds r → b'.Holds r
  cursors : b.cursors ≤ b'.cursors

variable {b b' b'' : Builder} {l : Label}

theorem Begins.refl (b : Builder) : b.Begins b := ⟨List.prefix_refl _, fun _ _ h => h, Nat.le_refl _⟩

theorem Begins.trans (h : b.Begins b') (k : b'.Begins b'') : b.Begins b'' :=
  ⟨h.code.trans k.code, fun l a hl => k.labels l a (h.labels l a hl),
    Nat.le_trans h.labels_le k.labels_le⟩

theorem Begins.address_le (h : b.Begins b') : b.address ≤ b'.address := by
  have := h.code.length_le
  simpa [address] using this

theorem Begins.of_pool {pool : RegisterPool} (h : { b with pool }.Begins b') : b.Begins b' :=
  ⟨h.code, h.labels, h.labels_le⟩

theorem lt_of_target? {a : Int} (h : b.target? l = some a) : l < b.labels.size := by
  unfold target? at h
  by_cases hin : l < b.labels.size
  · exact hin
  · rw [Array.getElem?_eq_none (Nat.le_of_not_lt hin)] at h
    cases h

namespace Grows

theorem refl (hb : b.Valid) : b.Grows b :=
  ⟨List.prefix_refl _, fun _ _ => rfl, Nat.le_refl _, hb, fun _ h => h, Int.le_refl _⟩

theorem trans (h : b.Grows b') (k : b'.Grows b'') : b.Grows b'' where
  code := h.code.trans k.code
  labels l hl := (k.labels l (Nat.lt_of_lt_of_le hl h.labels_le)).trans (h.labels l hl)
  labels_le := Nat.le_trans h.labels_le k.labels_le
  valid := k.valid
  holds r hr := k.holds r (h.holds r hr)
  cursors := Int.le_trans h.cursors k.cursors

theorem begins (h : b.Grows b') : b.Begins b' := by
  refine ⟨h.code, fun l a hl => ?_, h.labels_le⟩
  have hlt := lt_of_target? hl
  unfold target? at hl ⊢
  rw [h.labels l hlt]
  exact hl

theorem holdsBlock (h : b.Grows b') {first : Int} {count : Nat} (hb : b.HoldsBlock first count) :
    b'.HoldsBlock first count :=
  fun r hle hlt => h.holds r (hb r hle hlt)

theorem unbound (h : b.Grows b') {l : Label} (hl : l < b.labels.size) (hnone : b.target? l = none) :
    b'.target? l = none := by
  unfold target? at hnone ⊢
  rw [h.labels l hl]
  exact hnone

end Grows

/-! ## Single building steps -/

theorem address_emit (i : Instruction) (b : Builder) : (b.emit i).address = b.address + 1 :=
  Array.size_push ..

theorem address_emitJump (o : Opcode) (p1 p3 : Int) (l : Label) (payload : Payload) (flags : UInt8)
    (b : Builder) : (b.emitJump o p1 p3 l payload flags).address = b.address + 1 :=
  Array.size_push ..

theorem address_bindHere (b : Builder) (l : Label) : (b.bindHere l).address = b.address := rfl

theorem Grows.emit (h : b.Grows b') (i : Instruction) : b.Grows (b'.emit i) where
  code := h.code.trans (by simp [Builder.emit])
  labels := h.labels
  labels_le := h.labels_le
  valid := h.valid
  holds := h.holds
  cursors := h.cursors

theorem Grows.emitJump (h : b.Grows b') (o : Opcode) (p1 p3 : Int) (l : Label) (payload : Payload)
    (flags : UInt8) : b.Grows (b'.emitJump o p1 p3 l payload flags) where
  code := h.code.trans (by simp [Builder.emitJump])
  labels := h.labels
  labels_le := h.labels_le
  valid := h.valid
  holds := h.holds
  cursors := h.cursors

theorem Grows.newLabel (h : b.Grows b') : b.Grows b'.newLabel.2 where
  code := h.code
  labels l hl := by
    have hold : l < b'.labels.size := Nat.lt_of_lt_of_le hl h.labels_le
    simp only [Builder.newLabel]
    rw [Array.getElem?_push_lt hold, ← Array.getElem?_eq_getElem hold]
    exact h.labels l hl
  labels_le := by
    have := h.labels_le
    simp only [Builder.newLabel, Array.size_push]
    omega
  valid := h.valid
  holds := h.holds
  cursors := h.cursors

theorem Grows.bindHere (h : b.Grows b') (hnew : b.labels.size ≤ l) : b.Grows (b'.bindHere l) where
  code := h.code
  labels k hk := by
    have hne : l ≠ k := Nat.ne_of_gt (Nat.lt_of_lt_of_le hk hnew)
    simp only [Builder.bindHere, bindTo]
    rw [Array.getElem?_setIfInBounds_ne hne]
    exact h.labels k hk
  labels_le := by
    simp only [Builder.bindHere, bindTo, Array.size_setIfInBounds]
    exact h.labels_le
  valid := h.valid
  holds := h.holds
  cursors := h.cursors

theorem Grows.newCursor (h : b.Grows b') : b.Grows b'.newCursor.2 where
  code := h.code
  labels := h.labels
  labels_le := h.labels_le
  valid := h.valid
  holds := h.holds
  cursors := by
    have := h.cursors
    simp only [Builder.newCursor]
    omega

theorem Begins.emit (b : Builder) (i : Instruction) : b.Begins (b.emit i) :=
  ⟨by simp [Builder.emit], fun _ _ h => h, Nat.le_refl _⟩

theorem Begins.emitJump (b : Builder) (o : Opcode) (p1 p3 : Int) (l : Label) (payload : Payload)
    (flags : UInt8) : b.Begins (b.emitJump o p1 p3 l payload flags) :=
  ⟨by simp [Builder.emitJump], fun _ _ h => h, Nat.le_refl _⟩

theorem Begins.newLabel (b : Builder) : b.Begins b.newLabel.2 where
  code := List.prefix_refl _
  labels l a hl := by
    have hlt := lt_of_target? hl
    simp only [target?, Builder.newLabel] at hl ⊢
    rw [Array.getElem?_push_lt hlt, ← Array.getElem?_eq_getElem hlt]
    exact hl
  labels_le := by simp [Builder.newLabel]

/-- Binding a label that is not bound yet is a stage like any other. -/
theorem Begins.bindHere (hnone : b.target? l = none) : b.Begins (b.bindHere l) where
  code := List.prefix_refl _
  labels k a hk := by
    have hne : l ≠ k := by
      rintro rfl
      rw [hnone] at hk
      cases hk
    simp only [target?, Builder.bindHere, bindTo] at hk ⊢
    rw [Array.getElem?_setIfInBounds_ne hne]
    exact hk
  labels_le := by simp [Builder.bindHere, bindTo]

theorem target?_bindHere (hl : l < b.labels.size) : (b.bindHere l).target? l = some (b.address : Int) := by
  simp only [target?, Builder.bindHere, bindTo]
  rw [Array.getElem?_setIfInBounds_self_of_lt hl]
  rfl

theorem labels_size_newLabel (b : Builder) : b.newLabel.2.labels.size = b.labels.size + 1 :=
  Array.size_push ..

theorem labels_size_bindHere (b : Builder) (l : Label) : (b.bindHere l).labels.size = b.labels.size := by
  simp [Builder.bindHere, bindTo]

theorem lt_newLabel (b : Builder) : b.labels.size < b.newLabel.2.labels.size := by
  rw [labels_size_newLabel]
  exact Nat.lt_succ_self _

theorem target?_newLabel (b : Builder) : b.newLabel.2.target? b.labels.size = none := by
  simp [target?, Builder.newLabel]

/-! ## Registers and cursors handed out by a builder -/

/-- From `b` to `b'` nothing happens but that the registers in `R` are handed out. -/
structure Takes (b : Builder) (R : Int → Prop) (b' : Builder) : Prop where
  drafts : b'.drafts = b.drafts
  labels : b'.labels = b.labels
  cursors : b'.cursors = b.cursors
  pool : b.pool.Takes R b'.pool

namespace Takes

variable {R : Int → Prop}

theorem address (h : b.Takes R b') : b'.address = b.address := by
  unfold Builder.address
  rw [h.drafts]

theorem grows (h : b.Takes R b') : b.Grows b' where
  code := ⟨[], by rw [h.drafts, List.append_nil]⟩
  labels l _ := by rw [h.labels]
  labels_le := Nat.le_of_eq (by rw [h.labels])
  valid := h.pool.valid
  holds r hr := (h.pool.holds r).mpr (.inl hr)
  cursors := Int.le_of_eq h.cursors.symm

theorem held (h : b.Takes R b') {r : Int} (hr : R r) : b'.Holds r := (h.pool.holds r).mpr (.inr hr)

theorem new (h : b.Takes R b') {r : Int} (hr : R r) : ¬ b.Holds r := h.pool.new r hr

theorem refl (hb : b.Valid) : b.Takes (fun _ => False) b :=
  ⟨rfl, rfl, rfl, hb, fun _ => by rw [or_false], fun _ h => h.elim⟩

theorem trans {R' : Int → Prop} (h : b.Takes R b') (k : b'.Takes R' b'') : b.Takes (fun r => R r ∨ R' r) b'' where
  drafts := k.drafts.trans h.drafts
  labels := k.labels.trans h.labels
  cursors := k.cursors.trans h.cursors
  pool :=
    { valid := k.pool.valid
      holds := fun r => by rw [k.pool.holds, h.pool.holds, or_assoc]
      new := fun r hr hheld => hr.elim (fun hr => h.new hr hheld)
        fun hr => k.new hr ((h.pool.holds r).mpr (.inl hheld)) }

theorem congr {R' : Int → Prop} (h : b.Takes R b') (hR : ∀ r, R r ↔ R' r) : b.Takes R' b' where
  drafts := h.drafts
  labels := h.labels
  cursors := h.cursors
  pool :=
    { valid := h.pool.valid
      holds := fun r => by rw [h.pool.holds, hR]
      new := fun r hr => h.pool.new r ((hR r).mpr hr) }

end Takes

theorem Grows.giveBack (h : b.Grows b') {r : Int} (hnew : ¬ b.Holds r) (hheld : b'.Holds r) :
    b.Grows { b' with pool := b'.pool.giveBack r } where
  code := h.code
  labels := h.labels
  labels_le := h.labels_le
  valid := RegisterPool.valid_giveBack h.valid hheld
  holds q hq := RegisterPool.holds_giveBack (h.holds q hq) fun hqr => hnew (hqr ▸ hq)
  cursors := h.cursors

/-! ## Instructions in the finished program -/

theorem drafts_of_begins (h : b.Begins b') {k : Nat} {d : Draft} (hd : b.drafts[k]? = some d) :
    b'.drafts[k]? = some d := by
  obtain ⟨rest, hrest⟩ := h.code
  rw [← Array.getElem?_toList] at hd ⊢
  obtain ⟨hk, -⟩ := List.getElem?_eq_some_iff.mp hd
  rw [← hrest, List.getElem?_append_left hk]
  exact hd

theorem code_of_emit {i : Instruction} (h : (b.emit i).Begins b') : b'.code[b.address]? = some i := by
  have hd : b'.drafts[b.address]? = some ⟨i, none⟩ :=
    drafts_of_begins h (by simp [emit, address])
  rw [code, Array.getElem?_map, hd]
  rfl

theorem code_of_jump {o : Opcode} {p1 p3 a : Int} {payload : Payload} {flags : UInt8}
    (h : (b.emitJump o p1 p3 l payload flags).Begins b') (hl : l < b.labels.size) (ha : b'.target? l = some a) :
    b'.code[b.address]? = some ⟨o, p1, a, p3, payload, flags⟩ := by
  have hd : b'.drafts[b.address]? = some ⟨⟨o, p1, 0, p3, payload, flags⟩, some l⟩ :=
    drafts_of_begins h (by simp [emitJump, address, hl])
  rw [code, Array.getElem?_map, hd]
  simp [resolve, ha]

/-- In a finished program every label that a jump names is bound. -/
theorem bound_of_finish {program : Program} (h : b.finish = .ok program)
    (hlabels : ∀ d ∈ b.drafts, ∀ l, d.label = some l → l < b.labels.size) :
    ∀ d ∈ b.drafts, ∀ l, d.label = some l → (b.target? l).isSome := by
  intro d hd l hl
  have hnone : b.unbound? = none := by
    unfold Builder.finish at h
    split at h
    · cases h
    · assumption
  have hall := List.find?_eq_none.mp hnone l (List.mem_range.mpr (hlabels d hd l hl))
  have hreferences : 0 < b.references l :=
    List.countP_pos_iff.mpr ⟨d, Array.mem_toList_iff.mpr hd, by simp [hl]⟩
  simp only [hreferences, decide_true, Bool.and_true, Bool.not_eq_true] at hall
  cases htarget : b.target? l with
  | none =>
    rw [htarget] at hall
    cases hall
  | some t => rfl

end Builder

/-! ## Building steps that succeed -/

namespace Emit

/-- The step succeeds on `b`, with the result `a` and the builder `b'` after it. -/
def Gives (m : Emit α) (b : Builder) (a : α) (b' : Builder) : Prop := m.run b = .ok a b'

variable {α β : Type} {b b' : Builder} {e : Error} {u : Unit} {o : Opcode} {p1 p2 p3 r n : Int} {l : Label}

theorem gives_pure {a a' : α} : (pure a : Emit α).Gives b a' b' ↔ a' = a ∧ b' = b := by
  unfold Gives
  constructor
  · intro h
    cases h
    exact ⟨rfl, rfl⟩
  · rintro ⟨rfl, rfl⟩
    rfl

theorem gives_bind {m : Emit α} {f : α → Emit β} {c : β} :
    (m >>= f).Gives b c b' ↔ ∃ a b1, m.Gives b a b1 ∧ (f a).Gives b1 c b' := by
  unfold Gives
  rw [EStateM.run_bind]
  cases hm : m.run b with
  | ok a b1 =>
    constructor
    · intro h
      exact ⟨a, b1, rfl, h⟩
    · rintro ⟨a', b2, heq, h⟩
      cases heq
      exact h
  | error e b1 =>
    constructor
    · intro h
      cases h
    · rintro ⟨_, _, heq, _⟩
      cases heq

/-- The step fails on `b`. -/
def Fails (m : Emit α) (b : Builder) (e : Error) : Prop := ∃ b', m.run b = .error e b'

theorem fails_bind {m : Emit α} {f : α → Emit β} :
    (m >>= f).Fails b e ↔ m.Fails b e ∨ ∃ a b1, m.Gives b a b1 ∧ (f a).Fails b1 e := by
  unfold Fails Gives
  rw [EStateM.run_bind]
  cases hm : m.run b with
  | ok a b1 =>
    constructor
    · exact fun h => .inr ⟨a, b1, rfl, h⟩
    · rintro (⟨_, heq⟩ | ⟨a', b2, heq, h⟩)
      · cases heq
      · cases heq
        exact h
  | error e b1 =>
    constructor
    · rintro ⟨_, heq⟩
      cases heq
      exact .inl ⟨b1, rfl⟩
    · rintro (⟨_, heq⟩ | ⟨_, _, heq, _⟩)
      · cases heq
        exact ⟨b1, rfl⟩
      · cases heq

theorem build_of_fails {m : Emit α} {reuse : Bool} (h : m.Fails (Builder.fresh reuse) e) :
    build reuse m = .error e := by
  obtain ⟨b', hrun⟩ := h
  rw [build, hrun]

theorem gives_throw {a : α} : ¬ (throw e : Emit α).Gives b a b' := by
  intro h
  cases h

theorem gives_modify {f : Builder → Builder} : (modify f : Emit Unit).Gives b u b' ↔ b' = f b := by
  unfold Gives
  constructor
  · intro h
    cases h
    rfl
  · rintro rfl
    rfl

theorem gives_modifyGet {f : Builder → α × Builder} {a : α} :
    (modifyGet f : Emit α).Gives b a b' ↔ a = (f b).1 ∧ b' = (f b).2 := by
  unfold Gives
  constructor
  · intro h
    cases h
    exact ⟨rfl, rfl⟩
  · rintro ⟨rfl, rfl⟩
    rfl

theorem gives_op : (op o p1 p2 p3).Gives b u b' ↔ b' = b.emit (.plain o p1 p2 p3) := gives_modify

theorem gives_opWith {payload : Payload} :
    (opWith o p1 p2 p3 payload).Gives b u b' ↔ b' = b.emit ⟨o, p1, p2, p3, payload, 0⟩ :=
  gives_modify

theorem gives_opFlagged {payload : Payload} {flags : UInt8} : (opFlagged o p1 p2 p3 payload flags).Gives b u b' ↔
      b' = b.emit ⟨o, p1, p2, p3, payload, flags⟩ := gives_modify

theorem gives_jump : (jump o p1 p3 l).Gives b u b' ↔ b' = b.emitJump o p1 p3 l .empty 0 := gives_modify

theorem gives_jumpFlagged {flags : UInt8} :
    (jumpFlagged o p1 p3 l flags).Gives b u b' ↔ b' = b.emitJump o p1 p3 l .empty flags :=
  gives_modify

theorem gives_newLabel : newLabel.Gives b l b' ↔ l = b.labels.size ∧ b' = b.newLabel.2 := gives_modifyGet

theorem gives_labelHere : labelHere.Gives b l b' ↔ l = b.labels.size ∧ b' = b.newLabel.2.bindHere b.labels.size :=
  gives_modifyGet

theorem gives_bindHere : (bindHere l).Gives b u b' ↔ b' = b.bindHere l := gives_modify

theorem gives_newCursor {c : Int} : newCursor.Gives b c b' ↔ c = b.cursors ∧ b' = b.newCursor.2 := gives_modifyGet

theorem gives_giveBack :
    (giveBack r).Gives b u b' ↔ b' = { b with pool := b.pool.giveBack r } := gives_modify

theorem takes_register (h : register.Gives b r b') (hb : b.Valid) : b.Takes (· = r) b' := by
  obtain ⟨rfl, rfl⟩ := gives_modifyGet.mp h
  exact ⟨rfl, rfl, rfl, RegisterPool.takes_one hb⟩

theorem takes_registers (h : (registers n).Gives b r b') (hb : b.Valid) : b.Takes (fun q => r ≤ q ∧ q < r + n) b' := by
  obtain ⟨rfl, rfl⟩ := gives_modifyGet.mp h
  exact ⟨rfl, rfl, rfl, RegisterPool.takes_block hb n⟩

theorem register_eq_next (h : register.Gives b r b') : r = b.pool.next :=
  (gives_modifyGet.mp h).1

theorem registers_eq_next (h : (registers n).Gives b r b') : r = b.pool.next :=
  (gives_modifyGet.mp h).1

theorem next_of_register (h : register.Gives b r b') : b'.pool.next = r + 1 := by
  obtain ⟨rfl, rfl⟩ := gives_modifyGet.mp h
  rfl

theorem next_of_registers (h : (registers n).Gives b r b') (hn : 0 ≤ n) : b'.pool.next = r + n := by
  obtain ⟨rfl, rfl⟩ := gives_modifyGet.mp h
  simp only [RegisterPool.takeBlock]
  omega

theorem takes_temp (h : temp.Gives b r b') (hb : b.Valid) : b.Takes (· = r) b' := by
  obtain ⟨rfl, rfl⟩ := gives_modifyGet.mp h
  exact ⟨rfl, rfl, rfl, RegisterPool.takes_temp hb⟩

/-! ## Steps that give a result -/

/-- The step gives a result, whatever the builder. -/
structure Total {α : Type} (m : Emit α) (Q : α → Prop) : Prop where
  gives : ∀ b, ∃ a b', m.Gives b a b' ∧ Q a

variable {m : Emit α} {f : α → Emit β} {Q : α → Prop} {R : β → Prop}

theorem Total.bind (h : m.Total Q) (hf : ∀ a, Q a → (f a).Total R) : (m >>= f).Total R := by
  refine ⟨fun b => ?_⟩
  obtain ⟨a, b1, hm, ha⟩ := h.gives b
  obtain ⟨a', b', hrest, ha'⟩ := (hf a ha).gives b1
  exact ⟨a', b', gives_bind.mpr ⟨a, b1, hm, hrest⟩, ha'⟩

theorem total_pure {a : α} (h : Q a) : (pure a : Emit α).Total Q :=
  ⟨fun b => ⟨a, b, gives_pure.mpr ⟨rfl, rfl⟩, h⟩⟩

theorem total_modifyGet (g : Builder → α × Builder) : (modifyGet g : Emit α).Total fun _ => True :=
  ⟨fun b => ⟨(g b).1, (g b).2, gives_modifyGet.mpr ⟨rfl, rfl⟩, trivial⟩⟩

theorem total_op (o : Opcode) (p1 p2 p3 : Int) : (op o p1 p2 p3).Total fun _ => True := total_modifyGet _

theorem total_opWith (o : Opcode) (p1 p2 p3 : Int) (payload : Payload) :
    (opWith o p1 p2 p3 payload).Total fun _ => True := total_modifyGet _

theorem total_jump (o : Opcode) (p1 p3 : Int) (l : Label) : (jump o p1 p3 l).Total fun _ => True :=
  total_modifyGet _

theorem total_bindHere (l : Label) : (bindHere l).Total fun _ => True := total_modifyGet _

end Emit

end QueryMachine
