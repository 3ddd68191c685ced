import QueryMachine.Proofs.Machine.Frame

/-!
# Instructions that differ in their registers

Two instructions may be the same but for the registers that they name. If the registers of one correspond to
those of the other, then they do the same to states that agree where registers correspond: they fail alike, or
go the same way and leave states that agree again.

* `Machine.Agree` — states that agree where registers correspond.
* `Straight`, `Branching` — pairs of instructions that differ in their registers only.
* `Machine.Straight.same`, `Machine.Branching.same` — what such a pair does.
-/

namespace QueryMachine

open Machine

/-- Which registers of a program correspond to which of another one. -/
abbrev Mates := Int → Int → Prop

/-- Every register has one partner, and those of `κ`, which hold return addresses, stand apart. -/
structure Mates.Bond (ρ κ : Mates) : Prop where
  one : ∀ {q q' r r'}, ρ q q' ∨ κ q q' → ρ r r' ∨ κ r r' → (q = r ↔ q' = r')
  pos : ∀ {r r'}, ρ r r' ∨ κ r r' → 0 < r ∧ 0 < r'
  apart : ∀ {q q' r r'}, ρ q q' → κ r r' → q ≠ r

theorem Mates.Bond.get?_set {α : Type} {ρ κ : Mates} {r r' : Int} {x x' : Slots α} (hρ : ρ.Bond κ) (hr : ρ r r')
    (hx : ∀ {q q'}, ρ q q' ∨ κ q q' → x'.get? q' = x.get? q) (a : α) {q q' : Int} (hq : ρ q q' ∨ κ q q') :
    (x'.set r' a).get? q' = (x.set r a).get? q := by
  by_cases heq : q = r
  · rw [heq, (hρ.one hq (.inl hr)).mp heq, Slots.get?_set_self, Slots.get?_set_self]
  · have hne : q' ≠ r' := fun h => heq ((hρ.one hq (.inl hr)).mpr h)
    rw [Slots.get?_set_of_ne _ _ hne, Slots.get?_set_of_ne _ _ heq, hx hq]

/-- The registers from `r` on and those from `r'` on correspond, `count` of them. -/
def Mates.Block (ρ : Mates) (r r' : Int) (count : Nat) : Prop := ∀ k < count, ρ (r + k) (r' + k)

theorem Mates.Block.head {ρ : Mates} {r r' : Int} {count : Nat} (h : ρ.Block r r' (count + 1)) : ρ r r' := by
  simpa using h 0 (Nat.succ_pos _)

theorem Mates.Block.tail {ρ : Mates} {r r' : Int} {count : Nat} (h : ρ.Block r r' (count + 1)) :
    ρ.Block (r + 1) (r' + 1) count := by
  intro k hk
  have := h (k + 1) (Nat.succ_lt_succ hk)
  rwa [Int.natCast_succ, Int.add_comm (k : Int) 1, ← Int.add_assoc, ← Int.add_assoc] at this

/-- Where the operands of an operation are registers. -/
inductive Opcode.Form where
  /-- Nowhere. -/
  | plain
  /-- Nowhere; it may jump. -/
  | branch
  /-- p2 is written. -/
  | load
  /-- p2 is read. -/
  | take
  /-- p1 is read; it may jump. -/
  | test
  /-- p1 is read and written; it may jump. -/
  | count
  /-- p3 is read; it may jump. -/
  | seek
  /-- p1 and p2 are read, p3 is written. -/
  | combine
  /-- p1 and p3 are read; p2 is written, or it may jump. -/
  | compare
  /-- p2 may be read. -/
  | tree
  /-- The operation has a form of its own. -/
  | other

@[reducible] def Opcode.form : Opcode → Form
  | .halt | .noop | .openEphemeral | .close | .delete | .clear | .sorterOpen | .fkCheck => .plain
  | .init | .goto | .rewind | .last | .next | .prev | .sorterSort | .sorterNext => .branch
  | .integer | .int64 | .real | .str8 | .str | .blob | .rowid | .newRowid | .sorterData | .createBtree => .load
  | .idxInsert | .idxDelete | .sorterInsert => .take
  | .ifTrue | .ifNot | .isNull | .notNull => .test
  | .ifPos | .decrJumpZero => .count
  | .notExists | .found | .notFound => .seek
  | .add | .subtract | .multiply | .divide | .and | .or => .combine
  | .eq | .ne | .lt | .le | .gt | .ge => .compare
  | .openRead | .openWrite => .tree
  | _ => .other

/-- After `r` and `r'` are written the registers of `ω` correspond. -/
structure Mates.Writes (ρ ω : Mates) (r r' : Int) : Prop where
  into : ω r r'
  rest : ∀ {q q'}, ω q q' → ρ q q' ∨ (q = r ∧ q' = r')

/-- Instructions that go on to the next one and differ in their registers only. Of these, `ρ` correspond before
and `ω` after; `κ` hold return addresses. -/
inductive Straight (κ : Mates) : Mates → Mates → Instruction → Instruction → Prop
  | plain (o : Opcode) {ρ p1 p2 p3 payload flags} (ho : o.form = .plain) :
    Straight κ ρ ρ ⟨o, p1, p2, p3, payload, flags⟩ ⟨o, p1, p2, p3, payload, flags⟩
  | load (o : Opcode) {ρ ω p1 r r' p3 payload flags} (ho : o.form = .load) (hr : ρ.Writes ω r r') :
    Straight κ ρ ω ⟨o, p1, r, p3, payload, flags⟩ ⟨o, p1, r', p3, payload, flags⟩
  | field {ρ ω p1 p2 r r' payload flags} (hr : ρ.Writes ω r r') :
    Straight κ ρ ω ⟨.column, p1, p2, r, payload, flags⟩ ⟨.column, p1, p2, r', payload, flags⟩
  | take (o : Opcode) {ρ p1 r r' p3 payload flags} (ho : o.form = .take) (hr : ρ r r') :
    Straight κ ρ ρ ⟨o, p1, r, p3, payload, flags⟩ ⟨o, p1, r', p3, payload, flags⟩
  | whole {ρ r r' p3 payload flags} (hr : ρ r r') :
    Straight κ ρ ρ ⟨.mustBeInt, r, 0, p3, payload, flags⟩ ⟨.mustBeInt, r', 0, p3, payload, flags⟩
  | final {ρ r r' p2 p3 payload flags} (hr : ρ r r') :
    Straight κ ρ ρ ⟨.aggFinal, r, p2, p3, payload, flags⟩ ⟨.aggFinal, r', p2, p3, payload, flags⟩
  | move {ρ ω q q' r r' p3 payload flags} (hq : ρ q q') (hr : ρ.Writes ω r r') :
    Straight κ ρ ω ⟨.shallowCopy, q, r, p3, payload, flags⟩ ⟨.shallowCopy, q', r', p3, payload, flags⟩
  | store {ρ p1 q q' r r' payload flags} (hq : ρ q q') (hr : ρ r r') :
    Straight κ ρ ρ ⟨.insert, p1, q, r, payload, flags⟩ ⟨.insert, p1, q', r', payload, flags⟩
  | combine (o : Opcode) {ρ ω p p' q q' r r' payload flags} (ho : o.form = .combine) (hp : ρ p p') (hq : ρ q q')
    (hr : ρ.Writes ω r r') : Straight κ ρ ω ⟨o, p, q, r, payload, flags⟩ ⟨o, p', q', r', payload, flags⟩
  | compare (o : Opcode) {ρ ω p p' q q' r r' payload flags} (ho : o.form = .compare) (hflags : flags &&& Flag.storeResult ≠ 0)
    (hp : ρ p p') (hq : ρ q q') (hr : ρ.Writes ω r r') :
    Straight κ ρ ω ⟨o, p, r, q, payload, flags⟩ ⟨o, p', r', q', payload, flags⟩
  | collect {ρ r r' q q' p3 payload flags} (hr : ρ r r') (hq : ρ q q') :
    Straight κ ρ ρ ⟨.rowSetAdd, r, q, p3, payload, flags⟩ ⟨.rowSetAdd, r', q', p3, payload, flags⟩
  | record {ρ ω q q' n r r' payload flags} (hq : ρ.Block q q' n.toNat) (hr : ρ.Writes ω r r') :
    Straight κ ρ ω ⟨.makeRecord, q, n, r, payload, flags⟩ ⟨.makeRecord, q', n, r', payload, flags⟩
  | row {ρ q q' n p3 payload flags} (hq : ρ.Block q q' n.toNat) :
    Straight κ ρ ρ ⟨.resultRow, q, n, p3, payload, flags⟩ ⟨.resultRow, q', n, p3, payload, flags⟩
  | feed {ρ p1 q q' r r' payload flags} (hq : ρ.Block q q' flags.toNat) (hr : ρ r r') :
    Straight κ ρ ρ ⟨.aggStep, p1, q, r, payload, flags⟩ ⟨.aggStep, p1, q', r', payload, flags⟩
  | copy {ρ q q' r r' n payload flags} (hq : ρ.Block q q' (n.toNat + 1)) (hr : ρ.Block r r' (n.toNat + 1)) :
    Straight κ ρ ρ ⟨.copy, q, r, n, payload, flags⟩ ⟨.copy, q', r', n, payload, flags⟩
  | null {ρ ω p1 r r' payload flags} (hr : ρ.Writes ω r r') :
    Straight κ ρ ω ⟨.null, p1, r, 0, payload, flags⟩ ⟨.null, p1, r', 0, payload, flags⟩
  | nulls (n : Nat) {ρ p1 r r' payload flags} (hr : ρ.Block r r' (n + 1)) :
    Straight κ ρ ρ ⟨.null, p1, r, r + n, payload, flags⟩ ⟨.null, p1, r', r' + n, payload, flags⟩
  | opened (o : Opcode) {ρ p1 p2 p3 payload flags} (ho : o.form = .tree) (hflags : flags &&& Flag.rootInRegister = 0) :
    Straight κ ρ ρ ⟨o, p1, p2, p3, payload, flags⟩ ⟨o, p1, p2, p3, payload, flags⟩
  | root (o : Opcode) {ρ p1 r r' p3 payload flags} (ho : o.form = .tree) (hflags : flags &&& Flag.rootInRegister ≠ 0)
    (hr : ρ r r') : Straight κ ρ ρ ⟨o, p1, r, p3, payload, flags⟩ ⟨o, p1, r', p3, payload, flags⟩
  | back {ρ r r' p2 p3 payload flags} (hr : κ r r') :
    Straight κ ρ ρ ⟨.ret, r, p2, p3, payload, flags⟩ ⟨.ret, r', p2, p3, payload, flags⟩

/-- Instructions that may jump and differ in their registers only. -/
inductive Branching (κ ρ : Mates) : Instruction → Instruction → Prop
  | plain (o : Opcode) {p1 p2 p3 payload flags} (ho : o.form = .branch) :
    Branching κ ρ ⟨o, p1, p2, p3, payload, flags⟩ ⟨o, p1, p2, p3, payload, flags⟩
  | test (o : Opcode) {r r' p2 p3 payload flags} (ho : o.form = .test) (hr : ρ r r') :
    Branching κ ρ ⟨o, r, p2, p3, payload, flags⟩ ⟨o, r', p2, p3, payload, flags⟩
  | count (o : Opcode) {r r' p2 p3 payload flags} (ho : o.form = .count) (hr : ρ r r') :
    Branching κ ρ ⟨o, r, p2, p3, payload, flags⟩ ⟨o, r', p2, p3, payload, flags⟩
  | seek (o : Opcode) {p1 p2 r r' payload flags} (ho : o.form = .seek) (hr : ρ r r') :
    Branching κ ρ ⟨o, p1, p2, r, payload, flags⟩ ⟨o, p1, p2, r', payload, flags⟩
  | compare (o : Opcode) {p p' p2 q q' payload flags} (ho : o.form = .compare) (hflags : flags &&& Flag.storeResult = 0)
    (hp : ρ p p') (hq : ρ q q') : Branching κ ρ ⟨o, p, p2, q, payload, flags⟩ ⟨o, p', p2, q', payload, flags⟩
  | draw {r r' p2 q q' payload flags} (hr : ρ r r') (hq : ρ q q') :
    Branching κ ρ ⟨.rowSetRead, r, p2, q, payload, flags⟩ ⟨.rowSetRead, r', p2, q', payload, flags⟩
  | call {r r' p2 p3 payload flags} (hr : κ r r') :
    Branching κ ρ ⟨.gosub, r, p2, p3, payload, flags⟩ ⟨.gosub, r', p2, p3, payload, flags⟩

/-- The registers that correspond by one of two relations. -/
def Mates.or (ρ σ : Mates) : Mates := fun r r' => ρ r r' ∨ σ r r'

theorem Mates.Bond.mono {ρ ω κ : Mates} (h : ρ.Bond κ) (hω : ∀ {r r'}, ω r r' → ρ r r') : ω.Bond κ where
  one hq hr := h.one (hq.imp_left hω) (hr.imp_left hω)
  pos hr := h.pos (hr.imp_left hω)
  apart hq hr := h.apart (hω hq) hr

theorem Mates.Writes.or {ρ ω : Mates} {r r' : Int} (h : ρ.Writes ω r r') (σ : Mates) : (ρ.or σ).Writes (ω.or σ) r r' :=
  ⟨.inl h.into, fun hq => hq.elim (fun hq => (h.rest hq).imp_left .inl) fun hq => .inl (.inr hq)⟩

theorem Mates.Block.mono {ρ ω : Mates} {r r' : Int} {count : Nat} (h : ρ.Block r r' count)
    (hρ : ∀ {q q'}, ρ q q' → ω q q') : ω.Block r r' count := fun k hk => hρ (h k hk)

/-- More registers may correspond. -/
theorem Straight.or {κ κ' ρ ω : Mates} {i i' : Instruction} (h : Straight κ ρ ω i i')
    (hκ : ∀ {r r'}, κ r r' → κ' r r') (σ : Mates) : Straight κ' (ρ.or σ) (ω.or σ) i i' := by
  cases h with
  | plain o ho => exact .plain o ho
  | load o ho hr => exact .load o ho (hr.or σ)
  | field hr => exact .field (hr.or σ)
  | take o ho hr => exact .take o ho (.inl hr)
  | whole hr => exact .whole (.inl hr)
  | final hr => exact .final (.inl hr)
  | move hq hr => exact .move (.inl hq) (hr.or σ)
  | store hq hr => exact .store (.inl hq) (.inl hr)
  | combine o ho hp hq hr => exact .combine o ho (.inl hp) (.inl hq) (hr.or σ)
  | compare o ho hflags hp hq hr => exact .compare o ho hflags (.inl hp) (.inl hq) (hr.or σ)
  | collect hr hq => exact .collect (.inl hr) (.inl hq)
  | record hq hr => exact .record (hq.mono .inl) (hr.or σ)
  | row hq => exact .row (hq.mono .inl)
  | feed hq hr => exact .feed (hq.mono .inl) (.inl hr)
  | copy hq hr => exact .copy (hq.mono .inl) (hr.mono .inl)
  | null hr => exact .null (hr.or σ)
  | nulls n hr => exact .nulls n (hr.mono .inl)
  | opened o ho hflags => exact .opened o ho hflags
  | root o ho hflags hr => exact .root o ho hflags (.inl hr)
  | back hr => exact .back (hκ hr)

theorem Branching.mono {κ κ' ρ ω : Mates} {i i' : Instruction} (h : Branching κ ρ i i')
    (hκ : ∀ {r r'}, κ r r' → κ' r r') (hρ : ∀ {r r'}, ρ r r' → ω r r') : Branching κ' ω i i' := by
  cases h with
  | plain o ho => exact .plain o ho
  | test o ho hr => exact .test o ho (hρ hr)
  | count o ho hr => exact .count o ho (hρ hr)
  | seek o ho hr => exact .seek o ho (hρ hr)
  | compare o ho hflags hp hq => exact .compare o ho hflags (hρ hp) (hρ hq)
  | draw hr hq => exact .draw (hρ hr) (hρ hq)
  | call hr => exact .call (hκ hr)

/-! ## Shapes -/

/-- Whether operand p1 is a cursor. -/
def Opcode.onCursor : Opcode → Bool
  | .openRead | .openWrite | .openEphemeral | .close | .rewind | .last | .next | .prev | .notExists | .found
  | .notFound | .column | .rowid | .newRowid | .insert | .delete | .idxInsert | .idxDelete | .sorterOpen
  | .sorterInsert | .sorterSort | .sorterData | .sorterNext | .fkCheck => true
  | _ => false

/-- What an instruction is, its registers aside. -/
structure Shape where
  opcode : Opcode
  jumpTarget? : Option Int
  cursor? : Option Int
  payload : Payload
  flags : UInt8
deriving DecidableEq, Repr

def Instruction.shape (i : Instruction) : Shape :=
  ⟨i.opcode, i.jumpTarget?, if i.opcode.onCursor then some i.p1 else none, i.payload, i.flags⟩

theorem Straight.shape_eq {κ ρ ω : Mates} {i i' : Instruction} (h : Straight κ ρ ω i i') : i'.shape = i.shape := by
  cases h with
  | plain | opened => rfl
  | load o ho | take o ho => cases o <;> first | rfl | cases ho
  | combine o ho => cases o <;> first | rfl | cases ho
  | root o ho => cases o <;> first | rfl | cases ho
  | compare o ho hflags =>
    simp only [Instruction.shape, Instruction.jumpTarget?, Instruction.has, bne_iff_ne.mpr hflags]
    cases o <;> first | rfl | cases ho
  | _ => rfl

theorem Branching.shape_eq {κ ρ : Mates} {i i' : Instruction} (h : Branching κ ρ i i') : i'.shape = i.shape := by
  cases h with
  | test o ho | count o ho | seek o ho | compare o ho => cases o <;> first | rfl | cases ho
  | _ => rfl

namespace Machine

/-! ## States that agree -/

/-- The state with the registers of another one. -/
def State.carrying (s x : State) : State :=
  { s with registers := x.registers, accumulators := x.accumulators, rowSets := x.rowSets }

namespace State

variable (s x : State) (pc : Nat) (o : Opcode) (c : Int)

@[simp] theorem carrying_store : (s.carrying x).store = s.store := rfl

@[simp] theorem carrying_cursors : (s.carrying x).cursors = s.cursors := rfl

@[simp] theorem carrying_cursor : (s.carrying x).cursor pc c = s.cursor pc c := rfl

@[simp] theorem carrying_tree : (s.carrying x).tree pc o c = s.tree pc o c := rfl

@[simp] theorem carrying_sorter : (s.carrying x).sorter pc o c = s.sorter pc o c := rfl

@[simp] theorem carrying_currentRow : (s.carrying x).currentRow pc c = s.currentRow pc c := rfl

@[simp] theorem carrying_currentRowid : (s.carrying x).currentRowid pc c = s.currentRowid pc c := rfl

end State

/-- The states agree, in their registers as far as these correspond, and `A` holds of the return addresses. -/
structure Agree (A : Value → Prop) (κ ρ : Mates) (s s' : State) : Prop where
  rest : s' = s.carrying s'
  get : ∀ {r r'}, ρ r r' ∨ κ r r' → s'.get r' = s.get r
  accumulators : ∀ {r r'}, ρ r r' ∨ κ r r' → s'.accumulators.get? r' = s.accumulators.get? r
  rowSets : ∀ {r r'}, ρ r r' ∨ κ r r' → s'.rowSets.get? r' = s.rowSets.get? r
  links : ∀ {r r'}, κ r r' → A (s.get r)

variable {A : Value → Prop} {J : Int → Prop} {κ ρ ω : Mates} {s t s' t' : State} {r r' q q' : Int} {v : Value}
  {pc : Nat} {i i' : Instruction} {env env' : Environment}

namespace Agree

theorem mono (h : Agree A κ ρ s s') (hω : ∀ {q q'}, ω q q' → ρ q q') : Agree A κ ω s s' :=
  ⟨h.rest, fun hr => h.get (hr.imp_left hω), fun hr => h.accumulators (hr.imp_left hω),
    fun hr => h.rowSets (hr.imp_left hω), h.links⟩

theorem start (κ ρ : Mates) (hA : A .null) (store : Store) : Agree A κ ρ (.start store) (.start store) := by
  have hget : ∀ r, (State.start store).get r = .null := by simp [State.start, State.get, Registers.empty, Registers.get]
  exact ⟨rfl, fun _ => by rw [hget, hget], fun _ => rfl, fun _ => rfl, fun _ => hget _ ▸ hA⟩

theorem store (h : Agree A κ ρ s s') : s'.store = s.store := by rw [h.rest]; rfl

theorem rows (h : Agree A κ ρ s s') : s'.rows = s.rows := by rw [h.rest]; rfl

/-- Whatever else changes, the registers agree as before. -/
theorem change (h : Agree A κ ρ s s') (store : Store) (cursors : Slots Cursor) (rows : Array (List Value)) :
    Agree A κ ρ { s with store, cursors, rows } { s' with store, cursors, rows } :=
  ⟨rfl, h.get, h.accumulators, h.rowSets, h.links⟩

/-- A register and its partner are written. -/
theorem set (h : Agree A κ ρ s s') (hω : ω.Bond κ) (hr : ω r r' ∨ κ r r')
    (hrest : ∀ {q q'}, ω q q' → ρ q q' ∨ (q = r ∧ q' = r')) (hlinks : ∀ {q q'}, κ q q' → q = r → A v) :
    Agree A κ ω (s.set r v) (s'.set r' v) := by
  have hcases : ∀ {q q'}, ω q q' ∨ κ q q' → (q = r ∧ q' = r') ∨ (q ≠ r ∧ q' ≠ r' ∧ (ρ q q' ∨ κ q q')) := by
    intro q q' hq
    by_cases heq : q = r
    · exact .inl ⟨heq, (hω.one hq hr).mp heq⟩
    · exact .inr ⟨heq, fun h => heq ((hω.one hq hr).mpr h), hq.imp_left fun hq => (hrest hq).resolve_right fun h => heq h.1⟩
  have hslots : ∀ {α : Type} {x x' : Slots α}, (∀ {q q'}, ρ q q' ∨ κ q q' → x'.get? q' = x.get? q) →
      ∀ {q q'}, ω q q' ∨ κ q q' → (x'.erase r').get? q' = (x.erase r).get? q := by
    intro α x x' hx q q' hq
    rcases hcases hq with ⟨rfl, rfl⟩ | ⟨hne, hne', hρ⟩
    · rw [Slots.get?_erase_self, Slots.get?_erase_self]
    · rw [Slots.get?_erase_of_ne _ hne', Slots.get?_erase_of_ne _ hne, hx hρ]
  refine ⟨?_, fun {q q'} hq => ?_, hslots h.accumulators, hslots h.rowSets, fun {q q'} hq => ?_⟩
  · conv_lhs => rw [h.rest]
    rfl
  · rcases hcases hq with ⟨rfl, rfl⟩ | ⟨hne, hne', hρ⟩
    · rw [State.get_set_self, State.get_set_self]
    · rw [State.get_set_of_ne _ _ (hω.pos hq).1 hne, State.get_set_of_ne _ _ (hω.pos hq).2 hne', h.get hρ]
  · by_cases heq : q = r
    · rw [heq, State.get_set_self]
      exact hlinks hq heq
    · rw [State.get_set_of_ne _ _ (hω.pos (.inr hq)).1 heq]
      exact h.links hq

theorem write (h : Agree A κ ρ s s') (hω : ω.Bond κ) (hr : ρ.Writes ω r r') (v : Value) :
    Agree A κ ω (s.set r v) (s'.set r' v) :=
  h.set hω (.inl hr.into) hr.rest fun hq heq => absurd heq.symm (hω.apart hr.into hq)

theorem rewrite (h : Agree A κ ρ s s') (hρ : ρ.Bond κ) (hr : ρ r r') (v : Value) :
    Agree A κ ρ (s.set r v) (s'.set r' v) :=
  h.write hρ ⟨hr, .inl⟩ v

theorem getBlock (h : Agree A κ ρ s s') (count : Int) (hr : ρ.Block r r' count.toNat) :
    s'.getBlock r' count = s.getBlock r count :=
  List.map_congr_left fun k hk => h.get (.inl (hr k (List.mem_range.mp hk)))

theorem setNulls (hρ : ρ.Bond κ) {count : Nat} : ∀ {r r' s s'}, Agree A κ ρ s s' → ρ.Block r r' count →
    Agree A κ ρ (setNulls r count s) (Machine.setNulls r' count s') := by
  induction count with
  | zero => exact fun h _ => h
  | succ count ih =>
    intro r r' s s' h hr
    exact ih (h.rewrite hρ hr.head .null) hr.tail

theorem copyBlock (hρ : ρ.Bond κ) {count : Nat} : ∀ {q q' r r' s s'}, Agree A κ ρ s s' → ρ.Block q q' count →
    ρ.Block r r' count → Agree A κ ρ (copyBlock q r count s) (Machine.copyBlock q' r' count s') := by
  induction count with
  | zero => exact fun h _ _ => h
  | succ count ih =>
    intro q q' r r' s s' h hq hr
    refine ih ?_ hq.tail hr.tail
    rw [h.get (.inl hq.head)]
    exact h.rewrite hρ hr.head _

end Agree

/-! ## Effects -/

/-- Two instructions fail alike or go the same way, and leave states as asked; they jump to where `J` says. -/
def Same (J : Int → Prop) (next jump : State → State → Prop) : Effect → Effect → Prop
  | .error f, .error f' => f = f'
  | .ok (.next, s), .ok (.next, s') => next s s'
  | .ok (.halt, s), .ok (.halt, s') => next s s'
  | .ok (.jump t, s), .ok (.jump t', s') => t = t' ∧ J t ∧ jump s s'
  | _, _ => False

theorem Same.jumpIf {next jump : State → State → Prop} {condition : Bool} {target : Int} (hJ : J target)
    (hnext : next s s') (hjump : jump s s') :
    Same J next jump (.ok (jumpIf condition target s)) (.ok (Machine.jumpIf condition target s')) := by
  cases condition
  · exact hnext
  · exact ⟨rfl, hJ, hjump⟩

theorem Agree.setPosition (h : Agree A κ ρ s s') (c : Int) (position : Option Position) :
    Agree A κ ρ (s.setPosition c position) (s'.setPosition c position) := by
  obtain ⟨x, rfl⟩ : ∃ x, s' = s.carrying x := ⟨s', h.rest⟩
  simp only [State.setPosition, State.carrying_cursors]
  split
  · exact h.change ..
  · exact h

theorem Agree.setTree (h : Agree A κ ρ s s') (c : Int) (tree : Tree) :
    Agree A κ ρ (s.setTree c tree) (s'.setTree c tree) := by
  obtain ⟨x, rfl⟩ : ∃ x, s' = s.carrying x := ⟨s', h.rest⟩
  simp only [State.setTree, State.carrying_cursors]
  split
  · exact h.change ..
  · exact h.change ..
  · exact h

theorem Agree.getFields (h : Agree A κ ρ s s') (hr : ρ r r') (o : Opcode) :
    s'.getFields pc o r' = s.getFields pc o r := by
  simp only [State.getFields, State.getRecord, h.get (.inl hr)]

/-- **Two instructions that differ in their registers do the same**, where these correspond. -/
theorem Straight.same (hi : Straight κ ρ ω i i') (h : Agree A κ ρ s s') (hρ : ρ.Bond κ) (hω : ω.Bond κ)
    (hA : ∀ v, A v → J v.toInt64.toInt) (hschema : env'.schema = env.schema)
    (hkeys : env'.foreignKeys = env.foreignKeys) :
    Same J (Agree A κ ω) (Agree A κ ρ) (execute env pc i s) (execute env' pc i' s') := by
  obtain ⟨x, rfl⟩ : ∃ x, s' = s.carrying x := ⟨s', h.rest⟩
  cases hi with
  | plain o ho =>
    cases o <;> try (cases ho; done)
    all_goals simp only [execute, hschema, hkeys]
    case halt | noop => exact h
    case openEphemeral | close | sorterOpen => exact h.change ..
    case delete =>
      simp only [deleteRow, State.carrying_cursor, State.carrying_tree]
      repeat' split
      all_goals first | rfl | exact h.setTree ..
    case clear =>
      simp only [clearTree, State.carrying_store]
      split
      · exact h.change ..
      · rfl
    case fkCheck =>
      simp only [foreignKeyCheck, State.carrying_currentRowid, State.carrying_store]
      repeat' split
      all_goals first | rfl | exact h
  | load o ho hr =>
    cases o <;> try (cases ho; done)
    all_goals simp only [execute]
    case integer => exact h.write hω hr _
    case int64 | real | str8 | str | blob =>
      simp only [loadConstant]
      split
      all_goals first | rfl | exact h.write hω hr _
    case rowid =>
      simp only [readRowid, State.carrying_currentRowid]
      split
      · rfl
      · exact h.write hω hr _
    case newRowid =>
      simp only [newRowid, State.carrying_tree]
      split
      · rfl
      · exact h.write hω hr _
    case sorterData =>
      simp only [sorterData, State.carrying_sorter]
      repeat' split
      all_goals first | rfl | exact h.write hω hr _
    case createBtree => exact (h.change ..).write hω hr _
  | field hr =>
    simp only [execute, readField, State.carrying_currentRow]
    split
    · rfl
    · exact h.write hω hr _
  | take o ho hr =>
    cases o <;> try (cases ho; done)
    all_goals simp only [execute]
    case idxInsert | idxDelete =>
      simp only [changeKeys, h.getFields hr, State.carrying_tree]
      repeat' split
      all_goals first | rfl | exact h.setTree ..
    case sorterInsert =>
      simp only [sorterInsert, State.getRecord, h.get (.inl hr), State.carrying_sorter]
      repeat' split
      all_goals first | rfl | exact h.change ..
  | whole hr =>
    simp only [execute, mustBeInt, h.get (.inl hr)]
    split
    · exact h
    · exact h.rewrite hω hr _
    · rfl
  | final hr =>
    simp only [execute, aggFinal, accumulatorOf, h.accumulators (.inl hr)]
    repeat' split
    all_goals first | rfl | exact h.rewrite hω hr _
  | move hq hr =>
    simp only [execute, h.get (.inl hq)]
    exact h.write hω hr _
  | store hq hr =>
    simp only [execute, insertRow, State.getRecord, h.get (.inl hq), h.get (.inl hr), State.carrying_tree]
    repeat' split
    all_goals first | rfl | exact (h.setTree ..).setPosition ..
  | combine o ho hp hq hr =>
    cases o <;> try (cases ho; done)
    all_goals simp only [execute, arithmetic, logic, h.get (.inl hp), h.get (.inl hq)]
    all_goals exact h.write hω hr _
  | compare o ho hflags hp hq hr =>
    cases o <;> try (cases ho; done)
    all_goals simp only [execute, compareRegisters, Instruction.has, bne_iff_ne.mpr hflags, if_true, h.get (.inl hp),
      h.get (.inl hq)]
    all_goals exact h.write hω hr _
  | collect hr hq =>
    simp only [execute, rowSetAdd, h.get (.inl hq), h.rowSets (.inl hr)]
    exact { h with rest := rfl, rowSets := hρ.get?_set hr h.rowSets _ }
  | record hq hr =>
    simp only [execute, makeRecord, h.getBlock _ hq]
    split
    · rfl
    · exact h.write hω hr _
  | row hq =>
    simp only [execute, resultRow, h.getBlock _ hq]
    exact h.change ..
  | feed hq hr =>
    simp only [execute, aggStep, accumulatorOf, h.accumulators (.inl hr), h.getBlock (UInt8.toNat _) hq]
    repeat' split
    all_goals first | rfl | exact { h with rest := rfl, accumulators := hρ.get?_set hr h.accumulators _ }
  | copy hq hr => exact h.copyBlock hρ hq hr
  | null hr =>
    have hpos := hω.pos (.inl hr.into)
    simp only [execute]
    rw [show (max 0 _ - _ + 1 : Int).toNat = 1 by omega, show (max 0 _ - _ + 1 : Int).toNat = 1 by omega]
    exact h.write hω hr _
  | nulls n hr =>
    have hcount : ∀ r : Int, (max (r + n) r - r + 1).toNat = n + 1 := fun r => by omega
    simp only [execute, hcount]
    exact h.setNulls hρ hr
  | opened o ho hflags =>
    cases o <;> try (cases ho; done)
    all_goals simp only [execute, openTree, rootOf, Instruction.has, hflags, bne_self_eq_false, Bool.false_eq_true,
      if_false, State.carrying_store]
    all_goals
      split
      · exact h.change ..
      · rfl
  | root o ho hflags hr =>
    cases o <;> try (cases ho; done)
    all_goals simp only [execute, openTree, rootOf, Instruction.has, bne_iff_ne.mpr hflags, if_true, h.get (.inl hr),
      State.carrying_store]
    all_goals
      repeat' split
      all_goals first | rfl | exact h.change ..
  | back hr =>
    simp only [execute, leave, h.get (.inr hr)]
    exact ⟨rfl, hA _ (h.links hr), h⟩

theorem Branching.same (hi : Branching κ ρ i i') (h : Agree A κ ρ s s') (hρ : ρ.Bond κ) (hJ : J i.p2)
    (hA : i.opcode = .gosub → A (returnAddress pc)) :
    Same J (Agree A κ ρ) (Agree A κ ρ) (execute env pc i s) (execute env' pc i' s') := by
  obtain ⟨x, rfl⟩ : ∃ x, s' = s.carrying x := ⟨s', h.rest⟩
  cases hi with
  | plain o ho =>
    cases o <;> try (cases ho; done)
    all_goals simp only [execute]
    case init | goto => exact ⟨rfl, hJ, h⟩
    case rewind | last =>
      simp only [moveToEnd, State.carrying_tree]
      split
      · rfl
      · exact .jumpIf hJ (h.setPosition ..) (h.setPosition ..)
    case next | prev =>
      simp only [moveOn, State.carrying_tree, State.carrying_cursor]
      repeat' split
      all_goals first | rfl | exact .jumpIf hJ (h.setPosition ..) (h.setPosition ..)
    case sorterSort | sorterNext =>
      simp only [sorterSort, sorterNext, State.carrying_sorter]
      split
      · rfl
      · exact .jumpIf hJ (h.change ..) (h.change ..)
  | test o ho hr =>
    cases o <;> try (cases ho; done)
    all_goals simp only [execute, jumpOnTruth, h.get (.inl hr)]
    all_goals exact .jumpIf hJ h h
  | count o ho hr =>
    have hset := fun v => h.rewrite (v := v) hρ hr
    cases o <;> try (cases ho; done)
    all_goals simp only [execute, ifPos, decrJumpZero, h.get (.inl hr)]
    case ifPos =>
      split
      · exact ⟨rfl, hJ, hset _⟩
      · exact h
    case decrJumpZero => exact .jumpIf hJ (hset _) (hset _)
  | seek o ho hr =>
    cases o <;> try (cases ho; done)
    all_goals simp only [execute, notExists, probe, h.get (.inl hr), h.getFields hr, State.carrying_tree]
    case notExists =>
      repeat' split
      all_goals first | rfl | exact h.setPosition .. | exact ⟨rfl, hJ, h⟩
    case found | notFound =>
      repeat' split
      all_goals first | rfl | exact .jumpIf hJ h h
  | compare o ho hflags hp hq =>
    cases o <;> try (cases ho; done)
    all_goals simp only [execute, compareRegisters, Instruction.has, hflags, bne_self_eq_false, Bool.false_eq_true,
      if_false, h.get (.inl hp), h.get (.inl hq)]
    all_goals exact .jumpIf hJ h h
  | draw hr hq =>
    simp only [execute, rowSetRead, h.rowSets (.inl hr)]
    split
    · refine Agree.rewrite ?_ hρ hq _
      exact { h with rest := rfl, rowSets := hρ.get?_set hr h.rowSets _ }
    · exact ⟨rfl, hJ, h⟩
  | call hr => exact ⟨rfl, hJ, h.set hρ (.inr hr) .inl fun _ _ => hA rfl⟩

end Machine

end QueryMachine
