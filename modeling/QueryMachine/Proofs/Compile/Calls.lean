import QueryMachine.Proofs.Outline.Expression

/-!
# Aggregate calls and bare columns

The calls of a query work in registers that are handed out in one stretch. What a group computes reads
its keys, its calls and its bare columns, all of which are bound to registers, and no cursor.

* `Grouping.Laid`, `Grouping.allocate_spec` — the registers of the calls.
* `Grouping.needs_of_outputs` — the outputs of a group read nothing that is not bound.
* `Plan.HavingBound` — nor does HAVING, taken conjunct by conjunct, unless a conjunction in it is a key.
-/

namespace QueryMachine

open Machine Emit

variable {b b' : Builder}

/-! ## Names of functions -/

theorem Accumulator.startNamed?_name (func : Aggregate) : startNamed? func.name = some (start func) := by
  cases func <;> decide

/-! ## Registers of calls -/

/-- The registers in which a call works. -/
def Call.Owns (c : Call) (r : Int) : Prop :=
  r = c.accumulator ∨ c.argBase ≤ r ∧ r < c.argBase + c.args.length

namespace Grouping

variable {count : Nat} {bare keys : List Resolved} {w : Walk}

/-- The calls work in the registers from `low` on and below `high`: first the arguments of a call, then
its accumulator, then the next call. -/
def Laid : List Call → (low high : Int) → Prop
  | [], low, high => low = high
  | c :: calls, low, high =>
    c.argBase = low ∧ c.accumulator = low + c.args.length ∧ Laid calls (c.accumulator + 1) high

variable {calls : List Call} {c : Call} {p : Plan} {e : Resolved} {bindings : Bindings} {q : Place}

theorem Laid.le {low high : Int} (h : Laid calls low high) : low ≤ high := by
  induction calls generalizing low with
  | nil => exact Int.le_of_eq h
  | cons c calls ih =>
    obtain ⟨-, hacc, hrest⟩ := h
    have := ih hrest
    omega

theorem Laid.range {low high : Int} (h : Laid calls low high) (hc : c ∈ calls) {r : Int} (hr : c.Owns r) :
    low ≤ r ∧ r < high := by
  induction calls generalizing low with
  | nil => cases hc
  | cons first calls ih =>
    obtain ⟨hbase, hacc, hrest⟩ := h
    have hle := hrest.le
    rcases List.mem_cons.mp hc with rfl | hc
    · rcases hr with rfl | hr <;> omega
    · have := ih hrest hc
      omega

/-- Handing out the registers of calls does nothing else. -/
theorem allocate_spec {found : List (Aggregate × List Resolved)} : (allocate found).Gives b calls b' → b.Valid →
    b.Takes (fun r => b.pool.next ≤ r ∧ r < b'.pool.next) b' ∧ Laid calls b.pool.next b'.pool.next := by
  induction found generalizing b calls with
  | nil =>
    intro h hb
    obtain ⟨rfl, rfl⟩ := gives_pure.mp h
    exact ⟨(Builder.Takes.refl hb).congr fun r => ⟨False.elim, fun h => by omega⟩, rfl⟩
  | cons call found ih =>
    intro h hb
    obtain ⟨func, args⟩ := call
    simp only [allocate, gives_bind, gives_pure] at h
    obtain ⟨argBase, b1, hargs, accumulator, b2, hacc, rest, b3, hrest, rfl, rfl⟩ := h
    have htakes := takes_registers hargs hb
    have hbase := registers_eq_next hargs
    have hnext := next_of_registers hargs (Int.natCast_nonneg _)
    have htakes' := takes_register hacc htakes.grows.valid
    have hacc' := register_eq_next hacc
    have hnext' := next_of_register hacc
    obtain ⟨hmore, hlaid⟩ := ih hrest htakes'.grows.valid
    have hle := hlaid.le
    refine ⟨((htakes.trans htakes').trans hmore).congr fun r => ?_, hbase, ?_, ?_⟩
    · omega
    · show accumulator = b.pool.next + args.length
      omega
    · show Laid rest (accumulator + 1) b'.pool.next
      rwa [← hnext']

theorem argCount_gives (h : (argCount c).Gives b count b') : count = c.args.length ∧ c.args.length < 256 ∧ b' = b := by
  unfold argCount at h
  split at h
  · rename_i hlt
    obtain ⟨rfl, rfl⟩ := gives_pure.mp h
    exact ⟨rfl, hlt, rfl⟩
  · exact (gives_throw h).elim

/-- What an accumulator's register starts with. -/
def initial : Aggregate → Value
  | .count => .int 0
  | .groupConcat => .text ""
  | _ => .null

/-- Resetting the first call is one instruction. -/
theorem emitReset_gives (h : (emitReset (c :: calls)).Gives b () b') (hpos : 0 < c.accumulator) :
    ∃ i, (emitReset calls).Gives (b.emit i) () b' ∧ ∀ s, Stores i s c.accumulator (initial c.func) := by
  unfold emitReset at h
  have hnull : ∀ s, Stores (.plain .null 0 c.accumulator 0) s c.accumulator .null := by
    refine fun s => ⟨rfl, fun env pc => ?_⟩
    simp only [execute, Instruction.plain, setNulls_one (Int.le_of_lt hpos)]
  cases hfunc : c.func with
  | count =>
    simp only [hfunc, gives_bind, gives_op] at h
    obtain ⟨_, b1, rfl, hrest⟩ := h
    exact ⟨_, hrest, fun s => ⟨rfl, fun env pc => rfl⟩⟩
  | groupConcat =>
    simp only [hfunc, gives_bind, gives_opWith] at h
    obtain ⟨_, b1, rfl, hrest⟩ := h
    exact ⟨_, hrest, fun s => ⟨rfl, fun env pc => rfl⟩⟩
  | sum | avg | min | max =>
    simp only [hfunc, gives_bind, gives_op] at h
    obtain ⟨_, b1, rfl, hrest⟩ := h
    exact ⟨_, hrest, hnull⟩

theorem emitReset_pool : (emitReset calls).Gives b () b' → b'.pool = b.pool := by
  induction calls generalizing b with
  | nil =>
    intro h
    rw [(gives_pure.mp h).2]
  | cons c calls ih =>
    intro h
    unfold emitReset at h
    cases hfunc : c.func <;> simp only [hfunc, gives_bind, gives_op, gives_opWith] at h <;>
      obtain ⟨_, b1, rfl, hrest⟩ := h <;> exact (ih hrest :)

theorem emitNulls_pool {first : Int} (h : (emitNulls first count).Gives b () b') : b'.pool = b.pool := by
  unfold emitNulls at h
  split at h
  · rw [(gives_pure.mp h).2]
  · rw [gives_op.mp h]
    rfl

/-! ## Registers of the walk -/

/-- The registers of a walk stand one after the other, from `low` on. -/
structure Walk.Laid (w : Walk) (keys bare : Nat) (low : Int) : Prop where
  first : w.first = low
  previous : w.previous = w.first + 1
  current : w.current = w.previous + keys
  currentBare : w.currentBare = w.current + keys
  groupBare : w.groupBare = w.currentBare + bare
  returnRegister : w.returnRegister = w.groupBare + bare

/-- How the registers of a walk are handed out. -/
theorem prepareWalk_gives (h : (prepareWalk p calls bare).Gives b w b') :
    ∃ b1 b2 b3 b4 b5 b6 b7 b8, (emitReset calls).Gives b () b1 ∧ register.Gives b1 w.first b2 ∧
      (registers p.groupBy.length).Gives (b2.emit (.plain .integer 1 w.first 0)) w.previous b3 ∧
      (emitNulls w.previous p.groupBy.length).Gives b3 () b4 ∧ (registers p.groupBy.length).Gives b4 w.current b5 ∧
      (registers bare.length).Gives b5 w.currentBare b6 ∧ (registers bare.length).Gives b6 w.groupBare b7 ∧
      (emitNulls w.groupBare bare.length).Gives b7 () b8 ∧ register.Gives b8 w.returnRegister b' := by
  simp only [prepareWalk, gives_bind, gives_op, gives_pure] at h
  obtain ⟨_, b1, hreset, first, b2, hfirst, _, b2', rfl, previous, b3, hprevious, h⟩ := h
  obtain ⟨_, b4, hnulls, current, b5, hcurrent, currentBare, b6, hcurrentBare, h⟩ := h
  obtain ⟨groupBare, b7, hgroupBare, _, b8, hnulls', ret, b9, hret, rfl, rfl⟩ := h
  exact ⟨b1, b2, b3, b4, b5, b6, b7, b8, hreset, hfirst, hprevious, hnulls, hcurrent, hcurrentBare,
    hgroupBare, hnulls', hret⟩

theorem prepareWalk_spec (h : (prepareWalk p calls bare).Gives b w b') (hb : b.Valid) :
    w.Laid p.groupBy.length bare.length b.pool.next ∧ ∀ r, w.first ≤ r → r ≤ w.returnRegister → b'.Holds r := by
  obtain ⟨b1, b2, b3, b4, b5, b6, b7, b8, hreset, hfirst, hprevious, hnulls, h⟩ := prepareWalk_gives h
  obtain ⟨hcurrent, hcurrentBare, hgroupBare, hnulls', hret⟩ := h
  have hpool1 := emitReset_pool hreset
  have hpool4 := emitNulls_pool hnulls
  have hpool8 := emitNulls_pool hnulls'
  have h2 := takes_register hfirst (show b1.pool.Valid from hpool1 ▸ hb)
  have h3 := takes_registers hprevious h2.grows.valid
  have h5 := takes_registers hcurrent (show b4.pool.Valid from hpool4 ▸ h3.grows.valid)
  have h6 := takes_registers hcurrentBare h5.grows.valid
  have h7 := takes_registers hgroupBare h6.grows.valid
  have h9 := takes_register hret (show b8.pool.Valid from hpool8 ▸ h7.grows.valid)
  have h79 : ∀ r, b7.Holds r → b'.Holds r := fun r hr => h9.grows.holds r (show b8.pool.Holds r from hpool8 ▸ hr)
  have h57 := h6.grows.trans h7.grows
  have h39 : ∀ r, b3.Holds r → b'.Holds r := fun r hr =>
    h79 r ((h5.grows.trans h57).holds r (show b4.pool.Holds r from hpool4 ▸ hr))
  have hlaid : w.Laid p.groupBy.length bare.length b.pool.next := by
    have e1 := register_eq_next hfirst
    have n1 := next_of_register hfirst
    have e2 := registers_eq_next hprevious
    change w.previous = b2.pool.next at e2
    have n2 := next_of_registers hprevious (Int.natCast_nonneg _)
    have e3 := registers_eq_next hcurrent
    have n3 := next_of_registers hcurrent (Int.natCast_nonneg _)
    have e4 := registers_eq_next hcurrentBare
    have n4 := next_of_registers hcurrentBare (Int.natCast_nonneg _)
    have e5 := registers_eq_next hgroupBare
    have n5 := next_of_registers hgroupBare (Int.natCast_nonneg _)
    have e6 := register_eq_next hret
    rw [hpool1] at e1
    rw [hpool4] at e3
    rw [hpool8] at e6
    constructor <;> omega
  refine ⟨hlaid, fun r hle hlt => ?_⟩
  obtain ⟨-, e2, e3, e4, e5, e6⟩ := hlaid
  by_cases c1 : r < w.previous
  · exact h39 r (h3.grows.holds r (h2.held (show r = w.first by omega)))
  by_cases c2 : r < w.current
  · exact h39 r (h3.held ⟨by omega, by omega⟩)
  by_cases c3 : r < w.currentBare
  · exact h79 r (h57.holds r (h5.held ⟨by omega, by omega⟩))
  by_cases c4 : r < w.groupBare
  · exact h79 r (h7.grows.holds r (h6.held ⟨by omega, by omega⟩))
  by_cases c5 : r < w.returnRegister
  · exact h79 r (h7.held ⟨by omega, by omega⟩)
  · exact h9.held (show r = w.returnRegister by omega)

/-! ## What a group reads -/

theorem mem_bindFrom {es : List Resolved} (h : e ∈ es) (base : Int) : ∃ r, (e, r) ∈ bindFrom es base := by
  obtain ⟨i, hi, rfl⟩ := List.mem_iff_getElem.mp h
  refine ⟨base + i, List.mem_map.mpr ⟨(es[i], i), ?_, rfl⟩⟩
  exact List.mk_mem_zipIdx_iff_getElem?.mpr (List.getElem?_eq_getElem hi)

theorem addBare_mono (keys : List Resolved) : ∀ (e : Resolved) (found : List Resolved),
    ∀ x ∈ found, x ∈ addBare keys e found
  | .ref p, found, x, hx => by
    unfold addBare
    split
    · exact hx
    · dsimp only
      split
      · exact hx
      · exact List.mem_append_left _ hx
  | .lit v, found, x, hx => by
    unfold addBare
    split <;> exact hx
  | .binary operator left right, found, x, hx => by
    unfold addBare
    split
    · exact hx
    · exact addBare_mono keys right _ x (addBare_mono keys left _ x hx)
  | .aggregate func args, found, x, hx => by
    unfold addBare
    split <;> exact hx

theorem not_bound_of_needs : ∀ {e : Resolved}, q ∈ e.needs bindings → bindings.register? (.ref q) = none
  | .ref p, h => by
    unfold Expr.needs at h
    split at h
    · cases h
    · rename_i hnone
      rw [List.mem_singleton.mp h]
      simpa using hnone
  | .lit _, h => by
    unfold Expr.needs at h
    split at h <;> cases h
  | .aggregate _ _, h => by
    unfold Expr.needs at h
    split at h <;> cases h
  | .binary _ left right, h => by
    unfold Expr.needs at h
    split at h
    · cases h
    · rcases List.mem_append.mp h with h | h
      · exact not_bound_of_needs h
      · exact not_bound_of_needs h

theorem keys_any_eq_false (hkeys : ∀ x ∈ keys, ∃ r, (x, r) ∈ bindings)
    (hnone : (bindings.register? e).isSome = false) : keys.any (·.same e) = false := by
  rw [Bool.eq_false_iff]
  intro hany
  obtain ⟨x, hx, hsame⟩ := List.any_eq_true.mp hany
  obtain ⟨r, hr⟩ := hkeys x hx
  rw [register?_isSome hr hsame] at hnone
  cases hnone

/-- What an expression reads, apart from its keys, is among the bare columns. -/
theorem mem_addBare_of_needs (hkeys : ∀ x ∈ keys, ∃ r, (x, r) ∈ bindings) :
    ∀ (e : Resolved) (found : List Resolved), q ∈ e.needs bindings → .ref q ∈ addBare keys e found
  | .ref p, found, h => by
    unfold Expr.needs at h
    split at h
    · cases h
    · rename_i hnone
      rw [List.mem_singleton.mp h]
      unfold addBare
      rw [keys_any_eq_false hkeys (by simpa using hnone)]
      simp only [Bool.false_eq_true, if_false]
      split
      · rename_i hany
        obtain ⟨x, hx, hsame⟩ := List.any_eq_true.mp hany
        cases x <;> simp_all [Expr.same]
      · exact List.mem_append_right _ (List.mem_singleton_self _)
  | .lit v, found, h => by
    unfold Expr.needs at h
    split at h <;> cases h
  | .binary operator left right, found, h => by
    unfold Expr.needs at h
    split at h
    · cases h
    · rename_i hnone
      unfold addBare
      rw [keys_any_eq_false hkeys (by simpa using hnone)]
      simp only [Bool.false_eq_true, if_false]
      rcases List.mem_append.mp h with h | h
      · exact addBare_mono keys right _ _ (mem_addBare_of_needs hkeys left found h)
      · exact mem_addBare_of_needs hkeys right _ h
  | .aggregate func args, found, h => by
    unfold Expr.needs at h
    split at h <;> cases h

theorem mem_bareColumns_of_addBare (he : e ∈ outputs p) (h : ∀ found, .ref q ∈ addBare p.groupBy e found) :
    .ref q ∈ bareColumns p := by
  have hfold : ∀ (es : List Resolved) (found : List Resolved), e ∈ es ∨ .ref q ∈ found →
      .ref q ∈ es.foldl (fun found e => addBare p.groupBy e found) found := by
    intro es
    induction es with
    | nil =>
      rintro found (he | hq)
      · cases he
      · exact hq
    | cons first es ih =>
      rintro found (he | hq)
      · rcases List.mem_cons.mp he with rfl | he
        · exact ih _ (.inr (h found))
        · exact ih _ (.inl he)
      · exact ih _ (.inr (addBare_mono p.groupBy first found _ hq))
  exact hfold (outputs p) [] (.inl he)

/-- Keys and bare columns of a plan are bound. -/
structure Binds (p : Plan) (bindings : Bindings) : Prop where
  keys : ∀ x ∈ p.groupBy, ∃ r, (x, r) ∈ bindings
  bare : ∀ x ∈ bareColumns p, ∃ r, (x, r) ∈ bindings

theorem Binds.not_needed (h : Binds p bindings) (hq : .ref q ∈ bareColumns p) : q ∉ e.needs bindings := by
  intro hneeds
  obtain ⟨r, hr⟩ := h.bare _ hq
  have hsome := register?_isSome hr (show Expr.same (.ref q) (.ref q) = true from beq_self_eq_true q)
  rw [not_bound_of_needs hneeds] at hsome
  cases hsome

/-- **The outputs of a group read no cursor.** -/
theorem needs_of_outputs (h : Binds p bindings) (he : e ∈ outputs p) : e.needs bindings = [] := by
  rw [List.eq_nil_iff_forall_not_mem]
  intro q hq
  refine h.not_needed ?_ hq
  exact mem_bareColumns_of_addBare he fun found => mem_addBare_of_needs h.keys e found hq

end Grouping

/-- Each conjunct of HAVING reads keys, aggregates and bare columns only. This fails where HAVING is
tested through the two sides of a conjunction that as a whole is a key. -/
def Plan.HavingBound (p : Plan) : Prop :=
  ∀ e, p.having = some e → ∀ c ∈ e.conjuncts, ∀ x ∈ Grouping.addBare p.groupBy c [],
    x ∈ Grouping.bareColumns p

theorem Grouping.needs_of_having {p : Plan} {bindings : Bindings} (h : Binds p bindings) (hbound : p.HavingBound)
    {e c : Resolved} (he : p.having = some e) (hc : c ∈ e.conjuncts) : c.needs bindings = [] := by
  rw [List.eq_nil_iff_forall_not_mem]
  intro q hq
  exact h.not_needed (hbound e he c hc _ (mem_addBare_of_needs h.keys c [] hq)) hq

end QueryMachine
