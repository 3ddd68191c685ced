import QueryMachine.Proofs.Machine.Frame
import QueryMachine.Proofs.Machine.Path
import QueryMachine.Proofs.Program.Steps

/-!
# Emitted code at work

A `Setting` is a run of a finished program: the builder it was finished from, the environment it
runs in, the faults that may end it, and what may be done to rows on the way. Code that a builder wrote
at some stage is found in the program at the address it was written to, and a label leads where it was
bound.

* `Setting.Leads` — where the run comes to.
* `Setting.Lenient` — faults may end the run, but perhaps not those of foreign keys.
* `Setting.Leads.op`, `Setting.Leads.taken`, `Setting.Leads.passed` — one emitted instruction.
* `Setting.Performs` — where the run comes to, and what it does to rows on the way.
-/

namespace QueryMachine

open Machine Emit

/-- Whether a foreign key stood against a deletion. -/
def Fault.isViolation : Fault → Bool
  | .foreignKeyViolation .. => true
  | _ => false

/-- Whether the operation stores or deletes a row. -/
def Opcode.changesRows : Opcode → Bool
  | .insert | .delete => true
  | _ => false

/-- A run of a finished program. -/
structure Setting where
  final : Builder
  env : Environment
  code_eq : env.code = final.code
  /-- The faults that may end the run. -/
  Admits : Fault → Prop
  /-- The instructions that may be executed, each in the states where it may. -/
  Permits : Instruction → State → Prop
  /-- Only what stores and deletes rows may be forbidden. -/
  permits : ∀ i s, i.opcode.changesRows = false → Permits i s

namespace Setting

variable {σ : Setting} {Q Q' : Nat → State → Prop} {b : Builder} {s t : State}

/-- The run comes to a place where `Q` holds, or stops with a fault that is admitted. -/
def Leads (σ : Setting) (Q : Nat → State → Prop) (pc : Nat) (s : State) : Prop :=
  Machine.Leads σ.env σ.Admits σ.Permits Q pc s

/-- A run of which nothing is asked. -/
def free (final : Builder) (env : Environment) (hcode : env.code = final.code) : Setting :=
  ⟨final, env, hcode, fun _ => True, fun _ _ => True, fun _ _ _ => trivial⟩

/-- No fault may end the run, and everything may be done on the way. -/
def strict (final : Builder) (env : Environment) (hcode : env.code = final.code) : Setting :=
  ⟨final, env, hcode, fun _ => False, fun _ _ => True, fun _ _ _ => trivial⟩

/-- All faults may end the run, but perhaps those that a foreign key causes. -/
class Lenient (σ : Setting) : Prop where
  admits : ∀ f, f.isViolation = false → σ.Admits f

/-- All faults may end the run, and everything may be done on the way. -/
class Free (σ : Setting) : Prop where
  admits : ∀ f, σ.Admits f
  permits : ∀ i s, σ.Permits i s

instance Free.lenient [h : σ.Free] : σ.Lenient := ⟨fun f _ => h.admits f⟩

instance free_free (final : Builder) (env : Environment) (hcode : env.code = final.code) :
    (free final env hcode).Free :=
  ⟨fun _ => trivial, fun _ _ => trivial⟩

/-- Rows may be deleted. -/
def PermitsDelete (σ : Setting) : Prop := ∀ i s, i.opcode = .delete → σ.Permits i s

theorem Free.permitsDelete (h : σ.Free) : σ.PermitsDelete := fun i s _ => h.permits i s

theorem admits (σ : Setting) [σ.Lenient] : ∀ f, f.isViolation = false → σ.Admits f := Lenient.admits

theorem admits_rejected (σ : Setting) [σ.Lenient] (e : Error) : σ.Admits (.rejected e) := σ.admits _ rfl

theorem admits_mismatch (σ : Setting) [σ.Lenient] (className : String) : σ.Admits (.typeMismatch className) :=
  σ.admits _ rfl

/-- A label stands at an address. -/
def At (σ : Setting) (l : Label) (a : Nat) : Prop :=
  σ.final.target? l = some (a : Int) ∧ a ≤ σ.env.code.size

theorem at_of_bindHere {l : Label} (hend : (b.bindHere l).Begins σ.final) (hl : l < b.labels.size) :
    σ.At l b.address := by
  refine ⟨hend.labels l _ (Builder.target?_bindHere hl), ?_⟩
  rw [σ.code_eq, Builder.code_size]
  exact hend.address_le

theorem at_of_labelHere {b' : Builder} (h : (b.newLabel.2.bindHere b.labels.size).Grows b') (hend : b'.Begins σ.final) :
    σ.At b.labels.size b.address ∧ b.labels.size < b'.labels.size ∧ b.Begins σ.final := by
  have hend1 := h.begins.trans hend
  refine ⟨at_of_bindHere (b := b.newLabel.2) hend1 (Builder.lt_newLabel b), ?_, ?_⟩
  · have hle := h.labels_le
    rw [Builder.labels_size_bindHere] at hle
    exact Nat.lt_of_lt_of_le (Builder.lt_newLabel b) hle
  · exact ((Builder.Begins.newLabel b).trans (.bindHere (Builder.target?_newLabel b))).trans hend1

namespace Leads

theorem here {pc : Nat} (h : Q pc s) : σ.Leads Q pc s := Machine.Leads.here h

theorem bind {pc : Nat} (h : σ.Leads Q pc s) (k : ∀ pc s, Q pc s → σ.Leads Q' pc s) : σ.Leads Q' pc s :=
  Machine.Leads.bind h k

theorem mono {pc : Nat} (h : σ.Leads Q pc s) (k : ∀ pc s, Q pc s → Q' pc s) : σ.Leads Q' pc s :=
  Machine.Leads.mono h k

theorem foldlM {α β γ : Type} {step : β → α → Except γ β} {I : List α → β → State → Prop}
    {head : Nat} {Q : Except γ β → Nat → State → Prop}
    (hround : ∀ a rest x s, I (a :: rest) x s → σ.Leads (fun pc s' =>
      match step x a, rest with
      | .error g, _ => Q (.error g) pc s'
      | .ok x', [] => Q (.ok x') pc s'
      | .ok x', next :: rest => pc = head ∧ I (next :: rest) x' s') head s)
    {rest : List α} {a : α} {x : β} (h : I (a :: rest) x s) :
    σ.Leads (Q ((a :: rest).foldlM step x)) head s :=
  Machine.Leads.foldlM hround rest a x s h

theorem permitted {i : Instruction} (hend : (b.emit i).Begins σ.final) (p : σ.Permits i s)
    (hx : execute σ.env b.address i s = .ok (.next, t)) (h : σ.Leads Q (b.emit i).address t) :
    σ.Leads Q b.address s := by
  rw [Builder.address_emit] at h
  refine Machine.Leads.next ?_ p hx h
  rw [σ.code_eq]
  exact Builder.code_of_emit hend

/-- An emitted instruction that changes no rows and goes on to the next one. -/
theorem op {i : Instruction} (hend : (b.emit i).Begins σ.final) (hrows : i.opcode.changesRows = false)
    (hx : execute σ.env b.address i s = .ok (.next, t)) (h : σ.Leads Q (b.emit i).address t) : σ.Leads Q b.address s :=
  .permitted hend (σ.permits _ _ hrows) hx h

theorem failed {i : Instruction} {f : Fault} (hend : (b.emit i).Begins σ.final)
    (hx : execute σ.env b.address i s = .error f) (hf : σ.Admits f) : σ.Leads Q b.address s := by
  refine Machine.Leads.fail ?_ hx hf
  rw [σ.code_eq]
  exact Builder.code_of_emit hend

variable {o : Opcode} {p1 p3 : Int} {l : Label} {flags : UInt8} {a : Nat}

section

variable (hend : (b.emitJump o p1 p3 l .empty flags).Begins σ.final) (hl : l < b.labels.size)
  (hat : σ.At l a) (hrows : o.changesRows = false)

include hend hl hat hrows

/-- An emitted jump that is taken. -/
theorem taken (hx : execute σ.env b.address ⟨o, p1, a, p3, .empty, flags⟩ s = .ok (.jump a, t)) (h : σ.Leads Q a t) :
    σ.Leads Q b.address s := by
  refine Machine.Leads.jump ?_ (σ.permits _ _ hrows) hat.2 hx h
  rw [σ.code_eq]
  exact Builder.code_of_jump hend hl hat.1

/-- An emitted jump that is not taken. -/
theorem passed (hx : execute σ.env b.address ⟨o, p1, a, p3, .empty, flags⟩ s = .ok (.next, t))
    (h : σ.Leads Q (b.emitJump o p1 p3 l .empty flags).address t) : σ.Leads Q b.address s := by
  rw [Builder.address_emitJump] at h
  refine Machine.Leads.next ?_ (σ.permits _ _ hrows) hx h
  rw [σ.code_eq]
  exact Builder.code_of_jump hend hl hat.1

end

end Leads

/-- The run comes to a place where `Q` holds, or stops with a fault that is admitted; `ops` is what it does to
rows on the way. -/
def Performs (σ : Setting) (ops : List Opcode) (Q : Nat → State → Prop) (pc : Nat) (s : State) : Prop :=
  Machine.Performs σ.env σ.Admits σ.Permits Opcode.changesRows Q ops pc s

/-- The same run where rows may not be changed. -/
abbrev still (σ : Setting) : Setting :=
  { σ with Permits := fun i _ => i.opcode.changesRows = false, permits := fun _ _ h => h }

instance [σ.Lenient] : σ.still.Lenient := ⟨σ.admits⟩

namespace Performs

variable {ops ops' : List Opcode} {pc : Nat}

theorem here (h : Q pc s) : σ.Performs [] Q pc s := Machine.Performs.here h

theorem bind (h : σ.Performs ops Q pc s) (k : ∀ pc s, Q pc s → σ.Performs ops' Q' pc s) :
    σ.Performs (ops ++ ops') Q' pc s :=
  Machine.Performs.bind h k

theorem mono (h : σ.Performs ops Q pc s) (k : ∀ pc s, Q pc s → Q' pc s) : σ.Performs ops Q' pc s :=
  Machine.Performs.mono h k

theorem leads (h : σ.Performs ops Q pc s) : σ.Leads Q pc s := Machine.Performs.leads h

/-- An emitted instruction that changes a row. -/
theorem op {i : Instruction} (hend : (b.emit i).Begins σ.final)
    (hx : execute σ.env b.address i s = .ok (.next, t)) (hchanges : i.opcode.changesRows = true)
    (p : σ.Permits i s) (h : Q (b.emit i).address t) : σ.Performs [i.opcode] Q b.address s := by
  have hops : [i.opcode].filter Opcode.changesRows ++ [] = [i.opcode] := by simp [hchanges]
  rw [Builder.address_emit] at h
  rw [← hops]
  refine Machine.Performs.step ?_ p ?_ (Machine.Performs.here h)
  · rw [σ.code_eq]
    exact Builder.code_of_emit hend
  · simp only [Machine.step, hx, follow]

end Performs

theorem Leads.performs {ops : List Opcode} {pc : Nat} (h : σ.still.Leads Q pc s)
    (k : ∀ pc s, Q pc s → σ.Performs ops Q' pc s) : σ.Performs ops Q' pc s :=
  Machine.Performs.bind (Machine.Performs.of_leads h fun i s hother => ⟨σ.permits i s hother, hother⟩) k

theorem breaks_of_emit {i : Instruction} {f : Fault} (hend : (b.emit i).Begins σ.final)
    (hx : execute σ.env b.address i s = .error f) : Breaks σ.env f b.address s := by
  refine ⟨i, ?_, by simp only [Machine.step, hx]⟩
  rw [σ.code_eq]
  exact Builder.code_of_emit hend

end Setting

namespace Emit

variable {α : Type} {b b' : Builder}

theorem gives_operand {n : Nat} {k : Int} (h : (operand n).Gives b k b') : k = n ∧ b' = b := by
  unfold operand at h
  split at h
  · exact gives_pure.mp h
  · exact (gives_throw h).elim

end Emit

end QueryMachine
