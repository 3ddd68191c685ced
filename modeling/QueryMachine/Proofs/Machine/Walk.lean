import QueryMachine.Proofs.Machine.Frame
import QueryMachine.Proofs.Machine.Path

/-!
# Walks

A walk is a part of a run that is known to go through without a fault, with the number of its instructions.
Where a run may take that many, it goes on from the end of the walk.

* `Machine.Walks` — from one place to another in a number of instructions.
* `Machine.Walks.runFrom_eq` — a run that begins with a walk.
* `Machine.Leads.walks` — what leads somewhere walks there, or to a fault.
* `Machine.Walks.block` — instructions that load consecutive registers.
-/

namespace QueryMachine.Machine

variable {env : Environment} {n pc pc' : Nat} {s s' : State}

/-- The program walks from one place to another in `n` instructions, without a fault. -/
inductive Walks (env : Environment) : (n : Nat) → (pc : Nat) → State → (pc' : Nat) → State → Prop
  | refl {pc : Nat} {s : State} : Walks env 0 pc s pc s
  | step {n pc pc' pc'' : Nat} {s s' s'' : State} {i : Instruction} : env.code[pc]? = some i →
      Machine.step env pc i s = .ok (some pc', s') → Walks env n pc' s' pc'' s'' →
      Walks env (n + 1) pc s pc'' s''

/-- A run that may take the instructions of a walk goes on from its end. -/
theorem Walks.runFrom_eq (h : Walks env n pc s pc' s') (fuel : Nat) (trace : Array Opcode) :
    ∃ trace', runFrom env (n + fuel) pc s trace = runFrom env fuel pc' s' trace' := by
  induction h generalizing trace with
  | refl => exact ⟨trace, by rw [Nat.zero_add]⟩
  | @step n pc pc' pc'' s s' s'' i hi hstep hrest ih =>
    obtain ⟨trace', h⟩ := ih (trace.push i.opcode)
    refine ⟨trace', ?_⟩
    rw [← h, Nat.add_right_comm, runFrom, hi]
    simp only [hstep]

theorem Walks.trans {m : Nat} {pc'' : Nat} {s'' : State} (h : Walks env n pc s pc' s')
    (k : Walks env m pc' s' pc'' s'') : Walks env (n + m) pc s pc'' s'' := by
  induction h with
  | refl => rwa [Nat.zero_add]
  | step hi hstep _ ih =>
    rw [Nat.add_right_comm]
    exact .step hi hstep (ih k)

theorem Walks.next {i : Instruction} (hi : env.code[pc]? = some i) (hx : execute env pc i s = .ok (.next, s')) :
    Walks env 1 pc s (pc + 1) s' :=
  .step hi (by simp only [Machine.step, hx, follow]) .refl

theorem Walks.jump {i : Instruction} {target : Nat} (hi : env.code[pc]? = some i) (hin : target ≤ env.code.size)
    (hx : execute env pc i s = .ok (.jump target, s')) : Walks env 1 pc s target s' :=
  .step hi (by simp [Machine.step, hx, follow, hin]) .refl

theorem Walks.limit (h : Walks env n pc s pc' s') (stepLimit : Nat) :
    Walks { env with stepLimit } n pc s pc' s' := by
  induction h with
  | refl => exact .refl
  | step hi hstep _ ih => exact .step hi hstep ih

/-- A program that leads somewhere walks there, or to an instruction that fails. -/
theorem Leads.walks {A : Fault → Prop} {P : Instruction → State → Prop} {Q : Nat → State → Prop}
    (h : Leads env A P Q pc s) : ∃ n pc' s', Walks env n pc s pc' s' ∧ (Q pc' s' ∨ ∃ f, A f ∧ Breaks env f pc' s') := by
  induction h with
  | here hq => exact ⟨0, _, _, .refl, .inl hq⟩
  | step hi _ hstep _ ih =>
    obtain ⟨n, pc', s', hwalks, hend⟩ := ih
    exact ⟨n + 1, pc', s', .step hi hstep hwalks, hend⟩
  | fault hi hstep hf => exact ⟨0, _, _, .refl, .inr ⟨_, hf, _, hi, hstep⟩⟩

/-- Instructions that each load a value into a register of its own, one after the other. -/
theorem Walks.block {values : List Value} {target : Int} (htarget : 0 < target)
    (hload : ∀ (k : Nat) v, values[k]? = some v → ∃ i, env.code[pc + k]? = some i ∧
      ∀ s', Quiet (fun _ => False) (fun _ => True) s s' →
        execute env (pc + k) i s' = .ok (.next, s'.set (target + k) v)) :
    ∃ s', Walks env values.length pc s (pc + values.length) s' ∧
      s'.getBlock target values.length = values ∧ Quiet (fun r => 0 < r ∧ r < target) (fun _ => True) s s' := by
  induction values generalizing pc target s with
  | nil => exact ⟨s, .refl, rfl, .refl s⟩
  | cons v values ih =>
    obtain ⟨i, hi, hx⟩ := hload 0 v rfl
    have hset : Quiet (fun r => 0 < r ∧ r < target) (fun _ => True) s (s.set target v) :=
      .set s v fun r hr => ⟨hr.1, by omega⟩
    have hmore : ∀ (k : Nat) v', values[k]? = some v' → ∃ i, env.code[pc + 1 + k]? = some i ∧
        ∀ s', Quiet (fun _ => False) (fun _ => True) (s.set target v) s' →
          execute env (pc + 1 + k) i s' = .ok (.next, s'.set (target + 1 + k) v') := by
      intro k v' hv
      obtain ⟨i, hi, hx⟩ := hload (k + 1) v' hv
      have hpc : pc + 1 + k = pc + (k + 1) := by omega
      have hregister : target + 1 + (k : Int) = target + ((k + 1 : Nat) : Int) := by omega
      rw [hpc, hregister]
      exact ⟨i, hi, fun s' hs' => hx s' (.trans (.mono hset (fun _ h => h.elim) fun _ h => h) hs')⟩
    obtain ⟨s', hwalks, hblock, hquiet⟩ := ih (by omega) hmore
    refine ⟨s', ?_, ?_, hset.trans (hquiet.mono (fun r hr => ⟨hr.1, by omega⟩) fun _ h => h)⟩
    · have hfirst : Walks env 1 pc s (pc + 1) (s.set target v) := by
        refine .next hi ?_
        simpa using hx s (.refl s)
      have hboth := hfirst.trans hwalks
      rwa [Nat.add_comm 1, Nat.add_right_comm, Nat.add_assoc] at hboth
    · rw [List.length_cons, State.getBlock_succ, hblock, hquiet.get target ⟨htarget, by omega⟩,
        State.get_set_self]

end QueryMachine.Machine
