import Mathlib.Algebra.Ring.Int.Defs
import Mathlib.Algebra.Ring.Nat
import QueryMachine.Machine

/-!
# Where a run comes to

`Leads` says that from an address and a state the program comes, in finitely many instructions, to
a place and a state with a given property, unless it stops with a fault that is admitted; and that
each instruction on the way is permitted in the state it meets. Code is put together by `Leads.bind`;
a whole run is read off it by `Leads.rest_of_run`.

* `Leads.bind` — what follows is looked at only where the first part ends.
* `Leads.foldlM` — a loop computes a fold, with an early exit for a failure.
* `Leads.rest_of_run` — a run without fault passes through the property.
* `Leads.rest_of_fault` — and so does one with a fault that is not admitted.
* `Leads.counts`, `Leads.keeps` — what permitted instructions keep holds wherever a run ends.
* `Performs` — where a run comes to, and the operations of some kind that it performs on the way.
-/

namespace QueryMachine.Machine

/-- The program comes to a place where `Q` holds, or stops with a fault in `A`, by instructions that `P`
permits. -/
inductive Leads (env : Environment) (A : Fault → Prop) (P : Instruction → State → Prop)
    (Q : Nat → State → Prop) : Nat → State → Prop
  | here {pc : Nat} {s : State} : Q pc s → Leads env A P Q pc s
  | step {pc pc' : Nat} {s s' : State} {i : Instruction} : env.code[pc]? = some i → P i s →
      Machine.step env pc i s = .ok (some pc', s') → Leads env A P Q pc' s' → Leads env A P Q pc s
  | fault {pc : Nat} {s : State} {i : Instruction} {f : Fault} : env.code[pc]? = some i →
      Machine.step env pc i s = .error f → A f → Leads env A P Q pc s

variable {env : Environment} {i : Instruction} {pc fuel : Nat} {s : State} {e : Execution} {store : Store}
  {trace : Array Opcode} {f : Fault}

theorem execute_of_step {next : Option Nat} {s' : State} (h : step env pc i s = .ok (next, s')) :
    ∃ flow, execute env pc i s = .ok (flow, s') := by
  unfold step at h
  repeat' split at h
  all_goals cases h
  exact ⟨_, ‹_›⟩

/-- The operations that a run from an address on carries out, in order, as far as it comes. -/
def operationsFrom (env : Environment) : (fuel pc : Nat) → State → List Opcode
  | 0, _, _ => []
  | fuel + 1, pc, s =>
    match env.code[pc]? with
    | none => []
    | some i =>
      match step env pc i s with
      | .error _ => []
      | .ok (none, _) => [i.opcode]
      | .ok (some pc, s) => i.opcode :: operationsFrom env fuel pc s

/-- The operations that a run carries out. -/
def operations (env : Environment) (store : Store) : List Opcode :=
  operationsFrom env env.stepLimit 0 (State.start store)

/-- The operations that a run without a fault carries out are those of its trace. -/
theorem trace_eq_operations (h : runFrom env fuel pc s trace = (.ok e, store)) :
    e.trace.toList = trace.toList ++ operationsFrom env fuel pc s := by
  fun_induction runFrom env fuel pc s trace with
  | case1 fuel pc s trace hnone =>
    cases h
    cases fuel <;> simp [operationsFrom, hnone]
  | case2 | case3 => cases h
  | case4 pc s trace i hi fuel s' hstep =>
    cases h
    simp [operationsFrom, hi, hstep]
  | case5 pc s trace i hi fuel pc' s' hstep ih => simp [operationsFrom, hi, hstep, ih h]

namespace Leads

variable {env : Environment} {A : Fault → Prop} {P : Instruction → State → Prop}
  {Q Q' : Nat → State → Prop} {pc : Nat} {s : State} {i : Instruction} {fuel : Nat} {trace : Array Opcode}
  {store : Store} {result : Except Fault Execution}

theorem bind (h : Leads env A P Q pc s) (k : ∀ pc s, Q pc s → Leads env A P Q' pc s) : Leads env A P Q' pc s := by
  induction h with
  | here hq => exact k _ _ hq
  | step hi hp hs _ ih => exact .step hi hp hs ih
  | fault hi hs hf => exact .fault hi hs hf

theorem mono (h : Leads env A P Q pc s) (k : ∀ pc s, Q pc s → Q' pc s) : Leads env A P Q' pc s :=
  h.bind fun pc s hq => .here (k pc s hq)

/-- A loop over a list that is tested at its end. `I rest x` describes the state at the head with
`rest` still to come and `x` the result so far; a round that fails leaves the loop, and so does the
round of the last element. -/
theorem foldlM {α β γ : Type} {step : β → α → Except γ β} {I : List α → β → State → Prop}
    {head : Nat} {Q : Except γ β → Nat → State → Prop}
    (hround : ∀ a rest x s, I (a :: rest) x s → Leads env A P (fun pc s' =>
      match step x a, rest with
      | .error g, _ => Q (.error g) pc s'
      | .ok x', [] => Q (.ok x') pc s'
      | .ok x', next :: rest => pc = head ∧ I (next :: rest) x' s') head s) :
    ∀ rest a x s, I (a :: rest) x s → Leads env A P (Q ((a :: rest).foldlM step x)) head s := by
  intro rest
  induction rest with
  | nil =>
    intro a x s hI
    refine (hround a [] x s hI).mono fun pc s' hend => ?_
    rw [List.foldlM_cons]
    cases hstep : step x a with
    | error g =>
      rw [hstep] at hend
      exact hend
    | ok x' =>
      rw [hstep] at hend
      exact hend
  | cons b rest ih =>
    intro a x s hI
    refine (hround a (b :: rest) x s hI).bind fun pc s' hend => ?_
    rw [List.foldlM_cons]
    cases hstep : step x a with
    | error g =>
      rw [hstep] at hend
      exact .here hend
    | ok x' =>
      rw [hstep] at hend
      obtain ⟨rfl, hI'⟩ := hend
      exact ih b x' s' hI'

theorem next {s' : State} (hi : env.code[pc]? = some i) (hp : P i s) (hx : execute env pc i s = .ok (.next, s'))
    (h : Leads env A P Q (pc + 1) s') : Leads env A P Q pc s := by
  refine .step hi hp ?_ h
  simp only [Machine.step, hx, follow]

theorem jump {s' : State} {target : Nat} (hi : env.code[pc]? = some i) (hp : P i s) (hin : target ≤ env.code.size)
    (hx : execute env pc i s = .ok (.jump target, s')) (h : Leads env A P Q target s') : Leads env A P Q pc s := by
  refine .step hi hp ?_ h
  have hrange : (0 : Int) ≤ target ∧ (target : Int) ≤ env.code.size := by omega
  simp only [Machine.step, hx, follow, if_pos hrange, Int.toNat_natCast]

theorem fail {f : Fault} (hi : env.code[pc]? = some i) (hx : execute env pc i s = .error f) (hf : A f) :
    Leads env A P Q pc s := by
  refine .fault hi ?_ hf
  simp only [Machine.step, hx]

/-- A run passes through a place where `Q` holds, or else it ends with a fault that is admitted, or at the limit. -/
theorem passes (h : Leads env A P Q pc s) (hrun : runFrom env fuel pc s trace = (result, store)) :
    (∃ pc' s' fuel' trace', Q pc' s' ∧ runFrom env fuel' pc' s' trace' = (result, store)) ∨
      ∃ f, result = .error f ∧ (f = .stepLimit env.stepLimit ∨ A f) := by
  induction h generalizing fuel trace with
  | here hq => exact .inl ⟨_, _, fuel, trace, hq, hrun⟩
  | step hi _ hs _ ih =>
    rw [runFrom, hi] at hrun
    cases fuel with
    | zero =>
      cases hrun
      exact .inr ⟨_, rfl, .inl rfl⟩
    | succ fuel =>
      simp only [hs] at hrun
      exact ih hrun
  | fault hi hs hf =>
    rw [runFrom, hi] at hrun
    cases fuel with
    | zero =>
      cases hrun
      exact .inr ⟨_, rfl, .inl rfl⟩
    | succ fuel =>
      simp only [hs] at hrun
      cases hrun
      exact .inr ⟨_, rfl, .inr hf⟩

/-- A run that ends without a fault passes through a place where `Q` holds. -/
theorem rest_of_run (h : Leads env A P Q pc s) {e : Execution} (hrun : runFrom env fuel pc s trace = (.ok e, store)) :
    ∃ pc' s' fuel' trace', Q pc' s' ∧ runFrom env fuel' pc' s' trace' = (.ok e, store) := by
  refine (h.passes hrun).resolve_right ?_
  rintro ⟨f, hf, -⟩
  cases hf

/-- A run that ends with a fault that is not admitted passes through a place where `Q` holds. -/
theorem rest_of_fault {f : Fault} (h : Leads env A P Q pc s) (hf : ¬ A f) (hlimit : f ≠ .stepLimit env.stepLimit)
    (hrun : runFrom env fuel pc s trace = (.error f, store)) :
    ∃ pc' s' fuel' trace', Q pc' s' ∧ runFrom env fuel' pc' s' trace' = (.error f, store) := by
  refine (h.passes hrun).resolve_right ?_
  rintro ⟨f', hsame, hends⟩
  cases hsame
  exact hends.elim hlimit hf

/-- What permitted instructions keep of the trees and of the number of operations of some kind so far holds
wherever a run ends, or else the run passes through a place where `Q` holds and it has been kept so far. -/
theorem counts {I : Store → Nat → Prop} {o : Opcode}
    (hI : ∀ pc i s s' flow n, env.code[pc]? = some i → P i s → execute env pc i s = .ok (flow, s') →
      I s.store n → I s'.store (n + if i.opcode == o then 1 else 0))
    (h : Leads env A P Q pc s) {n : Nat} (hs : I s.store n) (hrun : runFrom env fuel pc s trace = (result, store)) :
    I store (n + (operationsFrom env fuel pc s).count o) ∨ ∃ pc' s' fuel' trace' m, Q pc' s' ∧ I s'.store m ∧
      runFrom env fuel' pc' s' trace' = (result, store) ∧
      m + (operationsFrom env fuel' pc' s').count o = n + (operationsFrom env fuel pc s).count o := by
  induction h generalizing n fuel trace with
  | here hq => exact .inr ⟨_, _, fuel, trace, n, hq, hs, hrun, rfl⟩
  | @step pc pc' s s' i hi hp hstep _ ih =>
    rw [runFrom, hi] at hrun
    cases fuel with
    | zero =>
      cases hrun
      exact .inl hs
    | succ fuel =>
      simp only [hstep] at hrun
      obtain ⟨flow, hx⟩ := execute_of_step hstep
      have hops : n + (operationsFrom env (fuel + 1) pc s).count o =
          (n + if i.opcode == o then 1 else 0) + (operationsFrom env fuel pc' s').count o := by
        simp only [operationsFrom, hi, hstep, List.count_cons]
        omega
      rw [hops]
      exact ih (hI _ _ _ _ _ _ hi hp hx hs) hrun
  | fault hi hstep _ =>
    rw [runFrom, hi] at hrun
    cases fuel with
    | zero =>
      cases hrun
      exact .inl hs
    | succ fuel =>
      simp only [hstep] at hrun
      cases hrun
      refine .inl ?_
      simpa only [operationsFrom, hi, hstep, List.count_nil, Nat.add_zero] using hs

/-- What permitted instructions keep of the trees holds wherever a run ends, or else the run passes through
a place where `Q` holds and it has been kept so far. -/
theorem keeps {I : Store → Prop}
    (hI : ∀ pc i s s' flow, P i s → execute env pc i s = .ok (flow, s') → I s.store → I s'.store)
    (h : Leads env A P Q pc s) (hs : I s.store) (hrun : runFrom env fuel pc s trace = (result, store)) :
    I store ∨ ∃ pc' s' fuel' trace', Q pc' s' ∧ I s'.store ∧ runFrom env fuel' pc' s' trace' = (result, store) := by
  refine (h.counts (I := fun st _ => I st) (o := .halt) (n := 0)
    (fun pc i s s' flow _ _ => hI pc i s s' flow) hs hrun).imp_right ?_
  rintro ⟨pc', s', fuel', trace', -, hq, hkept, hrest, -⟩
  exact ⟨pc', s', fuel', trace', hq, hkept, hrest⟩

end Leads

/-- The program comes to a place where `Q` holds, or stops with a fault in `A`, by instructions that `P`
permits; unless it stops, it performs `ops` of the operations in `R`, in this order. -/
inductive Performs (env : Environment) (A : Fault → Prop) (P : Instruction → State → Prop)
    (R : Opcode → Bool) (Q : Nat → State → Prop) : List Opcode → Nat → State → Prop
  | here {pc : Nat} {s : State} : Q pc s → Performs env A P R Q [] pc s
  | step {pc pc' : Nat} {s s' : State} {i : Instruction} {ops : List Opcode} : env.code[pc]? = some i →
      P i s → Machine.step env pc i s = .ok (some pc', s') → Performs env A P R Q ops pc' s' →
      Performs env A P R Q ([i.opcode].filter R ++ ops) pc s
  | stops {pc : Nat} {s : State} {ops : List Opcode} : Leads env A P (fun _ _ => False) pc s →
      Performs env A P R Q ops pc s

namespace Performs

variable {env : Environment} {A : Fault → Prop} {P P' : Instruction → State → Prop} {R : Opcode → Bool}
  {Q Q' : Nat → State → Prop} {ops ops' : List Opcode} {pc : Nat} {s : State} {fuel : Nat} {trace : Array Opcode}
  {e : Execution} {store : Store}

theorem bind (h : Performs env A P R Q ops pc s) (k : ∀ pc s, Q pc s → Performs env A P R Q' ops' pc s) :
    Performs env A P R Q' (ops ++ ops') pc s := by
  induction h with
  | here hq => exact k _ _ hq
  | step hi hp hs _ ih =>
    rw [List.append_assoc]
    exact .step hi hp hs ih
  | stops h => exact .stops h

theorem mono (h : Performs env A P R Q ops pc s) (k : ∀ pc s, Q pc s → Q' pc s) : Performs env A P R Q' ops pc s := by
  rw [← List.append_nil ops]
  exact h.bind fun pc s hq => .here (k pc s hq)

theorem leads (h : Performs env A P R Q ops pc s) : Leads env A P Q pc s := by
  induction h with
  | here hq => exact .here hq
  | step hi hp hs _ ih => exact .step hi hp hs ih
  | stops h => exact h.mono fun _ _ => False.elim

theorem of_leads (h : Leads env A P' Q pc s) (hP : ∀ i s, P' i s → P i s ∧ R i.opcode = false) :
    Performs env A P R Q [] pc s := by
  induction h with
  | here hq => exact .here hq
  | @step _ _ s _ i hi hp hs _ ih =>
    obtain ⟨hp, hother⟩ := hP i s hp
    have hnone : [i.opcode].filter R ++ [] = [] := by simp [hother]
    rw [← hnone]
    exact .step hi hp hs ih
  | fault hi hs hf => exact .stops (.fault hi hs hf)

/-- A run that ends without a fault passes through a place where `Q` holds, after the operations. -/
theorem rest_of_run (h : Performs env A P R Q ops pc s) (hrun : runFrom env fuel pc s trace = (.ok e, store)) :
    ∃ pc' s' fuel' trace', Q pc' s' ∧ runFrom env fuel' pc' s' trace' = (.ok e, store) ∧
      trace'.toList.filter R = trace.toList.filter R ++ ops ∧ fuel' ≤ fuel := by
  induction h generalizing fuel trace with
  | here hq => exact ⟨_, _, fuel, trace, hq, hrun, (List.append_nil _).symm, Nat.le_refl _⟩
  | step hi _ hs _ ih =>
    rw [runFrom, hi] at hrun
    cases fuel with
    | zero => cases hrun
    | succ fuel =>
      simp only [hs] at hrun
      obtain ⟨pc', s', fuel', trace', hq, hrest, htrace, hle⟩ := ih hrun
      refine ⟨pc', s', fuel', trace', hq, hrest, ?_, Nat.le_succ_of_le hle⟩
      rw [htrace, Array.toList_push, List.filter_append, List.append_assoc]
  | stops h =>
    obtain ⟨_, _, _, _, hfalse, -⟩ := h.rest_of_run hrun
    exact hfalse.elim

/-- A loop that need not come to an end: where `J` holds there is an instruction from which the program comes
back to such a place, or to one where `Q` holds. A run without a fault comes to the latter. -/
theorem rest_of_loop {J : Nat → State → Prop}
    (hround : ∀ pc s, J pc s → ∃ i, env.code[pc]? = some i ∧ R i.opcode = false ∧
      ∀ next s', Machine.step env pc i s = .ok (next, s') →
        ∃ pc', next = some pc' ∧ Performs env A P R (fun pc s => J pc s ∨ Q pc s) [] pc' s') (hJ : J pc s)
    (hrun : runFrom env fuel pc s trace = (.ok e, store)) :
    ∃ pc' s' fuel' trace', Q pc' s' ∧ runFrom env fuel' pc' s' trace' = (.ok e, store) ∧
      trace'.toList.filter R = trace.toList.filter R := by
  induction fuel using Nat.strongRecOn generalizing pc s trace with
  | ind fuel ih =>
    obtain ⟨i, hi, hother, hnext⟩ := hround pc s hJ
    rw [runFrom, hi] at hrun
    cases fuel with
    | zero => cases hrun
    | succ fuel =>
      dsimp only at hrun
      rcases hstep : Machine.step env pc i s with f | ⟨next, s'⟩
      · rw [hstep] at hrun
        cases hrun
      obtain ⟨pc', rfl, hperforms⟩ := hnext next s' hstep
      rw [hstep] at hrun
      obtain ⟨pc1, s1, fuel1, trace1, hends, hrest, htrace, hle⟩ := hperforms.rest_of_run hrun
      have hsame : trace1.toList.filter R = trace.toList.filter R := by
        simp [htrace, hother]
      rcases hends with hJ1 | hQ
      · obtain ⟨pc2, s2, fuel2, trace2, hQ, hrest2, htrace2⟩ := ih fuel1 (by omega) hJ1 hrest
        exact ⟨pc2, s2, fuel2, trace2, hQ, hrest2, htrace2.trans hsame⟩
      · exact ⟨pc1, s1, fuel1, trace1, hQ, hrest, hsame⟩

end Performs

/-- The instruction at an address fails. -/
def Breaks (env : Environment) (f : Fault) (pc : Nat) (s : State) : Prop :=
  ∃ i, env.code[pc]? = some i ∧ step env pc i s = .error f

/-- Where an instruction fails, a run ends. -/
theorem Breaks.runFrom_eq (h : Breaks env f pc s) (fuel : Nat) (trace : Array Opcode) :
    runFrom env fuel pc s trace = (.error (if fuel = 0 then .stepLimit env.stepLimit else f), s.store) := by
  obtain ⟨i, hi, hstep⟩ := h
  rw [runFrom, hi]
  cases fuel with
  | zero => rfl
  | succ fuel => simp [hstep]

theorem Breaks.store_of_runFrom {result : Except Fault Execution} (h : Breaks env f pc s)
    (hrun : runFrom env fuel pc s trace = (result, store)) : store = s.store := by
  rw [h.runFrom_eq] at hrun
  cases hrun
  rfl

theorem Breaks.of_runFrom {g : Fault} (h : Breaks env f pc s) (hg : g ≠ .stepLimit env.stepLimit)
    (hrun : runFrom env fuel pc s trace = (.error g, store)) : g = f ∧ store = s.store := by
  rw [h.runFrom_eq] at hrun
  cases hrun
  exact ⟨if_neg fun hzero => hg (if_pos hzero), rfl⟩

theorem Breaks.count_operationsFrom (h : Breaks env f pc s) (o : Opcode) :
    (operationsFrom env fuel pc s).count o = 0 := by
  obtain ⟨i, hi, hstep⟩ := h
  cases fuel with
  | zero => rfl
  | succ fuel =>
    simp only [operationsFrom, hi, hstep]
    rfl

theorem Breaks.not_ok (h : Breaks env f pc s) : runFrom env fuel pc s trace ≠ (.ok e, store) := by
  rw [h.runFrom_eq]
  nofun

theorem step_halt (hhalt : i.opcode = .halt) (s : State) : step env pc i s = .ok (none, s) := by
  simp only [step, execute, hhalt, follow]

section

variable (hi : env.code[pc]? = some i) (hhalt : i.opcode = .halt)

include hi hhalt

/-- A run ends at a `halt`. -/
theorem runFrom_halt_eq (fuel : Nat) (s : State) (trace : Array Opcode) :
    runFrom env fuel pc s trace = (if fuel = 0 then .error (.stepLimit env.stepLimit)
      else .ok ⟨s.rows, trace.push .halt⟩, s.store) := by
  rw [runFrom, hi]
  cases fuel with
  | zero => rfl
  | succ fuel => simp [step_halt hhalt, hhalt]

theorem count_operationsFrom_halt {o : Opcode} (ho : o ≠ .halt) : (operationsFrom env fuel pc s).count o = 0 := by
  cases fuel with
  | zero => rfl
  | succ fuel =>
    simp only [operationsFrom, hi, step_halt hhalt, hhalt]
    exact List.count_eq_zero.mpr fun hin => ho (List.mem_singleton.mp hin)

/-- What a run that ends at a `halt` gives. -/
theorem runFrom_halt (hrun : runFrom env fuel pc s trace = (.ok e, store)) :
    e.rows = s.rows ∧ store = s.store ∧ e.trace = trace.push .halt := by
  rw [runFrom_halt_eq hi hhalt] at hrun
  split at hrun
  · cases hrun
  · cases hrun
    exact ⟨rfl, rfl, rfl⟩

/-- At a `halt` only the number of instructions can end a run with a fault. -/
theorem runFrom_halt_stops (hrun : runFrom env fuel pc s trace = (.error f, store)) :
    f = .stepLimit env.stepLimit ∧ store = s.store := by
  rw [runFrom_halt_eq hi hhalt] at hrun
  split at hrun
  · cases hrun
    exact ⟨rfl, rfl⟩
  · cases hrun

theorem runFrom_halt_store {result : Except Fault Execution} (hrun : runFrom env fuel pc s trace = (result, store)) :
    store = s.store := by
  rw [runFrom_halt_eq hi hhalt] at hrun
  cases hrun
  rfl

end

end QueryMachine.Machine
