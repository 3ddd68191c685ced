import QueryMachine.Proofs.Compile.Whole
import QueryMachine.Proofs.Outline.Scan

/-!
# Outlines of whole programs

A program that was finished has every label bound, so an outline of all of its code says what its runs
do: a run ends in a fault that is admitted or runs out of steps, with trees as they are kept, or it
ends as asked.

* `Contract.runs_of_build` — what the runs of a program do.
-/

namespace QueryMachine

open Machine Emit

variable {κ : Contract} {b b' : Builder} {S : Store → Prop}

/-- What is known at the beginning: something of the trees, and nothing else. -/
def Facts.trees (S : Store → Prop) : Facts := ⟨S, fun _ => Use.any, fun _ _ => True⟩

theorem Facts.free_trees (S : Store → Prop) (r : Int) : (trees S).Free r := fun _ => trivial

theorem Facts.fresh_trees (S : Store → Prop) (k : Int) : (trees S).cursor k = Use.any := rfl

namespace Contract

/-- What is asked of a run. -/
def Runs (κ : Contract) (store : Store) : Prop :=
  match Machine.run κ.env store with
  | (.error f, st) => (κ.Admits f ∨ f = .stepLimit κ.env.stepLimit) ∧ κ.Keeps st
  | (.ok e, st) => ∃ s, κ.Ends s ∧ e.rows = s.rows ∧ st = s.store

/-- **What the runs of a program do**, once all of its code is outlined. -/
theorem runs_of_build {α : Type} {reuse : Bool} {steps : Emit α} {program : Program} {a : α} {store : Store}
    (h : Emit.build reuse steps = .ok (program, a)) (hcode : κ.env.code = program.code)
    (hlong : program.code.size ≤ κ.span) (hstart : S store) (hkeeps : ∀ st, S st → κ.Keeps st)
    (hsteps : ∀ {O b' a}, steps.Gives (Builder.fresh reuse) a b' →
      κ.Outlines O (Builder.fresh reuse) (.trees S) → κ.Reaches O (Builder.fresh reuse) b' .never) :
    κ.Runs store := by
  unfold Emit.build at h
  split at h
  · rename_i result final hgives
    split at h
    · rename_i finished hfinish
      cases h
      have hprogram : program.code = final.code := by
        unfold Builder.finish at hfinish
        split at hfinish
        · cases hfinish
        · cases hfinish
          rfl
      obtain ⟨O', g, ho⟩ := hsteps hgives (outlines_fresh reuse (fun r _ => Facts.free_trees S r) hkeeps)
      have hsize : final.address ≤ κ.span := by
        rw [hprogram, Builder.code_size] at hlong
        exact hlong
      have hbound := Builder.bound_of_finish hfinish fun d hd l hl => by
        obtain ⟨i, hi⟩ := Array.mem_iff_getElem?.mp hd
        exact (ho.code i d hi).2 l hl
      have hzero : (O'.code 0).Holds (State.start store) :=
        g.here _ ⟨hstart, fun _ => trivial, fun _ => trivial⟩
      exact ho.runFrom (hcode.trans hprogram) hsize hbound (fun _ hs => hs.store.elim) κ.env.stepLimit
        (Nat.zero_le _) hzero
    · cases h
  · cases h

end Contract

end QueryMachine
