import QueryMachine.Proofs.Compile.Setting

/-!
# Whole programs

A program begins with `init`, which leads to the instruction after it, and ends with `halt`. What
holds where its body ends holds of what the run gives.

* `Emit.build_gives`, `Emit.build_of_ok` — the builder that a program was finished from.
* `run_of_body` — a run of a program that ends without a fault ran through its body.
* `Setting.Finishes` — a program runs to its last instruction.
* `Setting.Finishes.keeps` — what is kept on the way holds however the run ends.
-/

namespace QueryMachine

open Machine Emit

variable {σ : Setting} {b b' : Builder} {s : State} {reuse : Bool} {program : Program} {start : Builder}

theorem Emit.build_gives {α : Type} {steps : Emit α} {a : α} (h : Emit.build reuse steps = .ok (program, a)) :
    ∃ final, steps.Gives (Builder.fresh reuse) a final ∧ program.code = final.code := by
  unfold Emit.build at h
  split at h
  · rename_i result final hsteps
    split at h
    · rename_i finished hfinish
      cases h
      refine ⟨final, hsteps, ?_⟩
      unfold Builder.finish at hfinish
      split at hfinish
      · cases hfinish
      · cases hfinish
        rfl
    · cases h
  · cases h

theorem Emit.build_of_ok {steps : Emit Unit}
    (h : (do let (program, ()) ← Emit.build reuse steps; pure program) = Except.ok program) :
    ∃ final, steps.Gives (Builder.fresh reuse) () final ∧ program.code = final.code := by
  obtain ⟨⟨program', ⟨⟩⟩, hbuild, h⟩ := bind_eq_ok.mp h
  cases h
  exact build_gives hbuild

theorem Builder.finish_of_bound (h : ∀ l < b.labels.size, (b.target? l).isSome = true) :
    b.finish = .ok ⟨b.code, b.pool.count, b.cursors⟩ := by
  have hnone : b.unbound? = none := by
    refine List.find?_eq_none.mpr fun l hl => ?_
    obtain ⟨a, ha⟩ := Option.isSome_iff_exists.mp (h l (List.mem_range.mp hl))
    simp [ha]
  rw [Builder.finish, hnone]
  rfl

theorem emitInit_spec (h : emitInit.Gives b () b') (hb : b.Valid) : b'.Valid ∧ b'.cursors = b.cursors := by
  simp only [emitInit, gives_bind, gives_newLabel, gives_jump, gives_bindHere] at h
  obtain ⟨start, b1, ⟨rfl, rfl⟩, _, b2, rfl, rfl⟩ := h
  exact ⟨hb, rfl⟩

theorem total_emitInit : emitInit.Total fun _ => True :=
  (total_modifyGet _).bind fun _ _ => (total_jump ..).bind fun _ _ => total_bindHere _

theorem emitInit_leads (h : emitInit.Gives b () b') (hend : b'.Begins σ.final) :
    σ.Leads (fun pc s' => pc = b'.address ∧ s' = s) b.address s := by
  simp only [emitInit, gives_bind, gives_newLabel, gives_jump, gives_bindHere] at h
  obtain ⟨start, b1, ⟨rfl, rfl⟩, _, b2, rfl, rfl⟩ := h
  have hat := Setting.at_of_bindHere hend (Builder.lt_newLabel b)
  have hnone : (b.newLabel.2.emitJump .init 0 0 b.labels.size .empty 0).target? b.labels.size =
      none := Builder.target?_newLabel b
  exact .taken (b := b.newLabel.2) ((Builder.Begins.bindHere hnone).trans hend)
    (Builder.lt_newLabel b) hat rfl rfl (.here ⟨rfl, rfl⟩)

theorem leads_of_body {Q : Nat → State → Prop} (hstart : start.address = 0) (hinit : emitInit.Gives start () b)
    (hend : b.Begins σ.final) (hbody : σ.Leads Q b.address s) : σ.Leads Q 0 s := by
  rw [← hstart]
  refine (emitInit_leads hinit hend).bind ?_
  rintro pc s ⟨rfl, rfl⟩
  exact hbody

/-- **A run that ends without a fault ran through the body of the program.** -/
theorem run_of_body {env : Environment} {store store' : Store} {e : Execution}
    {Q : State → Prop} (hstart : start.address = 0) (hinit : emitInit.Gives start () b)
    (hcode : env.code = (b'.emit (.plain .halt 0 0 0)).code)
    (hbody : ∀ σ : Setting, σ.Free → b'.Begins σ.final → b.Begins b' ∧
      σ.Leads (fun pc s => pc = b'.address ∧ Q s) b.address (State.start store))
    (hrun : Machine.run env store = (.ok e, store')) :
    ∃ s, Q s ∧ e.rows = s.rows ∧ store' = s.store := by
  let σ := Setting.free (b'.emit (.plain .halt 0 0 0)) env hcode
  have hend : b'.Begins σ.final := .emit b' _
  obtain ⟨hbegins, hbody⟩ := hbody σ (Setting.free_free ..) hend
  have hleads := leads_of_body hstart hinit (hbegins.trans hend) hbody
  obtain ⟨pc, s, fuel, trace, ⟨rfl, hQ⟩, hrest⟩ := hleads.rest_of_run hrun
  have hhalt : env.code[b'.address]? = some (.plain .halt 0 0 0) := by
    rw [hcode]
    exact Builder.code_of_emit (.refl _)
  obtain ⟨hrows, hstore, -⟩ := runFrom_halt hhalt rfl hrest
  exact ⟨s, hQ, hrows, hstore⟩

namespace Setting

/-- The program runs to its last instruction, and `Q` holds there. -/
def Finishes (σ : Setting) (store : Store) (Q : State → Prop) : Prop :=
  ∃ last, σ.env.code[last]? = some (.plain .halt 0 0 0) ∧
    σ.Leads (fun pc s => pc = last ∧ Q s) 0 (State.start store)

namespace Finishes

variable {store store' : Store} {Q : State → Prop}

theorem of_run (h : σ.Finishes store Q) {e : Execution} (hrun : Machine.run σ.env store = (.ok e, store')) :
    ∃ s, Q s ∧ e.rows = s.rows ∧ store' = s.store := by
  obtain ⟨last, hhalt, hleads⟩ := h
  obtain ⟨pc, s, fuel, trace, ⟨rfl, hQ⟩, hrest⟩ := hleads.rest_of_run hrun
  obtain ⟨hrows, hstore, -⟩ := runFrom_halt hhalt rfl hrest
  exact ⟨s, hQ, hrows, hstore⟩

/-- What permitted instructions keep of the trees holds however the run ends. -/
theorem keeps (h : σ.Finishes store Q) {I : Store → Prop}
    (hI : ∀ pc i s s' flow, σ.Permits i s → execute σ.env pc i s = .ok (flow, s') → I s.store → I s'.store)
    (hstore : I store) {result : Except Fault Execution}
    (hrun : Machine.run σ.env store = (result, store')) : I store' := by
  obtain ⟨last, hhalt, hleads⟩ := h
  rcases hleads.keeps hI hstore hrun with hkept | ⟨pc, s, fuel, trace, ⟨rfl, -⟩, hs, hrest⟩
  · exact hkept
  · exact runFrom_halt_store hhalt rfl hrest ▸ hs

end Finishes

end Setting

end QueryMachine
