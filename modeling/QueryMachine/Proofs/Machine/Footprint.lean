import QueryMachine.Proofs.Tree

/-!
# The trees that a program touches

A program can change a tree of the database only through a cursor that it opened on it, or by clearing
it. So where its instructions open only some trees, and never write through the cursors on which others
are opened, all other trees are what they were, whatever the program does and wherever it is cut off.

* `Footprint` — the trees that may change or be cleared, and the cursors that only read.
* `Instruction.Within` — the instruction keeps to a footprint.
* `Machine.run_within` — the trees outside of the footprint are left alone.
-/

namespace QueryMachine

open Machine

/-- What a program may do to the trees of a database. -/
structure Footprint where
  /-- The roots of the trees that may change. -/
  roots : List Int
  /-- The cursors through which nothing is written, whatever they are opened on. -/
  reads : Int → Prop
  /-- Whether whole trees may be cleared. -/
  clears : Bool

/-- Any cursor may change the trees with the given roots, and they may be cleared. -/
def Footprint.changing (roots : List Int) : Footprint := ⟨roots, fun _ => False, true⟩

/-- Any cursor may change the trees with the given roots, and they are not cleared. -/
def Footprint.editing (roots : List Int) : Footprint := ⟨roots, fun _ => False, false⟩

/-- No trees change: those of the database are read through the first cursors. -/
def Footprint.reading (cursors : Int) : Footprint := ⟨[], (· < cursors), false⟩

/-- The instruction keeps to the footprint, and makes no trees. -/
def Instruction.Within (F : Footprint) (i : Instruction) : Prop :=
  match i.opcode with
  | .openRead => i.has Flag.rootInRegister = false ∧ (i.p2 ∈ F.roots ∨ F.reads i.p1)
  | .openWrite => i.has Flag.rootInRegister = false ∧ i.p2 ∈ F.roots
  | .insert | .delete | .idxInsert | .idxDelete => ¬ F.reads i.p1
  | .clear => F.clears = true ∧ i.p1 ∈ F.roots
  | .createBtree => False
  | _ => True

namespace Machine

variable {env : Environment} {pc : Nat} {i : Instruction} {s s' : State} {flow : Flow}
  {F : Footprint}

/-- Only trees that may change are open, but for the cursors that only read. -/
def State.Within (F : Footprint) (s : State) : Prop :=
  ∀ c root position, s.cursors.get? c = some ⟨.stored root, position⟩ → root ∈ F.roots ∨ F.reads c

theorem State.Within.congr (h : s.Within F) (hcursors : s'.cursors = s.cursors) : s'.Within F := by
  intro c root position hc
  rw [hcursors] at hc
  exact h c root position hc

theorem State.Within.setCursor (h : s.Within F) {c : Int} {cursor : Cursor}
    (hcursor : ∀ root, cursor.backing = .stored root → root ∈ F.roots ∨ F.reads c) :
    { s with cursors := s.cursors.set c cursor }.Within F := by
  intro d root position hd
  by_cases heq : d = c
  · subst heq
    rw [Slots.get?_set_self] at hd
    cases hd
    exact hcursor root rfl
  · exact h d root position ((Slots.get?_set_of_ne _ _ heq).symm.trans hd)

theorem State.Within.setPosition (h : s.Within F) (c : Int) (position : Option Position) :
    (s.setPosition c position).Within F := by
  unfold State.setPosition
  split
  · rename_i cursor hc
    refine h.setCursor fun root hroot => h c root cursor.position ?_
    rw [hc, ← hroot]
  · exact h

theorem State.Within.setTree (h : s.Within F) {c : Int} (hc : ¬ F.reads c) (tree : Tree) :
    (s.setTree c tree).Within F ∧ s.store.OnlyAt F.roots (s.setTree c tree).store := by
  unfold State.setTree
  split
  · rename_i root position hget
    exact ⟨h, .setTree ((h c root position hget).resolve_right hc) ..⟩
  · exact ⟨h.setCursor nofun, .refl ..⟩
  · exact ⟨h, .refl ..⟩

/-! ## One instruction -/

/-- The instructions that touch no trees keep to the open ones. -/
theorem State.Within.change (hs : s.Within F) (hi : i.Within F) (h : CursorChange pc i s s'.cursors) : s'.Within F := by
  generalize hcursors : s'.cursors = cursors at h
  cases h with
  | same => exact hs.congr hcursors
  | moved c position => exact (hs.setPosition c position).congr hcursors
  | opened hop hroot =>
    refine (hs.setCursor fun root heq => ?_).congr hcursors
    cases heq
    rcases hop with hop | hop
    all_goals
      simp only [Instruction.Within, hop] at hi
      simp only [rootOf, hi.1, Bool.false_eq_true, if_false] at hroot
      cases hroot
    · exact hi.2
    · exact .inl hi.2
  | own hown => exact (hs.setCursor fun root heq => absurd heq (hown root)).congr hcursors
  | closed =>
    intro c root position hc
    rw [hcursors] at hc
    by_cases heq : c = i.p1
    · subst heq
      rw [Slots.get?_erase_self] at hc
      cases hc
    · exact hs c root position ((Slots.get?_erase_of_ne _ heq).symm.trans hc)

/-- **One instruction leaves the other trees alone**, and opens none of them to be written. -/
theorem execute_within (h : execute env pc i s = .ok (flow, s')) (hi : i.Within F)
    (hs : s.Within F) : s'.Within F ∧ s.store.OnlyAt F.roots s'.store := by
  by_cases hop : writes i.opcode = true
  · cases hcode : i.opcode with
    | insert =>
      simp only [Instruction.Within, hcode] at hi
      simp only [execute, hcode, insertRow] at h
      repeat' split at h
      all_goals cases h
      refine ⟨(hs.setTree hi _).1.setPosition _ _, ?_⟩
      rw [State.store_setPosition]
      exact (hs.setTree hi _).2
    | delete =>
      simp only [Instruction.Within, hcode] at hi
      simp only [execute, hcode, deleteRow] at h
      repeat' split at h
      all_goals cases h
      all_goals exact hs.setTree hi _
    | clear =>
      simp only [Instruction.Within, hcode] at hi
      simp only [execute, hcode, clearTree] at h
      split at h
      · cases h
        exact ⟨hs.congr rfl, .setTree hi.2 ..⟩
      · cases h
    | idxInsert | idxDelete =>
      simp only [Instruction.Within, hcode] at hi
      simp only [execute, hcode, changeKeys] at h
      repeat' split at h
      all_goals cases h
      exact hs.setTree hi _
    | createBtree =>
      simp only [Instruction.Within, hcode] at hi
    | _ =>
      rw [hcode] at hop
      cases hop
  · obtain ⟨hstore, hcursors⟩ := execute_keeps h (by simpa using hop)
    exact ⟨hs.change hi hcursors, hstore ▸ .refl ..⟩

/-! ## A run -/

theorem runFrom_within (hcode : ∀ i ∈ env.code, i.Within F) (fuel pc : Nat) (s : State) (trace : Array Opcode)
    (hs : s.Within F) : s.store.OnlyAt F.roots (runFrom env fuel pc s trace).2 := by
  fun_induction runFrom env fuel pc s trace with
  | case1 | case2 | case3 => exact .refl ..
  | case4 pc s trace i hi fuel s' hstep =>
    obtain ⟨flow, hx⟩ := execute_of_step hstep
    exact (execute_within hx (hcode i (Array.mem_of_getElem? hi)) hs).2
  | case5 pc s trace i hi fuel pc' s' hstep ih =>
    obtain ⟨flow, hx⟩ := execute_of_step hstep
    obtain ⟨hs', honly⟩ := execute_within hx (hcode i (Array.mem_of_getElem? hi)) hs
    exact honly.trans (ih hs')

/-- **A program leaves the trees alone that are outside of its footprint.** -/
theorem run_within (hcode : ∀ i ∈ env.code, i.Within F) (store : Store) : store.OnlyAt F.roots (run env store).2 :=
  runFrom_within hcode env.stepLimit 0 (State.start store) #[] fun c root position hc => by
    rw [State.start, Slots.get?_empty] at hc
    cases hc

end Machine

end QueryMachine
