import QueryMachine.Proofs.Compile.Steps

/-!
# Programs of a good form

A program has a good form when it begins with `init`, ends with its only `halt`, jumps only to instructions of its own
and gives out rows of one width. Steps that bind the labels they make, jump to labels they know and append no other
jumps build such a program, once a `halt` ends it.

* `Program.WellFormed` — the form of a finished program.
* `Rules.formed` — the rules of such programs; no error is a fault of the compiler.
* `Emit.build_formed` — steps that obey these rules build a program of a good form.
-/

namespace QueryMachine

/-! ## Rules -/

/-- The instruction does not jump, does not end the program, and gives out rows of `width` columns. -/
structure Instruction.Inner (width : Int) (i : Instruction) : Prop where
  jump : i.jumpTarget? = none
  halt : i.opcode ≠ .halt
  row : i.opcode = .resultRow → i.p2 = width

theorem Instruction.inner_of_role {width : Int} {i : Instruction} (hjump : i.jumpTarget? = none)
    (hstop : i.opcode.role ≠ .stop) (hrow : i.opcode.role ≠ .row) : i.Inner width :=
  ⟨hjump, fun h => hstop (by rw [h]), fun h => (hrow (by rw [h])).elim⟩

theorem Instruction.jumpTarget?_of_role {i : Instruction} (h : i.opcode.role ≠ .branch) : i.jumpTarget? = none := by
  have hjump : i.opcode.isJump = false := by
    rw [Opcode.isJump_eq, beq_eq_false_iff_ne]
    exact h
  rw [jumpTarget?, hjump]
  rfl

namespace Rules

/-- No instruction jumps or stops but through labels and at the end, and rows have the width. -/
def formed (width : Int) : Rules where
  admits := Instruction.Inner width
  reads _ := False
  raises := Error.Ordinary
  straight h := Instruction.inner_of_role h.1 (by rcases h.2 with h | h <;> simp [h]) (by rcases h.2 with h | h <;> simp [h])
  reports h _ := h

variable {width : Int}

instance : Free (formed width) := ⟨fun _ => id⟩

instance : Writes (formed width) :=
  ⟨fun h _ => Instruction.inner_of_role (Instruction.jumpTarget?_of_role (by simp [h])) (by simp [h]) (by simp [h])⟩

instance : Trees (formed width) :=
  ⟨fun h => Instruction.inner_of_role (Instruction.jumpTarget?_of_role (by simp [h])) (by simp [h]) (by simp [h])⟩

instance : Rows (formed width) width := ⟨fun _ => ⟨rfl, nofun, fun _ => rfl⟩⟩

theorem Loads.of_sized {bindings : Bindings} {es : List Resolved} (h : ∀ e ∈ es, e.SizedPlaces) :
    (formed width).Loads bindings es := ⟨⟨.inl h⟩, .inr fun _ => nofun⟩

end Rules

/-! ## Finished programs -/

/-- The program begins with `init`, ends with its only `halt`, and jumps only to instructions of its
own. -/
structure Program.WellFormed (p : Program) : Prop where
  first : p.code[0]?.map (·.opcode) = some .init
  last : p.code.back?.map (·.opcode) = some .halt
  only : p.count .halt = 1
  jumps : p.jumpsInBounds = true

/-- Instructions that begin with `init`, do not stop, and jump among themselves or to the one after
them make a program, once a `halt` is put there. -/
theorem Program.wellFormed_of_push {p : Program} {inner : Array Instruction}
    (hcode : p.code = inner.push (.plain .halt 0 0 0))
    (hfirst : inner[0]?.map (·.opcode) = some .init)
    (hinner : ∀ i ∈ inner, i.opcode ≠ .halt ∧
      ∀ target, i.jumpTarget? = some target → 0 ≤ target ∧ target ≤ inner.size) : p.WellFormed where
  first := by
    have hpos : 0 < inner.size := by
      rcases Nat.eq_zero_or_pos inner.size with hzero | hpos
      · rw [Array.getElem?_eq_none (by omega)] at hfirst
        cases hfirst
      · exact hpos
    rw [hcode, Array.getElem?_push_lt hpos, ← Array.getElem?_eq_getElem hpos]
    exact hfirst
  last := by
    rw [hcode, Array.back?_push]
    rfl
  only := by
    have hnone : inner.toList.countP (fun i => i.opcode == .halt) = 0 := by
      refine List.countP_eq_zero.mpr fun i hi => ?_
      simpa using (hinner i (Array.mem_toList_iff.mp hi)).1
    rw [count, hcode, Array.toList_push, List.countP_append, hnone]
    rfl
  jumps := by
    rw [jumpsInBounds, List.all_eq_true, hcode]
    intro i hi
    rw [Array.toList_push, List.mem_append, List.mem_singleton] at hi
    split
    · rename_i target htarget
      rcases hi with hi | rfl
      · have hrange := (hinner i (Array.mem_toList_iff.mp hi)).2 target htarget
        simp only [Array.size_push, Bool.and_eq_true, decide_eq_true_eq]
        omega
      · cases htarget
    · rfl

namespace Builder

variable {R : Rules} {T : List Instruction} {b' : Builder} {width : Int} {reuse : Bool}

theorem Extends.finish_eq (h : (fresh reuse).Extends R [] [] T b') :
    b'.finish = .ok ⟨b'.code, b'.pool.count, b'.cursors⟩ := by
  have hbound : b'.unbound? = none := by
    refine List.find?_eq_none.mpr fun l hl => ?_
    obtain ⟨a, ha, -⟩ := h.bound l (List.mem_range.mp hl) (.inl (Nat.zero_le _))
    simp [ha]
  simp only [Builder.finish, hbound]
  rfl

/-- What a draft becomes when all labels are bound. -/
theorem Extends.resolved (h : (fresh reuse).Extends R [] [] T b') {d : Draft}
    (hd : d.Obeys (.formed width) b'.labels.size) :
    (b'.resolve d).opcode ≠ .halt ∧ ((b'.resolve d).opcode = .resultRow → (b'.resolve d).p2 = width) ∧
      ∀ target, (b'.resolve d).jumpTarget? = some target → 0 ≤ target ∧ target + T.length ≤ b'.address := by
  unfold Draft.Obeys at hd
  split at hd
  · rename_i l hl
    obtain ⟨a, ha, hle⟩ := h.bound l hd.1 (.inl (Nat.zero_le _))
    have hresolve : b'.resolve d = { d.instruction with p2 := a } := by simp only [resolve, hl, Option.bind_some, ha]
    rw [hresolve]
    refine ⟨fun hhalt => ?_, fun hrow => ?_, fun target hjump => ?_⟩
    · rw [hhalt] at hd
      cases hd.2
    · rw [hrow] at hd
      cases hd.2
    · unfold Instruction.jumpTarget? at hjump
      repeat' split at hjump
      all_goals cases hjump
      dsimp only
      omega
  · rename_i hl
    have hresolve : b'.resolve d = d.instruction := by simp only [resolve, hl, Option.bind_none]
    rw [hresolve]
    refine ⟨hd.halt, hd.row, fun target hjump => ?_⟩
    rw [hd.jump] at hjump
    cases hjump

/-- Code that begins with `init` and ends with `halt` has a good form. -/
theorem Extends.wellFormed (h : (fresh reuse).Extends (.formed width) [] [] [.plain .halt 0 0 0] b')
    (hfirst : b'.drafts[0]?.map (·.instruction.opcode) = some .init) {program : Program} (hprogram : program.code = b'.code) :
    program.WellFormed ∧ ∀ i ∈ program.code, i.opcode = .resultRow → i.p2 = width := by
  obtain ⟨more, hdrafts, hmore⟩ := h.code
  have hdrafts : b'.drafts.toList = more ++ [⟨.plain .halt 0 0 0, none⟩] := hdrafts
  have hcode : program.code = (more.map b'.resolve).toArray.push (.plain .halt 0 0 0) := by
    apply Array.toList_inj.mp
    rw [hprogram, Builder.code, Array.toList_map, hdrafts, List.map_append, Array.toList_push]
    rfl
  have hsize : (more.map b'.resolve).toArray.size + 1 = b'.address := by
    have := congrArg List.length hdrafts
    simpa [address] using this.symm
  have hinner : ∀ i ∈ (more.map b'.resolve).toArray, ∃ d ∈ more, b'.resolve d = i := fun i hi =>
    List.mem_map.mp (List.mem_toArray.mp hi)
  have hinit : (more.map b'.resolve).toArray[0]?.map (·.opcode) = some .init := by
    cases more with
    | nil =>
      rw [← Array.getElem?_toList, hdrafts] at hfirst
      cases hfirst
    | cons d more =>
      rw [← Array.getElem?_toList, hdrafts] at hfirst
      have hopcode : (b'.resolve d).opcode = d.instruction.opcode := by
        unfold resolve
        split <;> rfl
      simpa [hopcode] using hfirst
  refine ⟨Program.wellFormed_of_push hcode hinit fun i hi => ?_, fun i hi hrow => ?_⟩
  · obtain ⟨d, hd, rfl⟩ := hinner i hi
    obtain ⟨hhalt, -, hjumps⟩ := h.resolved (hmore d hd)
    refine ⟨hhalt, fun target htarget => ?_⟩
    have := hjumps target htarget
    simp only [List.length_singleton] at this
    omega
  · rcases Array.mem_push.mp (hcode ▸ hi) with hi | rfl
    · obtain ⟨d, hd, rfl⟩ := hinner i hi
      exact (h.resolved (hmore d hd)).2.1 hrow
    · cases hrow

end Builder

/-! ## Whole programs -/

namespace Emit

/-- Where there are no instructions yet, the step begins with `init`. -/
class Starts {α : Type} (m : Emit α) : Prop where
  starts : ∀ {b a b'}, m.Gives b a b' → b.Valid → b.drafts = #[] → b'.drafts[0]?.map (·.instruction.opcode) = some .init

variable {α : Type} {m : Emit α}

instance [hm : Builds .lax [] [] [] [.plain .halt 0 0 0] m] : Starts (emitInit >>= fun _ => m) where
  starts {b a b'} h hb hdrafts := by
    obtain ⟨_, b1, hinit, h⟩ := gives_bind.mp h
    have hvalid := (hinit.grows hb).valid
    simp only [emitInit, gives_bind, gives_newLabel, gives_jump, gives_bindHere] at hinit
    obtain ⟨_, _, ⟨rfl, rfl⟩, _, _, rfl, rfl⟩ := hinit
    obtain ⟨more, hcode, -⟩ := (hm.gives h (hvalid.ready fun _ _ => id)).code
    rw [← Array.getElem?_toList, hcode]
    simp [Builder.bindHere, Builder.bindTo, Builder.emitJump, Builder.newLabel, hdrafts]

instance {f : Int → Emit α} [hf : ∀ c, Starts (f c)] : Starts (newCursor >>= f) where
  starts h hb hdrafts := by
    obtain ⟨c, b1, hcursor, h⟩ := gives_bind.mp h
    obtain ⟨-, rfl⟩ := gives_newCursor.mp hcursor
    exact (hf c).starts h hb hdrafts

instance {c : Prop} [Decidable c] {m n : Emit α} [hm : Starts m] [hn : Starts n] : Starts (if c then m else n) := by
  split
  · exact hm
  · exact hn

/-- **Steps that obey the rules build a program of a good form**, or fail with an ordinary error. -/
theorem build_formed {width : Int} {reuse : Bool} {P : α → Prop} [hs : Starts m]
    (hm : Builds (.formed width) [] [] [] [.plain .halt 0 0 0] m)
    (hP : ∀ {a b'}, m.Gives (Builder.fresh reuse) a b' → P a) :
    Except.Ends (Emit.build reuse m) fun built => P built.2 ∧ built.1.WellFormed ∧
      ∀ i ∈ built.1.code, i.opcode = .resultRow → i.p2 = width := by
  have hready : (Builder.fresh reuse).Ready (.formed width) [] [] :=
    (Builder.valid_fresh reuse).ready fun _ _ => id
  unfold Emit.build
  cases hrun : m.run (Builder.fresh reuse) with
  | error e b' => exact hm.fails ⟨b', hrun⟩ hready
  | ok a b' =>
    have hext := hm.gives hrun hready
    simp only [hext.finish_eq]
    exact ⟨hP hrun, hext.wellFormed (hs.starts hrun hready.valid rfl) rfl⟩

end Emit

end QueryMachine
