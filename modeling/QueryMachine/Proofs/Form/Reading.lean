import QueryMachine.Proofs.Compile.Whole
import QueryMachine.Proofs.Machine.Footprint
import QueryMachine.Proofs.Query.Resolution
import QueryMachine.Proofs.Query.Steps

/-!
# The trees that compiled code touches

A statement that writes opens and clears the trees of its table only. All cursors on the tables of the database
are handed out while a query is planned, before any other. What a query writes goes through cursors that it is given
later on, which stand for trees of its own. So a query leaves the trees of the database as they are, whatever it does
and wherever it is cut off.

* `Footprint.rules`, `Emit.Builds.within` — keeping to a footprint.
* `compileQuery_within` — the code of a query writes through later cursors only.
-/

namespace QueryMachine

open Emit

/-! ## Keeping to a footprint -/

/-- The roots of a table and of its indexes. -/
def Table.roots (table : Table) : List Int := table.root :: table.indexes.map (·.root)

theorem Table.touched_subset (table : Table) (options : Options) : table.touched options ⊆ table.roots := by
  unfold touched roots
  split
  · exact List.Subset.refl _
  · exact List.cons_subset_cons _ (List.nil_subset _)

variable {F : Footprint} {b b' : Builder} {schema : Schema} {plans : List Plan}

theorem Instruction.within_of_role {i : Instruction} (h : i.opcode.role ≠ .change) (h' : i.opcode.role ≠ .tree) :
    i.Within F := by
  unfold Within
  split
  case h_9 => trivial
  all_goals
    rename_i hopcode
    simp [hopcode] at h h'

/-- The instructions keep to a footprint. -/
def Footprint.rules (F : Footprint) : Rules where
  admits := Instruction.Within F
  reads := F.reads
  raises _ := True
  straight h := Instruction.within_of_role (by rcases h.2 with h | h <;> simp [h]) (by rcases h.2 with h | h <;> simp [h])
  reports _ _ := trivial

namespace Rules

variable {F : Footprint} {roots : List Int}

instance : Tolerant F.rules := ⟨fun _ => trivial⟩

instance : Writes F.rules where
  writes {i} hi h := by
    show i.Within F
    unfold Instruction.Within
    split
    case h_3 | h_4 | h_5 | h_6 => exact h
    case h_9 => trivial
    all_goals
      rename_i hopcode
      simp [hopcode] at hi

instance {width : Int} : Rows F.rules width := ⟨fun _ => trivial⟩

instance : Free (Footprint.changing roots).rules := ⟨fun _ => not_false⟩

instance : Free (Footprint.editing roots).rules := ⟨fun _ => not_false⟩

instance : Clears (Footprint.changing roots).rules roots := ⟨fun _ hroot _ => ⟨rfl, hroot⟩⟩

theorem opens_of_subset (h : roots ⊆ F.roots) : Opens F.rules roots :=
  ⟨fun _ hroot _ _ => ⟨(by decide : ((0 : UInt8) &&& Flag.rootInRegister != 0) = false), h hroot⟩⟩

instance : Opens (Footprint.changing roots).rules roots := opens_of_subset (List.Subset.refl _)

instance : Opens (Footprint.editing roots).rules roots := opens_of_subset (List.Subset.refl _)

end Rules

/-- The drafts keep to the footprint, whatever their labels come to stand for. -/
def Builder.Within (F : Footprint) (b : Builder) : Prop := ∀ d ∈ b.drafts.toList, ∀ final : Builder, (final.resolve d).Within F

theorem Builder.Within.code (h : b.Within F) : ∀ i ∈ b.code, i.Within F := by
  intro i hi
  rw [Builder.code, Array.mem_map] at hi
  obtain ⟨d, hd, rfl⟩ := hi
  exact h d (Array.mem_toList_iff.mpr hd) b

theorem Draft.Obeys.within {known : Nat} {d : Draft} (h : d.Obeys F.rules known) (final : Builder) :
    (final.resolve d).Within F := by
  unfold Obeys at h
  unfold Builder.resolve
  cases hl : d.label with
  | none =>
    rw [hl] at h
    exact h
  | some l =>
    rw [hl] at h
    have hrole : ∀ i : Instruction, i.opcode = d.instruction.opcode → i.Within F := fun i hi =>
      Instruction.within_of_role (by simp [hi, h.2]) (by simp [hi, h.2])
    split
    · exact hrole _ rfl
    · exact hrole _ rfl

theorem Builder.Extends.within {L : List Label} {G : List Int} {T : List Instruction} (h : b.Extends F.rules L G T b')
    (hb : b.Within F) (hT : ∀ i ∈ T, i.Within F) : b'.Within F := by
  obtain ⟨more, hcode, hmore⟩ := h.code
  intro d hd
  rw [hcode] at hd
  simp only [List.mem_append, List.mem_map] at hd
  rcases hd with hd | hd | ⟨i, hi, rfl⟩
  · exact hb d hd
  · exact (hmore d hd).within
  · exact fun _ => hT i hi

/-- Finished code does what its steps may do. -/
theorem Emit.Builds.within {α : Type} {m : Emit α} {reuse : Bool} {final : Builder} {a : α}
    (h : Builds F.rules [] [] [] [.plain .halt 0 0 0] m) [hfree : F.rules.Free]
    (hgives : m.Gives (Builder.fresh reuse) a final) : ∀ i ∈ final.code, i.Within F := by
  have hready : (Builder.fresh reuse).Ready F.rules [] [] :=
    (Builder.valid_fresh reuse).ready fun c _ => hfree.free c
  exact ((h.gives hgives hready).within (List.forall_mem_nil _) (List.forall_mem_singleton.mpr trivial)).code

/-! ## Queries -/

/-- Planning hands out cursors and writes no code. -/
structure Planned (b b' : Builder) (plans : List Plan) : Prop where
  drafts : b'.drafts = b.drafts
  cursors : b.cursors ≤ b'.cursors
  sources : ∀ p ∈ plans, ∀ k ∈ p.cursors, k < b'.cursors

theorem planSelection_planned {s : Selection} {orderBy : List OrderingTerm} {limit : Option LimitClause}
    (h : (planSelection schema s orderBy limit).Gives b p b') : Planned b b' [p] := by
  obtain ⟨scope, hover, hplan, rfl⟩ := Scope.planSelection_gives h
  refine ⟨rfl, Int.le_add_of_nonneg_right (Int.natCast_nonneg _), fun p' hp' k hk => ?_⟩
  obtain rfl := List.mem_singleton.mp hp'
  rw [Scope.plan_cursors hplan] at hk
  exact ((Scope.cursors_over hover).2 k hk).2

theorem Planned.trans {b1 : Builder} {more : List Plan} (h : Planned b b1 plans) (k : Planned b1 b' more) :
    Planned b b' (plans ++ more) where
  drafts := k.drafts.trans h.drafts
  cursors := Int.le_trans h.cursors k.cursors
  sources p hp c hc := by
    rcases List.mem_append.mp hp with hp | hp
    · exact Int.lt_of_lt_of_le (h.sources p hp c hc) k.cursors
    · exact k.sources p hp c hc

theorem Compound.planArms_planned {width : Nat} {arms : List (CompoundOp × Selection)}
    (h : (planArms schema width arms).Gives b plans b') : Planned b b' plans := by
  induction arms generalizing b plans with
  | nil =>
    obtain ⟨rfl, rfl⟩ := gives_pure.mp h
    exact ⟨rfl, Int.le_refl _, nofun⟩
  | cons arm arms ih =>
    obtain ⟨p, b1, hp, h⟩ := gives_bind.mp h
    split at h
    · obtain ⟨more, b2, hmore, h⟩ := gives_bind.mp h
      obtain ⟨rfl, rfl⟩ := gives_pure.mp h
      exact (planSelection_planned hp).trans (ih hmore)
    · exact (gives_throw h).elim

theorem Planned.obeys (h : Planned b b' plans) :
    ∀ p ∈ plans, p.Obeys (Footprint.reading b'.cursors).rules := fun p hp =>
  ⟨fun _ hsource _ _ _ => ⟨(by decide : ((0 : UInt8) &&& Flag.rootInRegister != 0) = false),
    .inr (h.sources p hp _ (List.mem_map_of_mem hsource))⟩, inferInstance, inferInstance, .inr fun _ => trivial⟩

/-- Code that follows a plan keeps to what the plan opens. -/
theorem Planned.within {α : Type} {b1 : Builder} (h : Planned b b1 plans) (hb1 : b1.Valid) (hb : ∀ F, b.Within F)
    {m : Emit α} {a : α} (hm : Obeys (Footprint.reading b1.cursors).rules [] m) (hgives : m.Gives b1 a b') :
    b'.Within (.reading b1.cursors) := by
  have hready : b1.Ready (Footprint.reading b1.cursors).rules [] [] :=
    hb1.ready fun _ hle => Int.not_lt.mpr hle
  refine (hm.gives hgives hready).within ?_ (List.forall_mem_nil _)
  unfold Builder.Within
  rw [h.drafts]
  exact hb _

/-- **The code of a query writes through no cursor on a table of the database.** -/
theorem compileQuery_within {options : Options} {q : Query} {program : Program} {names : List String}
    (h : compileQuery schema options q = .ok (program, names)) :
    ∃ cursors, ∀ i ∈ program.code, i.Within (.reading cursors) := by
  obtain ⟨final, hgives, hcode⟩ := Emit.build_gives h
  obtain ⟨_, b1, hinit, hgives⟩ := gives_bind.mp hgives
  obtain ⟨_, b2, hquery, hgives⟩ := gives_bind.mp hgives
  have hvalid := (hinit.grows (Builder.valid_fresh _)).valid
  have hb1 : ∀ F, b1.Within F := by
    simp only [emitInit, gives_bind, gives_newLabel, gives_jump, gives_bindHere] at hinit
    obtain ⟨start, _, ⟨rfl, rfl⟩, _, _, rfl, rfl⟩ := hinit
    intro F d hd
    obtain rfl := List.mem_singleton.mp hd
    have hobeys : Draft.Obeys F.rules 1 ⟨.plain .init 0 0 0, some 0⟩ := ⟨Nat.zero_lt_one, rfl⟩
    exact hobeys.within
  obtain ⟨cursors, hb2⟩ : ∃ cursors, b2.Within (.reading cursors) := by
    unfold emitQuery at hquery
    split at hquery
    · obtain ⟨p, b3, hplan, hquery⟩ := gives_bind.mp hquery
      have hplanned := planSelection_planned hplan
      have := hplanned.obeys p (List.mem_singleton.mpr rfl)
      exact ⟨b3.cursors, hplanned.within (hplan.grows hvalid).valid hb1 inferInstance hquery⟩
    · unfold Compound.emit at hquery
      split at hquery
      · exact (gives_throw hquery).elim
      · obtain ⟨first, b3, hfirst, hquery⟩ := gives_bind.mp hquery
        obtain ⟨arms, b4, harms, hquery⟩ := gives_bind.mp hquery
        have hplanned := (planSelection_planned hfirst).trans (Compound.planArms_planned harms)
        obtain ⟨columns, b5, hcolumns, hquery⟩ := gives_bind.mp hquery
        obtain ⟨⟨limit, offset⟩, b6, hwindow, hrows⟩ := gives_bind.mp hquery
        obtain ⟨-, rfl⟩ := gives_check.mp hcolumns
        obtain ⟨-, rfl⟩ := gives_check.mp hwindow
        have hrest := Compound.emitRest_obeys (d := .output) (K := []) first.names hplanned.obeys
          (Compound.unionReach q.arms) columns limit offset inferInstance inferInstance
        exact ⟨b6.cursors, hplanned.within (harms.grows (hfirst.grows hvalid).valid).valid hb1 hrest hrows⟩
  obtain ⟨_, b3, hhalt, hgives⟩ := gives_bind.mp hgives
  obtain ⟨-, rfl⟩ := gives_pure.mp hgives
  refine ⟨cursors, hcode ▸ Builder.Within.code fun d hd => ?_⟩
  rw [gives_op.mp hhalt, Builder.emit, Array.toList_push, List.mem_append] at hd
  rcases hd with hd | hd
  · exact hb2 d hd
  · rw [List.mem_singleton.mp hd]
    exact fun _ => trivial

end QueryMachine
