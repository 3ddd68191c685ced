import QueryMachine.Proofs.Database.Maintenance
import QueryMachine.Proofs.Query.Twin

/-!
# Handing out temporaries again

Whether temporaries that were given back are handed out again shows in the registers of a program only: the
compiler gives the same error, or programs that differ in nothing but their registers and that do the same on every
database.

* `Statement.reuse_unobservable` — that, for every statement and for queries with the names of their columns.
-/

namespace QueryMachine

open Emit Builder

/-- No registers correspond. -/
def Ties.none : Ties := ⟨fun _ _ => False, fun _ _ => False⟩

theorem Emit.build_both {α : Type} {m : Emit α} (h : Twins Ties.none m m Equal) :
    Except.Both (fun x x' => x.1.Twin x'.1 ∧ x'.2 = x.2) (build false m) (build true m) := by
  have := h.meets _ _ (twin_fresh true)
  simp only [build, EStateM.run]
  revert this
  rcases m (Builder.fresh false) with ⟨a, b⟩ | ⟨e, b⟩ <;> rcases m (Builder.fresh true) with ⟨a', b'⟩ | ⟨e', b'⟩
  · rintro ⟨x, rfl, hb⟩
    have := hb.finish
    revert this
    dsimp only
    cases b.finish <;> cases b'.finish
    · exact id
    · exact id
    · exact id
    · exact fun h => ⟨h, rfl⟩
  · exact False.elim
  · exact False.elim
  · exact id

/-- A statement that was found right is compiled. -/
theorem Emit.compile_both {α : Type} {x : Except Error α} {m : α → Emit Unit} (h : ∀ a, x = .ok a → Twins Ties.none (m a) (m a) Equal) :
    Except.Both Program.Twin (do let a ← x; let (program, ()) ← build false (m a); pure program)
      (do let a ← x; let (program, ()) ← build true (m a); pure program) := by
  cases x with
  | error e => exact rfl
  | ok a =>
    have := build_both (h a rfl)
    revert this
    change _ → Except.Both _ (build false (m a) >>= fun y => pure y.1) (build true (m a) >>= fun y => pure y.1)
    cases build false (m a) <;> cases build true (m a)
    · exact id
    · exact id
    · exact id
    · exact And.left

variable (schema : Schema) (options : Options)

theorem compileQuery_both (q : Query) :
    Except.Both (fun x x' => x.1.Twin x'.1 ∧ x'.2 = x.2) (compileQuery schema { options with reuseTemps := false } q)
      (compileQuery schema { options with reuseTemps := true } q) := by
  refine build_both ?_
  infer_instance

theorem Statement.compile_both (s : Statement) : Except.Both Program.Twin (s.compile schema { options with reuseTemps := false })
    (s.compile schema { options with reuseTemps := true }) := by
  cases s with
  | select q =>
    have := compileQuery_both schema options q
    revert this
    simp only [Statement.compile]
    cases compileQuery schema { options with reuseTemps := false } q <;>
      cases compileQuery schema { options with reuseTemps := true } q
    · exact id
    · exact id
    · exact id
    · exact And.left
  | insert i => exact Emit.compile_both (x := i.validate schema) fun _ _ => inferInstance
  | update c => exact Emit.compile_both (x := c.validate schema) fun _ h => Change.emit_twins (Change.lt_of_validate h)
  | delete d =>
    simp only [Statement.compile, Deletion.compile]
    cases schema.lookup d.table with
    | error e => exact rfl
    | ok table =>
      exact Emit.compile_both (x := (Scope.single table 0).resolvePlain? d.filter)
        (m := fun filter => if d.clears options then Deletion.emitTruncate options table
          else Deletion.emitRows options table filter d.effectiveLimit?) fun _ _ => inferInstance
  | createTable t => exact Emit.compile_both (x := t.validate schema) fun _ _ => inferInstance
  | createIndex i =>
    refine Emit.compile_both (x := i.validate schema) fun table _ => ?_
    cases table <;> (dsimp only; infer_instance)

/-- **Whether temporaries are handed out again is unobservable**, for statements and for queries. -/
theorem Statement.reuse_unobservable :
    (∀ s : Statement, Except.Both Program.Twin (s.compile schema { options with reuseTemps := false })
      (s.compile schema { options with reuseTemps := true })) ∧
    ∀ q : Query, Except.Both (fun x x' => x.1.Twin x'.1 ∧ x'.2 = x.2)
      (compileQuery schema { options with reuseTemps := false } q)
      (compileQuery schema { options with reuseTemps := true } q) :=
  ⟨Statement.compile_both schema options, compileQuery_both schema options⟩

end QueryMachine
