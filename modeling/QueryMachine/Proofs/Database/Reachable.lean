import QueryMachine.Database
import QueryMachine.Proofs.Tree

/-!
# Databases that can come about

Statements and programs, whether or not they succeed, and settings lead from one database to the
next. What they do to the trees is a sequence of changes, so whatever every change keeps holds of
every database that can come about.

* `Database.Reachable` — the databases that can come about.
* `Database.Reachable.ascending` — every table is in the order of its rowids.
-/

namespace QueryMachine.Database

variable {db : Database}

/-- The fault that a statement ends with. -/
def fault? : Except Fault Answer → Option Fault
  | .error f => some f
  | .ok _ => none

theorem run_changes (db : Database) (p : Program) : Store.Changes db.store (db.run p).2.store :=
  Machine.run_changes _ _

/-- A statement changes trees by its program only. -/
theorem execute_changes (db : Database) (statement : Statement) :
    Store.Changes db.store (db.execute statement).2.store := by
  unfold execute
  split
  · exact .refl
  · rename_i program columns _
    have hchanges := run_changes db program
    split
    · rename_i hrun
      rw [hrun] at hchanges
      exact hchanges
    · rename_i hrun
      rw [hrun] at hchanges
      split <;> exact hchanges

/-- A database that comes about from an empty one. -/
inductive Reachable : Database → Prop
  | empty (options : Options) : Reachable (empty options)
  | execute {db : Database} (h : Reachable db) (statement : Statement) :
      Reachable (db.execute statement).2
  | run {db : Database} (h : Reachable db) (p : Program) : Reachable (db.run p).2
  | addForeignKey {db : Database} (h : Reachable db) (key : ForeignKey) :
      Reachable (db.addForeignKey key)
  | configure {db : Database} (h : Reachable db) (options : Options) : Reachable { db with options }
  | limit {db : Database} (h : Reachable db) (stepLimit : Nat) : Reachable { db with stepLimit }

theorem ascending_empty (options : Options) : (empty options).store.Ascending := by
  intro root rows hroot
  by_cases hcatalog : root = Catalog.root
  · rw [hcatalog] at hroot
    have hempty : (empty options).store.tree? Catalog.root = some (.table []) :=
      Slots.get?_set_self ..
    cases hempty.symm.trans hroot
    exact .nil
  · have hnone : (empty options).store.tree? root = none := Slots.get?_set_of_ne _ _ hcatalog
    cases hnone.symm.trans hroot

/-- What the trees of an empty database have and a change keeps, they have in every database that can come about. -/
theorem Reachable.keeps {P : Store → Prop} (h : db.Reachable) (hempty : ∀ options, P (Database.empty options).store)
    (hchanges : ∀ {st st'}, P st → st.Changes st' → P st') : P db.store := by
  induction h with
  | empty options => exact hempty options
  | execute _ statement ih => exact hchanges ih (execute_changes _ statement)
  | run _ p ih => exact hchanges ih (run_changes _ p)
  | addForeignKey _ _ ih | configure _ _ ih | limit _ _ ih => exact ih

/-- **In every database that can come about, tables are in the order of their rowids.** -/
theorem Reachable.ascending (h : db.Reachable) : db.store.Ascending := h.keeps ascending_empty fun hst => hst.changes

end QueryMachine.Database
