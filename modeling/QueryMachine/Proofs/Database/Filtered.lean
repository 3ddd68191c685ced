import QueryMachine.Proofs.Database.Effect
import QueryMachine.Proofs.Database.Removal
import QueryMachine.Proofs.Query.Select

/-!
# The rows that a DELETE row by row leaves

Both passes together delete the first rows that the filter lets pass, as far as the limit goes, and no
others. Which rows pass is settled in the first pass, when nothing is deleted yet.

* `Deletion.passing` — the rows to delete, told from the table as it was.
* `Database.delete_filtered` — the table after the statement.
* `Database.delete_filtered_interrupted` — a table whose tree is an index, where nothing is deleted.
-/

namespace QueryMachine

namespace Deletion

variable {filter : Option Resolved} {rows : List (Int64 × Bytes)}

/-- The rows to delete: those that pass, from the first on and as far as the limit goes. A negative limit
is none. -/
def passing (filter : Option Resolved) (limit : Option Int64) (rows : List (Int64 × Bytes)) :
    List (Int64 × Bytes) :=
  let matching := rows.filter fun row => Expr.holds (Rows.entry row).read filter
  match limit with
  | none => matching
  | some n => if 0 ≤ n.toInt then matching.take n.toInt.toNat else matching

theorem passing_sublist (limit : Option Int64) : (passing filter limit rows).Sublist rows := by
  unfold passing
  cases limit with
  | none => exact List.filter_sublist
  | some n =>
    dsimp only
    split
    · exact (List.take_sublist _ _).trans List.filter_sublist
    · exact List.filter_sublist

theorem chosen_eq_passing (d : Deletion) : chosen filter (d.effectiveLimit?.map fun n => n.toInt.toNat) rows =
      (passing filter d.limit rows).map (·.1) := by
  unfold chosen passing effectiveLimit?
  cases d.limit with
  | none => simp [Window.apply]
  | some n =>
    by_cases hn : 0 ≤ n.toInt
    · simp [Window.apply, Option.filter, hn]
    · simp [Window.apply, Option.filter, hn]

/-- In a table that is in the order of its rowids, deleting by rowid deletes just the rows meant. -/
theorem remaining_eq_filter (d : Deletion) (hrows : Rows.Ascending rows) :
    remaining filter (d.effectiveLimit?.map fun n => n.toInt.toNat) rows =
      rows.filter (· ∉ passing filter d.limit rows) := by
  unfold remaining
  rw [chosen_eq_passing]
  refine List.filter_congr fun row hrow => decide_eq_decide.mpr (not_congr ?_)
  constructor
  · intro hin
    obtain ⟨row', hpassing, hid⟩ := List.mem_map.mp hin
    have hrow' := (passing_sublist d.limit).subset hpassing
    have hsame : row'.2 = row.2 := by
      have hget := (Rows.get?_eq_some hrows).mpr hrow'
      rw [hid, (Rows.get?_eq_some hrows).mpr hrow] at hget
      exact (Option.some.inj hget).symm
    rwa [← Prod.ext hid hsame]
  · exact List.mem_map_of_mem

end Deletion

namespace Database

variable {db db' : Database} {d : Deletion} {answer : Answer} {table : Table}
  {rows : List (Int64 × Bytes)}

/-- **A DELETE row by row deletes exactly the first rows that pass**, as far as its limit goes: every other
row stays, byte for byte. -/
theorem delete_filtered (hdb : db.Reachable) (hpasses : d.clears db.options = false)
    (hlookup : db.schema.lookup d.table = .ok table)
    (htree : db.store.tree? table.root = some (.table rows))
    (hrun : db.execute (.delete d) = (.ok answer, db')) :
    Rows.Ascending rows ∧ ∃ filter, (Scope.single table 0).resolvePlain? d.filter = .ok filter ∧
      db'.store.tree? table.root =
        some (.table (rows.filter (· ∉ Deletion.passing filter d.limit rows))) := by
  obtain ⟨program, columns, hcompile, hmachine, -⟩ := execute_ok hrun
  obtain ⟨table', filter, final, hlookup', hfilter, hgives, hcode⟩ :=
    Deletion.compile_gives (compile_of_compile hcompile nofun)
  cases hlookup.symm.trans hlookup'
  rw [hpasses, if_neg Bool.false_ne_true] at hgives
  have hrows := hdb.ascending _ _ htree
  have hwritten := Deletion.emitRows_writes hgives hcode hmachine
    (fun n hn => Deletion.effectiveLimit?_nonneg hn) htree hrows
  refine ⟨hrows, filter, hfilter, ?_⟩
  rw [hwritten.tree, Deletion.remaining_eq_filter d hrows]

/-- The first row of a table of three whose text is not before `a`. -/
def firstLetter : Deletion := ⟨"t", some (.binary .ge (.ref (.column none "a")) (.lit (.text "a"))), some 1⟩

/-- Two rows pass, the limit keeps the second, and the row with NULL does not pass. -/
theorem delete_filtered_letters : letters.Reachable ∧ ∃ answer db',
    letters.execute (.delete firstLetter) = (.ok answer, db') ∧
      db'.store.tree? 2 = some (.table [(2, [2, 15, 97]), (3, [2, 0])]) := by
  refine ⟨reachable_letters, ?_⟩
  have htree : letters.store.tree? 2 = some (.table [(1, [2, 15, 98]), (2, [2, 15, 97]), (3, [2, 0])]) := by
    decide +kernel
  have hresult : (letters.execute (.delete firstLetter)).1.toBool = true := by decide +kernel
  rcases hrun : letters.execute (.delete firstLetter) with ⟨result, db'⟩
  rw [hrun] at hresult
  cases result with
  | error f => cases hresult
  | ok answer =>
    obtain ⟨-, filter, hfilter, htree'⟩ := delete_filtered reachable_letters (by decide) lookup_letters htree hrun
    refine ⟨answer, db', rfl, htree'.trans (congrArg _ (congrArg _ ?_))⟩
    obtain rfl : filter = some (.binary .ge (.ref (.field 0 0)) (.lit (.text "a"))) := by
      cases hfilter
      rfl
    decide +kernel

/-! ## A table that is no table -/

/-- Every row of `x`. -/
def everyRow : Deletion := ⟨"x", some (.lit (.int 1)), none⟩

/-- The table `x` has the tree of an index. Its three rows pass, the statement succeeds, and all of them are
still there. -/
theorem delete_filtered_interrupted : interrupted.Reachable ∧ everyRow.clears interrupted.options = false ∧
    ∃ answer db', interrupted.execute (.delete everyRow) = (.ok answer, db') ∧
      (interrupted.execute (.select .wholeTable)).1.toOption.map (·.execution.rows) =
        some #[[.int 3, .null], [.int 2, .text "a"], [.int 1, .text "b"]] ∧
      (db'.execute (.select .wholeTable)).1.toOption.map (·.execution.rows) =
        some #[[.int 3, .null], [.int 2, .text "a"], [.int 1, .text "b"]] := by
  refine ⟨.execute (.limit (.execute (.limit reachable_letters 30) _) _) _, by decide +kernel, ?_⟩
  have hresult : (interrupted.execute (.delete everyRow)).1.toBool = true := by decide +kernel
  have hafter : ((interrupted.execute (.delete everyRow)).2.execute (.select .wholeTable)).1.toOption.map
      (·.execution.rows) = some #[[.int 3, .null], [.int 2, .text "a"], [.int 1, .text "b"]] := by
    decide +kernel
  rcases hrun : interrupted.execute (.delete everyRow) with ⟨result, db'⟩
  rw [hrun] at hresult hafter
  cases result with
  | error f => cases hresult
  | ok answer => exact ⟨answer, db', rfl, by decide +kernel, hafter⟩

end Database

end QueryMachine
