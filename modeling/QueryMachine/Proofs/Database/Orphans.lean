import QueryMachine.Proofs.Database.Filtered

/-!
# A DELETE leaves no orphans

With foreign keys on, each row is checked just before it is deleted. The child table may be the table
itself, which loses rows as the statement goes on; a row that refers to another may be deleted before it.
At the end no row that is left refers to one that is gone.

* `Database.delete_leaves_no_orphan` — what is left of the child tables.
-/

namespace QueryMachine

theorem Text.sameName_trans {a b c : String} (h : sameName a b = true) (h' : sameName b c = true) :
    sameName a c = true := by
  simp only [sameName, beq_iff_eq] at *
  exact h.trans h'

theorem Text.sameName_comm (a b : String) : sameName a b = sameName b a := by
  simp only [sameName]
  exact Bool.beq_comm

theorem Schema.sameName_of_lookup {schema : Schema} {name : String} {table : Table}
    (h : schema.lookup name = .ok table) : Text.sameName table.name name = true := by
  have hfound : schema.find? (fun t => Text.sameName t.name name) = some table := table?_of_lookup h
  simpa using List.find?_some hfound

namespace Database

variable {db db' : Database} {d : Deletion} {answer : Answer}

/-- **With foreign keys on, no row refers to a row that a DELETE deleted**, whichever rows it deletes and
whatever tables refer to the one it deletes from. -/
theorem delete_leaves_no_orphan (hdb : db.Reachable) (hforeign : db.options.foreignKeys = true)
    (hrun : db.execute (.delete d) = (.ok answer, db')) :
    ∃ table, db.schema.lookup d.table = .ok table ∧
      ∀ row ∈ db.store.rows table.root, row ∉ db'.store.rows table.root → ∀ key ∈ db'.foreignKeys,
        Text.sameName key.parent d.table = true → db'.store.Unreferenced db'.schema key row.1 := by
  obtain ⟨program, columns, hcompile, hmachine, hschema, hdb'⟩ := execute_ok hrun
  obtain ⟨table, filter, final, hlookup, -, hgives, hcode⟩ :=
    Deletion.compile_gives (compile_of_compile hcompile nofun)
  have hclears : d.clears db.options = false := by simp [Deletion.clears, hforeign]
  rw [hclears, if_neg Bool.false_ne_true] at hgives
  refine ⟨table, hlookup, fun row hrow hgone key hkey hparent => ?_⟩
  unfold Store.rows at hrow
  split at hrow
  · rename_i rows htree
    obtain ⟨hwritten, hpurged⟩ := Deletion.emitRows_deletes hgives hcode hmachine
      (fun n hn => Deletion.effectiveLimit?_nonneg hn) htree (hdb.ascending _ _ htree)
    have hchosen : row.1 ∈ Deletion.chosen filter (d.effectiveLimit?.map fun n => n.toInt.toNat) rows := by
      by_contra hkept
      refine hgone ?_
      rw [Store.rows_eq hwritten.tree]
      exact List.mem_filter.mpr ⟨hrow, by simpa using hkept⟩
    have hname := Text.sameName_trans hparent
      ((Text.sameName_comm ..).trans (Schema.sameName_of_lookup hlookup))
    rw [← Except.ok.inj hschema]
    rw [hdb'] at hkey
    exact hpurged.free hforeign row.1 hchosen key hkey hname
  · cases hrow

/-- Rows that refer to rows of the same table: the first to the second, the third to itself. -/
def circular : Database :=
  let db := ((empty { Options.standard with foreignKeys := true }).execute
    (.createTable ⟨"p", [⟨"a", "INTEGER", false, false⟩], false⟩)).2
  let db := db.addForeignKey ⟨"P", "p", "a"⟩
  (db.execute (.insert ⟨"p", [], [[.lit (.int 2)], [.lit .null], [.lit (.int 3)]]⟩)).2

theorem reachable_circular : circular.Reachable := .execute (.addForeignKey (.execute (.empty _) _) _) _

/-- The second row can be deleted once the first is gone; the third row, which would stop the statement, is
beyond the limit. -/
theorem delete_leaves_no_orphan_circular : circular.Reachable ∧ circular.options.foreignKeys = true ∧
    ∃ answer db', circular.execute (.delete ⟨"p", none, some 2⟩) = (.ok answer, db') ∧
      db'.store.Unreferenced db'.schema ⟨"P", "p", "a"⟩ 2 := by
  have hlookup : circular.schema.lookup "p" =
      .ok ⟨"p", 2, [⟨"a", "INTEGER", .integer, false, false, none⟩], [], []⟩ := by decide +kernel
  have hbefore : (2, [2, 0]) ∈ circular.store.rows 2 := by decide +kernel
  have hresult : (circular.execute (.delete ⟨"p", none, some 2⟩)).1.toBool = true := by decide +kernel
  have hafter : (2, [2, 0]) ∉ (circular.execute (.delete ⟨"p", none, some 2⟩)).2.store.rows 2 := by
    decide +kernel
  have hkey : ⟨"P", "p", "a"⟩ ∈ (circular.execute (.delete ⟨"p", none, some 2⟩)).2.foreignKeys := by
    decide +kernel
  have hforeign : circular.options.foreignKeys = true := by decide +kernel
  refine ⟨reachable_circular, hforeign, ?_⟩
  rcases hrun : circular.execute (.delete ⟨"p", none, some 2⟩) with ⟨result, db'⟩
  rw [hrun] at hresult hafter hkey
  cases result with
  | error f => cases hresult
  | ok answer =>
    obtain ⟨table, htable, horphans⟩ := delete_leaves_no_orphan reachable_circular hforeign hrun
    cases hlookup.symm.trans htable
    exact ⟨answer, db', rfl, horphans (2, [2, 0]) hbefore hafter ⟨"P", "p", "a"⟩ hkey (by decide)⟩

end Database

end QueryMachine
