import QueryMachine.Proofs.Database.Reachable
import QueryMachine.Proofs.Database.Writing
import QueryMachine.Proofs.Machine.Walk

/-!
# Two ways to build a key

A statement that writes a row builds the row's keys from the registers that the record was made of; one
that meets the row later builds them through the cursor. The record holds the values under the affinities
of their columns and the registers hold them as they were given, so the keys are the same exactly if the
affinities leave the indexed columns alone.

* `emitKey_walks` — the code of a key goes through, and leaves the key's record in its register.
* `RowStored` — a row has just been stored from registers.
* `RowStored.key_agrees_iff` — when both keys are the same.
* `Database.key_of_text` — keys that differ, and one that no DELETE finds.
-/

namespace QueryMachine

open Machine Emit

variable {env : Environment} {final b b' : Builder} {s s' : State} {table : Table} {source : KeySource}
  {e : Entry} {columns : List String} {c base rowid record : Int} {id : Int64} {values : List Value}

/-! ## The code of a key -/

/-- **The code of a key goes through**, wherever the row can be read and the key is not too long for a
record. -/
theorem emitKey_walks {r : Int} {bytes : Bytes} (h : (emitKey table columns source).Gives b r b') (hb : b.Valid)
    (hcode : env.code = final.code) (hend : b'.Begins final) (hreads : source.Reads table columns s e)
    (hdecodes : source.Decodes s) (huses : ∀ r, source.Uses table r → b.Holds r)
    (hencode : Record.encode (table.key columns e) = .ok bytes) :
    ∃ n s', Walks env n b.address s b'.address s' ∧ s'.get r = .blob bytes := by
  have hleads := emitKey_leads (σ := .strict final env hcode) h hb hend (.inr ⟨hdecodes, bytes, hencode⟩) hreads huses
  obtain ⟨n, pc, s', hwalks, ⟨rfl, -, bytes', hget, hencode'⟩ | ⟨f, hf, -⟩⟩ := Machine.Leads.walks hleads
  · cases hencode.symm.trans hencode'
    exact ⟨n, s', hwalks, hget⟩
  · exact hf.elim

/-! ## Equal keys -/

theorem Table.key_eq_key_stored_iff {index : Index} {values : List Value} (id : Int64) :
    table.key index.columns (id, values) = table.key index.columns (id, table.stored values) ↔
      table.Settled index values := by
  refine ⟨fun heq name hname i hi hrowid => ?_, fun h => h.key id⟩
  have hcolumns := List.append_inj_left' heq rfl
  have hread := List.map_inj_left.mp hcolumns name hname
  rw [Table.read_eq hi, Table.read_eq hi, if_neg (by simp [hrowid]), if_neg (by simp [hrowid]),
    Table.getD_stored] at hread
  exact hread.symm

theorem Record.encode_inj {values values' : List Value} {bytes bytes' : Bytes}
    (h : encode values = .ok bytes) (h' : encode values' = .ok bytes') : bytes = bytes' ↔ values = values' := by
  constructor
  · rintro rfl
    have hdecode := decode_encode h
    rw [decode_encode h'] at hdecode
    exact (Except.ok.inj hdecode).symm
  · rintro rfl
    exact Except.ok.inj (h.symm.trans h')

/-! ## A row that was just stored -/

/-- A row is stored from registers: its record is made of them under the affinities of the table, and
inserted under its rowid through a cursor of the table. -/
structure RowStored (env : Environment) (table : Table) (c base rowid record : Int) (id : Int64)
    (values : List Value) (s s' : State) : Prop where
  opened : ∃ position, s.cursors.get? c = some ⟨.stored table.root, position⟩
  key : s.get rowid = .int id
  fields : s.getBlock base table.columns.length = values
  stores : ∃ pc payload s1,
    execute env pc ⟨.makeRecord, base, table.columns.length, record, .affinity table.affinityCodes, 0⟩ s =
      .ok (.next, s1) ∧
    execute env (pc + 1) ⟨.insert, c, record, rowid, payload, 0⟩ s1 = .ok (.next, s')

theorem Rows.get?_put_self (id : Int64) (record : Bytes) (rows : List (Int64 × Bytes)) :
    get? (put id record rows) id = some record := by
  fun_induction put id record rows with
  | case1 => simp [get?]
  | case2 => simp [get?]
  | case3 => simp [get?]
  | case4 row rows _ hne ih =>
    obtain ⟨key, bytes⟩ := row
    simpa [get?, List.lookup_cons, show (id == key) = false from by simpa using hne] using ih

namespace RowStored

/-- The registers are as they were, and the cursor stands on the record. -/
theorem after (h : RowStored env table c base rowid record id values s s')
    (hregisters : RowRegisters b table rowid base record) :
    ∃ rows bytes, Record.decode bytes = .ok (table.stored values) ∧
      s'.cursors.get? c = some ⟨.stored table.root, some (.rowid id)⟩ ∧
      s'.store.tree? table.root = some (.table (Rows.put id bytes rows)) ∧
      s'.get rowid = .int id ∧ s'.getBlock base table.columns.length = values := by
  obtain ⟨position, hcursor⟩ := h.opened
  obtain ⟨pc, payload, s1, hmake, hinsert⟩ := h.stores
  have hstored : applyAffinities table.affinityCodes.toList (s.getBlock base table.columns.length) =
      table.stored values := by rw [h.fields, Table.stored]
  simp only [execute, makeRecord, hstored] at hmake
  cases hencode : Record.encode (table.stored values) with
  | error e =>
    rw [hencode] at hmake
    cases hmake
  | ok bytes =>
    rw [hencode] at hmake
    cases hmake
    have hrecord := hregisters.record_held.1
    have hlow := hregisters.rowid_lt
    have hhigh := hregisters.record_ge
    have hq : Quiet (fun r => 0 < r ∧ r ≠ record) (fun _ => True) s (s.set record (.blob bytes)) :=
      .set s _ fun r hr => hr
    have hrowid : (s.set record (.blob bytes)).get rowid = .int id :=
      (hq.get rowid ⟨hregisters.rowid_held.1, by omega⟩).trans h.key
    have hcursor1 : (s.set record (.blob bytes)).cursors.get? c = some ⟨.stored table.root, position⟩ :=
      (hq.cursors c trivial).trans hcursor
    simp only [execute, insertRow, State.getRecord, State.get_set_self, hrowid, State.tree, State.cursor,
      hcursor1, Value.toInt64, State.setTree] at hinsert
    split at hinsert
    · cases hinsert
    · rename_i rows htree
      cases hinsert
      let s2 : State := { s.set record (.blob bytes) with
        store := (s.set record (.blob bytes)).store.setTree table.root (.table (Rows.put id bytes rows)) }
      have hq2 := State.quiet_setPosition s2 c (some (.rowid id))
      refine ⟨rows, bytes, Record.decode_encode hencode, ?_, ?_, ?_, ?_⟩
      · rw [State.setPosition_eq (s := s2) hcursor1]
        exact Slots.get?_set_self ..
      · rw [hq2.store]
        exact Store.tree?_setTree_self ..
      · exact (hq2.get rowid trivial).trans hrowid
      · rw [hq2.toFrame.getBlock fun _ _ _ => trivial]
        have hblock : ∀ r, base ≤ r → r < base + table.columns.length → 0 < r ∧ r ≠ record :=
          fun r hle hlt => ⟨(hregisters.block_held r hle hlt).1, by omega⟩
        exact (hq.toFrame.getBlock hblock).trans h.fields
    · cases hinsert

/-- **When the two keys of a row agree.** A row was just stored. The code of a key from the registers and
the code of a key through the cursor both go through, and they leave the same key exactly if the affinities
of the indexed columns leave the row's values as they are. -/
theorem key_agrees_iff {index : Index} {b₁ b₁' b₂ b₂' : Builder} {r₁ r₂ : Int} {bytes₁ bytes₂ : Bytes}
    (h : RowStored env table c base rowid record id values s s') (hcode : env.code = final.code)
    (hregisters : RowRegisters b₁ table rowid base record) (hb₁ : b₁.Valid) (hb₂ : b₂.Valid)
    (hkey₁ : (emitKey table index.columns (.registers base rowid)).Gives b₁ r₁ b₁')
    (hkey₂ : (emitKey table index.columns (.row c)).Gives b₂ r₂ b₂')
    (hend₁ : b₁'.Begins final) (hend₂ : b₂'.Begins final)
    (hencode₁ : Record.encode (table.key index.columns (id, values)) = .ok bytes₁)
    (hencode₂ : Record.encode (table.key index.columns (id, table.stored values)) = .ok bytes₂) :
    ∃ n₁ s₁ n₂ s₂,
      Walks env n₁ b₁.address s' b₁'.address s₁ ∧ s₁.get r₁ = .blob bytes₁ ∧
      Walks env n₂ b₂.address s' b₂'.address s₂ ∧ s₂.get r₂ = .blob bytes₂ ∧
      (s₁.get r₁ = s₂.get r₂ ↔ table.Settled index values) := by
  obtain ⟨rows, bytes, hdecode, hcursor, htree, hrowid, hfields⟩ := h.after hregisters
  have hget : Rows.get? (Rows.put id bytes rows) id = some bytes := Rows.get?_put_self ..
  have hreads₁ : (KeySource.registers base rowid).Reads table index.columns s' (id, values) := by
    refine ⟨hrowid, fun name _ i hi _ => ?_⟩
    rw [← hfields, State.getD_getBlock _ _ (Table.lt_of_columnIndex? hi)]
  have hreads₂ : (KeySource.row c).Reads table index.columns s' (id, table.stored values) :=
    ⟨hcursor, _, htree, rfl, bytes, hget, by rw [hdecode]; rfl⟩
  have hdecodes₁ : (KeySource.registers base rowid).Decodes s' := by
    intro _ hsource
    cases hsource
  have hdecodes₂ : (KeySource.row c).Decodes s' := by
    rintro _ ⟨⟩ pc
    refine ⟨table.stored values, ?_⟩
    simp only [State.currentRow, State.cursor, State.tree, hcursor, htree, hget, hdecode, Fault.lift]
  have huses₁ : ∀ r, (KeySource.registers base rowid).Uses table r → b₁.Holds r := by
    rintro r (rfl | ⟨hle, hlt⟩)
    · exact hregisters.rowid_held
    · exact hregisters.block_held r hle hlt
  have huses₂ : ∀ r, (KeySource.row c).Uses table r → b₂.Holds r := fun _ huses => False.elim huses
  obtain ⟨n₁, s₁, hwalks₁, hget₁⟩ := emitKey_walks hkey₁ hb₁ hcode hend₁ hreads₁ hdecodes₁ huses₁ hencode₁
  obtain ⟨n₂, s₂, hwalks₂, hget₂⟩ := emitKey_walks hkey₂ hb₂ hcode hend₂ hreads₂ hdecodes₂ huses₂ hencode₂
  refine ⟨n₁, s₁, n₂, s₂, hwalks₁, hget₁, hwalks₂, hget₂, ?_⟩
  rw [hget₁, hget₂, Value.blob.injEq, Record.encode_inj hencode₁ hencode₂]
  exact Table.key_eq_key_stored_iff id

end RowStored

/-! ## A text in a column of integers -/

/-- A table with one column of integers and an index over it. -/
def integers : Table :=
  ⟨"t", 2, [⟨"a", "INTEGER", .integer, false, false, none⟩], [], [⟨"i", 3, ["a"], false⟩]⟩

/-- The table is open and empty, and the row `'5'` with the rowid 1 is in registers. -/
def fiveGiven : State :=
  (((State.start ((default : Store).setTree 2 .emptyTable)).openCursor 0 (.stored 2)).set 1 (.int 1)).set 2
    (.text "5")

/-- The row is stored, with the integer 5. -/
def fiveStored : State :=
  ({ fiveGiven.set 3 (.blob [2, 1, 5]) with
    store := fiveGiven.store.setTree 2 (.table [(1, [2, 1, 5])]) }).setPosition 0 (some (.rowid 1))

/-- Registers for a row of one column, then the code of its key from the registers, then that of its key
through the cursor. -/
def fiveBuilders : Builder × Builder × Builder :=
  let build := fun {α : Type} (m : Emit α) (b : Builder) =>
    match m.run b with
    | .ok _ b => b
    | .error _ b => b
  let row := build (do let _ ← register; let _ ← registers 1; register) (Builder.fresh false)
  let registers := build (emitKey integers ["a"] (.registers 2 1)) row
  (row, registers, build (emitKey integers ["a"] (.row 0)) registers)

/-- The environment of both. -/
def fiveEnvironment : Environment := ⟨fiveBuilders.2.2.code, [integers], [], 0⟩

/-- Of the text `'5'` the first key holds the text, and the second the integer that was stored. -/
theorem RowStored.key_agrees_iff_five :
    RowStored fiveEnvironment integers 0 2 1 3 1 [.text "5"] fiveGiven fiveStored ∧ ∃ n₁ s₁ n₂ s₂,
      Walks fiveEnvironment n₁ fiveBuilders.1.address fiveStored fiveBuilders.2.1.address s₁ ∧
      s₁.get 6 = .blob [3, 15, 9, 53] ∧
      Walks fiveEnvironment n₂ fiveBuilders.2.1.address fiveStored fiveBuilders.2.2.address s₂ ∧
      s₂.get 9 = .blob [3, 1, 9, 5] ∧
      (s₁.get 6 = s₂.get 9 ↔ integers.Settled ⟨"i", 3, ["a"], false⟩ [.text "5"]) := by
  have hrow : (Builder.fresh false).Grows fiveBuilders.1 ∧ fiveBuilders.1.address = 0 ∧
      RowRegisters fiveBuilders.1 integers 1 2 3 := rowRegisters_of_gives rfl rfl rfl (Builder.valid_fresh _)
  obtain ⟨hgrows, -, hregisters⟩ := hrow
  have hkey₁ : (emitKey integers ["a"] (.registers 2 1)).Gives fiveBuilders.1 6 fiveBuilders.2.1 := rfl
  have hkey₂ : (emitKey integers ["a"] (.row 0)).Gives fiveBuilders.2.1 9 fiveBuilders.2.2 := rfl
  have hgrows₁ := (emitKey_grows hkey₁ hgrows.valid).1
  have hgrows₂ := (emitKey_grows hkey₂ hgrows₁.valid).1
  have hrecord : Record.encode (applyAffinities integers.affinityCodes.toList
      (fiveGiven.getBlock 2 integers.columns.length)) = .ok [2, 1, 5] := by decide +kernel
  have hstored : RowStored fiveEnvironment integers 0 2 1 3 1 [.text "5"] fiveGiven fiveStored :=
    ⟨⟨none, rfl⟩, rfl, rfl, 0, .empty, fiveGiven.set 3 (.blob [2, 1, 5]),
      by simp only [execute, makeRecord, hrecord], rfl⟩
  exact ⟨hstored, key_agrees_iff hstored rfl hregisters hgrows.valid hgrows₁.valid hkey₁ hkey₂
    hgrows₂.begins (.refl _) (by decide +kernel) (by decide +kernel)⟩

/-- The index `i` has the key that INSERT built from registers, `j` the one that CREATE INDEX built through
the cursor. -/
def Database.fiveIndexed : Database :=
  let db := ((empty .standard).execute (.createTable ⟨"t", [⟨"a", "INTEGER", false, false⟩], false⟩)).2
  let db := (db.execute (.createIndex ⟨"i", "t", ["a"], false, false⟩)).2
  let db := (db.execute (.insert ⟨"t", [], [[.lit (.text "5")]]⟩)).2
  (db.execute (.createIndex ⟨"j", "t", ["a"], false, false⟩)).2

/-- The trees of the table and of both indexes. -/
def Database.fiveTrees (db : Database) : List (Option Tree) := [2, 3, 4].map db.store.tree?

/-- **Two keys of one row.** They differ, and a DELETE of the row finds only the second. -/
theorem Database.key_of_text : fiveIndexed.Reachable ∧
    fiveIndexed.fiveTrees = [some (.table [(1, [2, 1, 5])]), some (.index [[.text "5", .int 1]]),
      some (.index [[.int 5, .int 1]])] ∧
    (fiveIndexed.execute (.delete ⟨"t", some (.lit (.int 1)), none⟩)).2.fiveTrees =
      [some (.table []), some (.index [[.text "5", .int 1]]), some (.index [])] :=
  ⟨.execute (.execute (.execute (.execute (.empty _) _) _) _) _, by decide +kernel, by decide +kernel⟩

end QueryMachine
