import QueryMachine.Proofs.Database.Frame
import QueryMachine.Proofs.Database.Success

/-!
# The catalog row of a new table or index

The program of a CREATE writes a row into the catalog: it makes a tree, loads the fields, copies the root of the
tree among them and encodes the record. The row is the entry of the statement, with that root, as the codec
writes it. The schema then gets its root from the catalog, by name. That is the root in the new row unless the
catalog had a row with the name before, which a CREATE that was cut off can leave behind.

* `Store.Gains` — the catalog has one more row.
* `Database.create_gains` — what CREATE does to the catalog and the schema.
-/

namespace QueryMachine

open Catalog

namespace Store

variable {st st' : Store} {e : Catalog.Entry}

/-- A new tree and its row: the entry is finished, and for an index the keys are in their tree. -/
theorem Rooted.gains (h : st.Rooted) (hascending : st.Ascending)
    (hroom : ∀ rows, st.tree? Catalog.root = some (.table rows) → Rows.following rows ≤ 0x7FFFFFFFFFFFFFFF)
    (hdone : Entered st e st' ∨ e.kind = .index ∧ Filled st e st') : st.Gains e st' := by
  rcases hdone with hentered | ⟨-, st1, keys, hentered, -, -, hother, -⟩
  · exact h.entered_gains hascending hroom hentered
  · obtain ⟨rows, id, bytes, hrows, hgained, hrest⟩ := h.entered_gains hascending hroom hentered
    exact ⟨rows, id, bytes, hrows, (hother _ (Int.ne_of_lt h.room)).trans hgained, hrest⟩

end Store

namespace Database

variable {db : Database} {statement : Statement} {e : Catalog.Entry}

/-! ## The root in the new row -/

/-- No row of the catalog has the name. -/
def Unlisted (db : Database) (name : String) : Prop :=
  ∀ rows, db.catalog = .ok rows → ∀ row ∈ rows, row[1]?.bind Value.text? ≠ some name

theorem decodeRows_concat {rows : List (Int64 × Bytes)} {id : Int64} {record : Bytes} {values : List Value}
    {decoded : List (Int64 × List Value)} (hrecord : Record.decode record = .ok values)
    (h : decodeRows (rows ++ [(id, record)]) = .ok decoded) :
    ∃ front, decodeRows rows = .ok front ∧ decoded = front ++ [(id, values)] := by
  induction rows generalizing decoded with
  | nil =>
    simp only [List.nil_append, decodeRows, hrecord] at h
    cases h
    exact ⟨[], rfl, rfl⟩
  | cons row rows ih =>
    simp only [List.cons_append, decodeRows] at h ⊢
    split at h
    · cases h
    · split at h
      · cases h
      · rename_i more hmore
        cases h
        obtain ⟨front, hfront, rfl⟩ := ih hmore
        exact ⟨(row.1, _) :: front, by rw [hfront], rfl⟩

/-- The last row is found where no other has its name. -/
theorem rootOf?_concat {rows : List (List Value)} {root : Int} (hrange : Integer.inRange32 root = true)
    (h : ∀ row ∈ rows, row[1]?.bind Value.text? ≠ some e.name) :
    rootOf? (rows ++ [e.values (Int64.ofInt root)]) e.name = some root := by
  have hnone : rows.find? (fun row => row[1]?.bind Value.text? == some e.name) = none :=
    List.find?_eq_none.mpr fun row hrow => by simpa using h row hrow
  have hlast : rootOf? [e.values (Int64.ofInt root)] e.name = some root := by
    have hentry : ∀ a ∈ [((e, root) : Placed)], Integer.inRange32 a.2 = true := by simpa using hrange
    exact (@rootOf?_values [(e, root)] e.name hentry).trans (by simp)
  rw [← hlast, rootOf?, rootOf?, List.find?_append, hnone, Option.none_or]

/-- A new root is that of the new row. -/
theorem newRoot_of_gains {st : Store} {root : Int} (h : db.store.Gains e st)
    (hrange : db.HasRoom) (hunlisted : db.Unlisted e.name)
    (hroot : { db with store := st }.newRoot e.name = .ok (some root)) : root = db.store.nextRoot := by
  obtain ⟨rows, id, bytes, hrows, hgained, -, hencode⟩ := h
  unfold newRoot at hroot
  split at hroot
  · cases hroot
  · simp only [catalog, rowsAt, hgained] at hroot
    cases hdecoded : decodeRows (rows ++ [(id, bytes)]) with
    | error f =>
      rw [hdecoded] at hroot
      cases hroot
    | ok decoded =>
      obtain ⟨front, hfront, rfl⟩ := decodeRows_concat (Record.decode_encode hencode) hdecoded
      have hcatalog : db.catalog = .ok (front.map (·.2)) := by
        simp only [catalog, rowsAt, hrows, hfront, Fault.lift]
      simp only [hdecoded, Fault.lift, List.map_append, List.map_cons, List.map_nil,
        rootOf?_concat hrange (hunlisted _ hcatalog)] at hroot
      cases hroot
      rfl

/-! ## CREATE -/

theorem newRoot_ne_none {name : String} (h : db.schema.table? name = none ∧ db.schema.index? name = none) :
    db.newRoot name ≠ .ok none := by
  unfold newRoot
  rw [h.1, h.2]
  dsimp only [Option.isSome_none, Bool.or_self]
  rw [if_neg (by decide)]
  split
  · simp
  · split <;> simp

/-- A new table or index has the root that is found for its name. -/
theorem extends_of_schemaAfter {st : Store} {schema : Schema} (he : Entry.ofStatement statement = .ok e)
    (hmakes : Makes db.schema statement) (hschema : { db with store := st }.schemaAfter statement = .ok schema)
    (hroot : ∀ root, { db with store := st }.newRoot e.name = .ok (some root) → root = db.store.nextRoot) :
    db.Extends schema statement := by
  have hfound := @newRoot_ne_none { db with store := st } e.name (hmakes.none he)
  cases statement with
  | select | insert | update | delete => cases he
  | createTable t =>
    cases he
    simp only [schemaAfter] at hschema
    split at hschema
    · cases hschema
    · rename_i hnone
      exact absurd hnone hfound
    · rename_i root hnew
      cases hschema
      rw [hroot root hnew]
      rfl
  | createIndex i =>
    cases he
    simp only [schemaAfter] at hschema
    split at hschema
    · cases hschema
    · rename_i hnone
      exact absurd hnone hfound
    · rename_i root hnew
      split at hschema
      · rename_i schema' hwith
        cases hschema
        rw [hroot root hnew] at hwith
        exact hwith
      · cases hschema

/-- A CREATE that makes nothing changes nothing, whether or not it succeeds. -/
theorem create_keeps (he : Entry.ofStatement statement = .ok e) (hmakes : ¬ Makes db.schema statement) :
    db.store.OnlyAt [] (db.execute statement).2.store ∧ (db.execute statement).2.schema = db.schema := by
  rcases db.execute_cases statement with ⟨error, -, heq⟩ | ⟨program, columns, hcompile, hresult⟩
  · rw [heq]
    exact ⟨.refl .., rfl⟩
  obtain ⟨hafter, final, hgives, hcode⟩ := nothing_of_compile he hmakes hcompile
  constructor
  · rw [execute_store hcompile]
    refine Machine.run_within (F := .changing []) (fun i hi => ?_) _
    have hi : i ∈ program.code := hi
    exact Catalog.emitNothing_builds.within hgives i (hcode ▸ hi)
  · rcases hresult with ⟨f, heq⟩ | ⟨execution, schema, -, hschema, heq⟩
    · rw [heq, run_eq]
    · rw [run_eq] at hschema
      rw [heq]
      exact Except.ok.inj (hschema.symm.trans (hafter _))

/-- **CREATE adds exactly one row to the catalog, the one that the codec writes**, after all others, as long as the
catalog has a rowid left; and the new table or index has the root in it, if the catalog had no row with its name.
A CREATE that makes nothing changes no tree and not the schema. -/
theorem create_gains (hdb : db.Reachable) (hrange : Integer.inRange32 db.store.nextRoot = true)
    (hroom : ∀ rows, db.store.tree? Catalog.root = some (.table rows) → Rows.following rows ≤ 0x7FFFFFFFFFFFFFFF)
    (he : Entry.ofStatement statement = .ok e) :
    (Makes db.schema statement → ∀ answer db', db.execute statement = (.ok answer, db') →
      db.store.Gains e db'.store ∧ (db.Unlisted e.name → db.Extends db'.schema statement)) ∧
    (¬ Makes db.schema statement →
      db.store.OnlyAt [] (db.execute statement).2.store ∧ (db.execute statement).2.schema = db.schema) := by
  refine ⟨fun hmakes answer db' hrun => ?_, create_keeps he⟩
  have hrooted := hdb.rooted
  have hprepared : db.Prepared := ⟨hrooted.catalog, Int.ne_of_gt hrooted.room, hrange⟩
  obtain ⟨-, -, -, -, hschema, -⟩ := execute_ok hrun
  obtain ⟨hnot, -⟩ | ⟨-, hdone⟩ := execute_finished hprepared he hrun
  · exact absurd hmakes hnot
  have hgains := hrooted.gains hdb.ascending hroom hdone
  exact ⟨hgains, fun hunlisted => extends_of_schemaAfter he hmakes hschema fun root =>
    newRoot_of_gains hgains hrange hunlisted⟩

/-! ## A name that the catalog has already, and a catalog without a rowid left -/

/-- Beside a row that was left behind under another name, a new index gets its row and the root in it. -/
theorem create_gains_fresh : interrupted.Reachable ∧ Makes interrupted.schema (.createIndex freshIndex) ∧
    interrupted.Unlisted "y" ∧
    ∃ answer db', interrupted.execute (.createIndex freshIndex) = (.ok answer, db') ∧
      interrupted.store.Gains (.ofIndex freshIndex) db'.store ∧
      interrupted.Extends db'.schema (.createIndex freshIndex) := by
  have hrange : Integer.inRange32 interrupted.store.nextRoot = true := by decide +kernel
  have hmakes : Makes interrupted.schema (.createIndex freshIndex) := ⟨lettersTable, by decide +kernel⟩
  have hunlisted : interrupted.Unlisted "y" := by
    have hnames : interrupted.catalog.toOption.map (·.map fun row => row[1]?.bind Value.text?) =
        some [some "t", some "x", some "x"] := by decide +kernel
    intro rows hrows row hrow hname
    rw [hrows] at hnames
    have hin := List.mem_map_of_mem (f := fun row : List Value => row[1]?.bind Value.text?) hrow
    rw [show rows.map _ = _ from Option.some.inj hnames, hname] at hin
    exact absurd hin (by decide)
  have hgains := create_gains driven_interrupted.reachable hrange (driven_interrupted.room hrange)
    (show Entry.ofStatement (.createIndex freshIndex) = .ok (.ofIndex freshIndex) from rfl)
  have hok : (interrupted.execute (.createIndex freshIndex)).1.toBool = true := by decide +kernel
  rcases hrun : interrupted.execute (.createIndex freshIndex) with ⟨_ | answer, db'⟩
  · rw [hrun] at hok
    cases hok
  · obtain ⟨hrow, hextends⟩ := hgains.1 hmakes answer db' hrun
    exact ⟨driven_interrupted.reachable, hmakes, hunlisted, answer, db', rfl, hrow, hextends hunlisted⟩

/-- Enters a row into the catalog under the last rowid. -/
def lastRowProgram : Program :=
  ⟨#[⟨.openWrite, 0, 1, 0, .empty, 0⟩, ⟨.int64, 0, 1, 0, .int64 0x7FFFFFFFFFFFFFFF, 0⟩,
    ⟨.makeRecord, 1, 1, 2, .empty, 0⟩, ⟨.insert, 0, 2, 1, .empty, 0⟩, ⟨.halt, 0, 0, 0, .empty, 0⟩], 2, 1⟩

/-- **A table has another root than the one in its catalog row**, where a CREATE INDEX of its name was cut off before;
and where the last rowid is taken, the row of a new table takes the place of the one that has it. -/
theorem create_gains_interrupted : interrupted.Driven ∧
    (interrupted.catalog.toOption.bind List.getLast?) =
      some ((Entry.ofTable ⟨"x", [⟨"b", "TEXT", false, false⟩], false⟩).values 4) ∧
    (⟨.table, "x", 3⟩ : Schema.Object) ∈ interrupted.schema.objects ∧
    (((empty .standard).run lastRowProgram).2.execute
      (.createTable ⟨"x", [⟨"b", "TEXT", false, false⟩], false⟩)).2.catalog.toOption =
      some [(Entry.ofTable ⟨"x", [⟨"b", "TEXT", false, false⟩], false⟩).values 2] :=
  ⟨driven_interrupted, by decide +kernel, by decide +kernel, by decide +kernel⟩

end Database

end QueryMachine
