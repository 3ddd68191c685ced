import QueryMachine.Database
import QueryMachine.Proofs.Form.Reading
import QueryMachine.Proofs.Outline.Catalog
import QueryMachine.Proofs.Query.Validation

/-!
# What a statement does to a database

Whether it succeeds or not, a statement other than CREATE changes no trees but those of a table and of
its indexes, and leaves the schema alone; a query changes none at all. CREATE makes a tree, adds its row
to the catalog and fills the tree, and may be cut off anywhere.

* `Database.execute_cases` — what a statement gives.
* `Database.execute_only` — the trees that a statement other than CREATE touches.
* `Database.execute_begun` — what CREATE leaves.
-/

namespace QueryMachine

open Catalog

variable {schema : Schema} {table : Table} {i : Insertion} {rows : List (List (Nat × Resolved))}

theorem Insertion.lookup_of_validate (h : i.validate schema = .ok (table, rows)) : schema.lookup i.table = .ok table :=
  (gives_of_validate h).1

theorem Insertion.values_ne_nil (h : i.validate schema = .ok (table, rows)) : rows ≠ [] := by
  obtain ⟨-, hne, _, -, hrows⟩ := gives_of_validate h
  rintro rfl
  exact hne (List.eq_nil_of_length_eq_zero hrows.length_eq)

theorem Change.lookup_of_validate {c : Change} {r : Change.Resolution} (h : c.validate schema = .ok r) :
    schema.lookup c.table = .ok r.table :=
  (parts_of_validate h).1

/-- The table that a statement writes to. -/
def Statement.target? : Statement → Option String
  | insert i => some i.table
  | update c => some c.table
  | delete d => some d.table
  | _ => none

namespace Database

variable {db : Database} {statement : Statement} {answer : Answer} {db' : Database} {columns : List String}
  {program : Program} {e : Catalog.Entry}

/-- The environment in which the database runs a program. -/
def environment (db : Database) (program : Program) : Machine.Environment :=
  ⟨program.code, db.schema, db.foreignKeys, db.stepLimit⟩

theorem run_eq (db : Database) (program : Program) :
    db.run program = ((Machine.run (db.environment program) db.store).1,
      { db with store := (Machine.run (db.environment program) db.store).2 }) := rfl

/-- **What a statement gives**: it is rejected, its program fails, or the schema is brought up to date. -/
theorem execute_cases (db : Database) (statement : Statement) :
    (∃ e, db.compile statement = .error e ∧ db.execute statement = (.error (.rejected e), db)) ∨
    ∃ program columns, db.compile statement = .ok (program, columns) ∧
      ((∃ f, db.execute statement = (.error f, (db.run program).2)) ∨
        ∃ execution schema, (db.run program).1 = .ok execution ∧
          (db.run program).2.schemaAfter statement = .ok schema ∧
          db.execute statement = (.ok ⟨columns, execution⟩, { (db.run program).2 with schema })) := by
  unfold execute
  cases hcompile : db.compile statement with
  | error e => exact .inl ⟨e, rfl, rfl⟩
  | ok compiled =>
    obtain ⟨program, columns⟩ := compiled
    refine .inr ⟨program, columns, rfl, ?_⟩
    dsimp only
    split
    · rename_i f db' hrun
      exact .inl ⟨f, by rw [hrun]⟩
    · rename_i execution db' hrun
      rw [hrun]
      dsimp only
      split
      · exact .inl ⟨_, rfl⟩
      · rename_i schema hschema
        exact .inr ⟨execution, schema, rfl, hschema, rfl⟩

/-- What lies behind a statement that succeeds. -/
theorem execute_ok (h : db.execute statement = (.ok answer, db')) :
    ∃ program columns, db.compile statement = .ok (program, columns) ∧
      Machine.run (db.environment program) db.store = (.ok answer.execution, db'.store) ∧
      { db with store := db'.store }.schemaAfter statement = .ok db'.schema ∧
      db' = { db with store := db'.store, schema := db'.schema } := by
  rcases db.execute_cases statement with ⟨e, -, heq⟩ | ⟨program, columns, hcompile, ⟨f, heq⟩ |
    ⟨execution, schema, hrun, hschema, heq⟩⟩
  · rw [heq] at h
    cases h
  · rw [heq] at h
    cases h
  · rw [heq] at h
    cases h
    rw [run_eq] at hrun hschema
    exact ⟨program, columns, hcompile, Prod.ext hrun rfl, hschema, rfl⟩

/-- The program of a statement other than a query. -/
theorem compile_of_compile (h : db.compile statement = .ok (program, columns)) (hquery : ∀ q, statement ≠ .select q) :
    statement.compile db.schema db.options = .ok program := by
  cases statement with
  | select q => exact absurd rfl (hquery q)
  | insert | update | delete | createTable | createIndex =>
    simp only [compile] at h
    split at h
    · rename_i hprogram
      cases h
      exact hprogram
    · cases h

/-- The trees that a statement leaves are those that its program leaves. -/
theorem execute_store (h : db.compile statement = .ok (program, columns)) :
    (db.execute statement).2.store = (Machine.run (db.environment program) db.store).2 := by
  rcases db.execute_cases statement with ⟨e, he, -⟩ | ⟨program', columns', hcompile, heq⟩
  · rw [h] at he
    cases he
  · rw [h] at hcompile
    cases hcompile
    rcases heq with ⟨f, heq⟩ | ⟨execution, schema, -, -, heq⟩
    · rw [heq, run_eq]
    · rw [heq, run_eq]

/-- A statement other than CREATE leaves the schema alone. -/
theorem execute_schema (h : ∀ e, Entry.ofStatement statement ≠ .ok e) :
    (db.execute statement).2.schema = db.schema := by
  rcases db.execute_cases statement with ⟨e, -, heq⟩ | ⟨program, columns, -, ⟨f, heq⟩ | ⟨execution, schema,
    -, hschema, heq⟩⟩
  · rw [heq]
  · rw [heq, run_eq]
  · rw [heq]
    cases statement with
    | createTable t => exact absurd rfl (h _)
    | createIndex i => exact absurd rfl (h _)
    | select | insert | update | delete =>
      cases hschema
      rfl

/-- The roots of the trees that a statement writes to. -/
def touched (db : Database) (statement : Statement) : List Int :=
  match statement.target?.bind db.schema.table? with
  | some table => table.touched db.options
  | none => []

theorem touched_eq {name : String} {table : Table} (hname : statement.target? = some name)
    (hlookup : db.schema.lookup name = .ok table) : db.touched statement = table.touched db.options := by
  rw [touched, hname, Option.bind_some, Schema.table?_of_lookup hlookup]

/-- **A statement other than CREATE touches the tree of the table that it writes to, and those of its indexes if
they are maintained.** -/
theorem execute_only (h : ∀ e, Entry.ofStatement statement ≠ .ok e) :
    db.store.OnlyAt (db.touched statement) (db.execute statement).2.store := by
  cases hcompile : db.compile statement with
  | error e =>
    unfold execute
    rw [hcompile]
    exact .refl ..
  | ok compiled =>
    obtain ⟨program, columns⟩ := compiled
    rw [execute_store hcompile]
    -- Writing statements open the table that they name.
    have hwrites : ∀ {name : String} {table : Table} {steps : Emit Unit} {program' : Program} {u : Unit},
        statement.target? = some name → db.schema.lookup name = .ok table →
        steps.Builds (Footprint.changing (table.touched db.options)).rules [] [] [] [.plain .halt 0 0 0] →
        Emit.build db.options.reuseTemps steps = .ok (program', u) → program' = program →
        db.store.OnlyAt (db.touched statement) (Machine.run (db.environment program) db.store).2 := by
      rintro name table steps program' u hname hlookup hsteps hbuild rfl
      rw [touched_eq hname hlookup]
      obtain ⟨final, hgives, hcode⟩ := Emit.build_gives hbuild
      refine Machine.run_within (F := .changing (table.touched db.options)) (fun i hi => ?_) _
      have hi : i ∈ program'.code := hi
      exact hsteps.within hgives i (hcode ▸ hi)
    cases statement with
    | createTable t => exact absurd rfl (h _)
    | createIndex i => exact absurd rfl (h _)
    | select q =>
      obtain ⟨cursors, hwithin⟩ := compileQuery_within hcompile
      exact Machine.run_within (F := .reading cursors) hwithin _
    | insert i =>
      obtain ⟨⟨table, rows⟩, hvalid, hprogram⟩ := bind_eq_ok.mp (compile_of_compile hcompile nofun)
      obtain ⟨⟨program', ⟨⟩⟩, hbuild, hprogram⟩ := bind_eq_ok.mp hprogram
      exact hwrites rfl (Insertion.lookup_of_validate hvalid) (Insertion.emit_builds fun _ _ _ => inferInstance) hbuild
        (Except.ok.inj hprogram)
    | update c =>
      obtain ⟨r, hvalid, hprogram⟩ := bind_eq_ok.mp (compile_of_compile hcompile nofun)
      obtain ⟨⟨program', ⟨⟩⟩, hbuild, hprogram⟩ := bind_eq_ok.mp hprogram
      exact hwrites rfl (Change.lookup_of_validate hvalid) Change.emit_builds hbuild
        (Except.ok.inj hprogram)
    | delete d =>
      obtain ⟨table, hlookup, hprogram⟩ := bind_eq_ok.mp (compile_of_compile hcompile nofun)
      obtain ⟨filter, -, hprogram⟩ := bind_eq_ok.mp hprogram
      obtain ⟨⟨program', ⟨⟩⟩, hbuild, hprogram⟩ := bind_eq_ok.mp hprogram
      refine hwrites rfl hlookup ?_ hbuild (Except.ok.inj hprogram)
      split
      · exact Deletion.emitTruncate_builds
      · exact Deletion.emitRows_builds

theorem roots_of_touched {root : Int} (h : root ∈ db.touched statement) : ∃ table ∈ db.schema, root ∈ table.roots := by
  unfold touched at h
  split at h
  · rename_i table htable
    obtain ⟨name, -, hfind⟩ := Option.bind_eq_some_iff.mp htable
    exact ⟨table, List.mem_of_find?_eq_some hfind, table.touched_subset _ h⟩
  · cases h

theorem store_of_select {q : Query} (hrun : db.execute (.select q) = (.ok answer, db')) :
    ∀ root, db'.store.tree? root = db.store.tree? root := by
  obtain ⟨program, columns, hcompile, hrun, -⟩ := execute_ok hrun
  obtain ⟨cursors, hcursors⟩ := compileQuery_within hcompile
  have honly : db.store.OnlyAt [] (Machine.run (db.environment program) db.store).2 :=
    Machine.run_within (F := .reading cursors) hcursors db.store
  rw [hrun] at honly
  exact fun root => honly.other root List.not_mem_nil

/-- The root of the next tree fits into an operand. -/
abbrev HasRoom (db : Database) : Prop := Integer.inRange32 db.store.nextRoot = true

/-- What is asked of the trees of a database for CREATE to begin. -/
structure Prepared (db : Database) : Prop where
  catalog : ∃ rows, db.store.tree? Catalog.root = some (.table rows)
  next : db.store.nextRoot ≠ Catalog.root
  range : Integer.inRange32 db.store.nextRoot = true

/-- The statement makes a table or an index that the schema does not have. -/
def Makes (schema : Schema) : Statement → Prop
  | .createTable t => t.validate schema = .ok true
  | .createIndex i => ∃ table, i.validate schema = .ok (some table)
  | _ => False

/-- What CREATE leaves where its program ends without a fault. -/
def Finished (db : Database) (statement : Statement) (e : Catalog.Entry) (st : Store) : Prop :=
  (¬ Makes db.schema statement ∧ st = db.store) ∨
    (Makes db.schema statement ∧ (Entered db.store e st ∨ e.kind = .index ∧ Filled db.store e st))

theorem Finished.begun {st : Store} (h : db.Finished statement e st) : Begun db.store e st := by
  rcases h with ⟨-, rfl⟩ | ⟨-, hentered | ⟨hkind, hfilled⟩⟩
  · exact .nothing
  · exact .entered hentered
  · exact .filled hkind hfilled

section

variable (h : db.Prepared) (he : Entry.ofStatement statement = .ok e)

include h he

/-- **What the program of a CREATE leaves**, wherever it is cut off, and where it ends. -/
theorem create_runs (hcompile : db.compile statement = .ok (program, columns)) :
    Contract.Runs ⟨db.environment program, program.code.size, Begun db.store e, fun _ => True,
      fun s => db.Finished statement e s.store⟩ db.store := by
  have hfair : Contract.Fair ⟨db.environment program, program.code.size, Begun db.store e, fun _ => True,
      fun s => db.Finished statement e s.store⟩ := ⟨fun _ _ _ _ _ _ => trivial⟩
  have hlax : Contract.Lax ⟨db.environment program, program.code.size, Begun db.store e, fun _ => True,
      fun s => db.Finished statement e s.store⟩ := fun _ => trivial
  cases statement with
  | select | insert | update | delete => cases he
  | createTable t =>
    cases he
    refine Contract.runs_of_tableDef rfl (Nat.le_refl _) hfair h.next h.catalog
      (compile_of_compile hcompile nofun) (fun _ hst => hst) ?_
    rintro s (⟨hfresh, hs⟩ | ⟨hfresh, hs⟩)
    · refine .inl ⟨fun hmakes => ?_, hs⟩
      cases hfresh.symm.trans hmakes
    · exact .inr ⟨hfresh, .inl hs⟩
  | createIndex i =>
    cases he
    refine Contract.runs_of_indexDef rfl (Nat.le_refl _) hfair h.next h.catalog
      (compile_of_compile hcompile nofun) h.range (fun _ hst => hst) ?_
      fun table _ => ⟨_, _, hlax.ranges, fun _ ho => hlax.openAny ho _, fun _ _ _ _ => trivial⟩
    rintro s (⟨hfound, hs⟩ | ⟨table, hfound, hs⟩)
    · refine .inl ⟨fun ⟨table, hmakes⟩ => ?_, hs⟩
      cases hfound.symm.trans hmakes
    · exact .inr ⟨⟨table, hfound⟩, .inr ⟨rfl, hs⟩⟩

/-- **What CREATE leaves**, whether it succeeds or not. -/
theorem execute_begun : Begun db.store e (db.execute statement).2.store := by
  cases hcompile : db.compile statement with
  | error error =>
    unfold execute
    rw [hcompile]
    exact .nothing
  | ok compiled =>
    rw [execute_store hcompile]
    have hruns := create_runs h he hcompile
    unfold Contract.Runs at hruns
    split at hruns
    · rename_i hrun
      rw [hrun]
      exact hruns.2
    · rename_i hrun
      rw [hrun]
      obtain ⟨s, hs, -, rfl⟩ := hruns
      exact hs.begun

/-- What the program of a CREATE leaves if it ends without a fault. -/
theorem run_finished (hcompile : db.compile statement = .ok (program, columns)) {execution : Machine.Execution}
    {st : Store} (hrun : Machine.run (db.environment program) db.store = (.ok execution, st)) :
    db.Finished statement e st := by
  have hruns := create_runs h he hcompile
  unfold Contract.Runs at hruns
  rw [hrun] at hruns
  obtain ⟨s, hs, -, heq⟩ := hruns
  rw [heq]
  exact hs

theorem execute_finished (hrun : db.execute statement = (.ok answer, db')) : db.Finished statement e db'.store := by
  obtain ⟨program, columns, hcompile, hrun, -⟩ := execute_ok hrun
  exact run_finished h he hcompile hrun

end

end Database

end QueryMachine
