import QueryMachine.Proofs.Database.Consistency

/-!
# When every statement succeeds

As long as no statement fails, every row of the catalog belongs to a table or an index of the schema. A new
table or index then finds its own row in the catalog, and every tree is of the kind that the schema says.

* `Database.Orderly` — the databases that come about without a statement that fails.
* `Database.Known` — every entry of the catalog is in the schema.
* `Database.Orderly.known` — this holds of every such database.
-/

namespace QueryMachine

open Catalog Machine

variable {schema : Schema} {t : TableDef} {table : Table}

/-- The table that gets an index is the one that its name finds. -/
theorem Schema.mem_of_withIndex {schema' : Schema} {name : String} {index : Index}
    (h : Database.withIndex schema name index = some schema') (htable : table ∈ schema') :
    table ∈ schema ∨ ∃ old, schema.table? name = some old ∧
      table = { old with indexes := old.indexes ++ [index] } := by
  induction schema generalizing schema' with
  | nil => cases h
  | cons t rest ih =>
    unfold Database.withIndex at h
    split at h
    · rename_i hname
      cases h
      rcases List.mem_cons.mp htable with rfl | htable
      · exact .inr ⟨t, List.find?_cons_of_pos hname, rfl⟩
      · exact .inl (.tail _ htable)
    · rename_i hname
      have hskip : Schema.table? (t :: rest) name = Schema.table? rest name := List.find?_cons_of_neg hname
      obtain ⟨rest', hrest, rfl⟩ := Option.map_eq_some_iff.mp h
      rcases List.mem_cons.mp htable with rfl | htable
      · exact .inl (.head _)
      · rcases ih hrest htable with hin | ⟨old, hold, heq⟩
        · exact .inl (.tail _ hin)
        · exact .inr ⟨old, hskip.trans hold, heq⟩

theorem Schema.withIndex_of_table? {name : String} (index : Index) (h : schema.table? name = some table) :
    ∃ schema', Database.withIndex schema name index = some schema' := by
  induction schema with
  | nil => cases h
  | cons t rest ih =>
    unfold Database.withIndex
    split
    · exact ⟨_, rfl⟩
    · rename_i hname
      have hskip : Schema.table? (t :: rest) name = Schema.table? rest name := List.find?_cons_of_neg hname
      obtain ⟨rest', hrest⟩ := ih (hskip.symm.trans h)
      exact ⟨_, by rw [hrest, Option.map_some]⟩

namespace Database

variable {db db' : Database} {entries : List Placed} {statement : Statement} {answer : Answer} {e : Catalog.Entry}
  {schema : Schema}

/-- A database that successful statements and settings lead to from an empty one. -/
inductive Orderly : Database → Prop
  | empty (options : Options) : Orderly (empty options)
  | execute {db db' : Database} {answer : Answer} (h : Orderly db) (statement : Statement)
      (hrun : db.execute statement = (.ok answer, db')) : Orderly db'
  | addForeignKey {db : Database} (h : Orderly db) (key : ForeignKey) : Orderly (db.addForeignKey key)
  | configure {db : Database} (h : Orderly db) (options : Options) : Orderly { db with options }
  | limit {db : Database} (h : Orderly db) (stepLimit : Nat) : Orderly { db with stepLimit }

theorem Orderly.next (h : db.Orderly) (statement : Statement)
    (hok : (db.execute statement).1.toBool = true) : Orderly (db.execute statement).2 := by
  rcases hrun : db.execute statement with ⟨result, db'⟩
  rw [hrun] at hok
  cases result with
  | error f => cases hok
  | ok answer => exact h.execute statement hrun

theorem Orderly.driven (h : db.Orderly) : db.Driven := by
  induction h with
  | empty options => exact .empty options
  | execute _ statement hrun ih =>
    have hdriven := ih.execute statement
    rwa [hrun] at hdriven
  | addForeignKey _ key ih => exact ih.addForeignKey key
  | configure _ options ih => exact ih.configure options
  | limit _ stepLimit ih => exact ih.limit stepLimit

/-- The table or index that an entry of the catalog is about. -/
def Placed.object (e : Placed) : Schema.Object := ⟨e.1.kind, e.1.name, e.2⟩

/-- The catalog lists the tables and indexes of the schema, and nothing else. -/
structure Known (db : Database) (entries : List Placed) : Prop where
  catalogued : db.Catalogued entries
  known : ∀ e ∈ entries, Placed.object e ∈ db.schema.objects

/-- Every tree is of the kind that the schema says. -/
theorem Known.tree (h : db.Known entries) {o : Schema.Object} (ho : o ∈ db.schema.objects) :
    ∃ tree, db.store.tree? o.root = some tree ∧ tree.kind = o.kind := by
  obtain ⟨e, he, hroot⟩ := h.catalogued.schema.roots o ho
  have hin := List.mem_of_find?_eq_some he
  obtain ⟨tree, htree, hlike⟩ := h.catalogued.store.trees e hin
  have hfound := List.find?_some he
  have hname : e.1.name = o.name := eq_of_beq hfound
  have hsame : Placed.object e = o :=
    List.inj_on_of_nodup_map h.catalogued.schema.names (h.known e hin) ho (congrArg Text.foldCase hname)
  refine ⟨tree, hroot ▸ htree, ?_⟩
  rw [Tree.kind_of_like hlike, ← hsame]
  rfl

/-! ## A new table or index -/

/-- A statement that makes something makes it under a new name. -/
theorem Makes.none (h : Makes schema statement) (he : Entry.ofStatement statement = .ok e) :
    schema.table? e.name = none ∧ schema.index? e.name = none := by
  cases statement with
  | select | insert | update | delete => cases he
  | createTable t =>
    cases he
    exact ⟨(TableDef.gives_of_validate h).2.1, (TableDef.gives_of_validate h).2.2.1⟩
  | createIndex i =>
    cases he
    obtain ⟨table, h⟩ := h
    exact ⟨(IndexDef.gives_of_validate h).1, (IndexDef.gives_of_validate h).2.1⟩

theorem Known.find?_eq_none (h : db.Known entries) {name : String}
    (hfresh : db.schema.table? name = none ∧ db.schema.index? name = none) :
    entries.find? (·.1.name == name) = none := by
  refine List.find?_eq_none.mpr fun a ha heq => ?_
  exact Schema.folded_ne_of_none hfresh.1 hfresh.2 (h.known a ha) (congrArg Text.foldCase (eq_of_beq heq))

theorem Known.find?_last (h : db.Known entries) (root : Int)
    (hfresh : db.schema.table? e.name = none ∧ db.schema.index? e.name = none) :
    (entries ++ [(e, root)]).find? (·.1.name == e.name) = some (e, root) := by
  rw [List.find?_append, h.find?_eq_none hfresh, Option.none_or]
  exact List.find?_cons_of_pos (beq_self_eq_true e.name)

/-- A new name is found in the catalog in the row that was just added. -/
theorem Known.newRoot (h : db.Known entries) (hrange : db.HasRoom) {st : Store}
    (hst : st.Catalogued (entries ++ [(e, db.store.nextRoot)]))
    (hfresh : db.schema.table? e.name = none ∧ db.schema.index? e.name = none) :
    { db with store := st }.newRoot e.name = .ok (some db.store.nextRoot) := by
  obtain ⟨rows, hrows, hlists⟩ := hst.catalog
  have hcatalog : { db with store := st }.catalog = _ := catalog_eq_of_lists hrows hlists
  have hrange' : ∀ a ∈ entries ++ [(e, db.store.nextRoot)], Integer.inRange32 a.2 = true := by
    intro a ha
    rcases List.mem_append.mp ha with ha | ha
    · exact h.catalogued.inRange32 hrange a ha
    · rw [List.mem_singleton.mp ha]
      exact hrange
  unfold Database.newRoot
  rw [hcatalog]
  simp only [hfresh.1, hfresh.2, Option.isSome_none, Bool.or_self, Bool.false_eq_true, if_false,
    rootOf?_values hrange', h.find?_last _ hfresh, Option.map_some]

/-- The schema once a statement has made a table or an index. -/
def Extends (db : Database) (schema : Schema) : Statement → Prop
  | .createTable t => schema = db.schema ++ [Table.ofDef t db.store.nextRoot]
  | .createIndex i =>
    withIndex db.schema i.table ⟨i.name, db.store.nextRoot, i.columns, i.unique⟩ = some schema
  | _ => schema = db.schema

theorem Extends.objects (h : db.Extends schema statement) (he : Entry.ofStatement statement = .ok e) :
    schema.objects.Perm (Placed.object (e, db.store.nextRoot) :: db.schema.objects) := by
  cases statement with
  | select | insert | update | delete => cases he
  | createTable t =>
    cases he
    cases h
    rw [Schema.objects_append_ofDef]
    exact List.perm_append_singleton ..
  | createIndex i =>
    cases he
    exact Schema.objects_withIndex h

theorem Extends.ne (h : db.Extends schema statement) (he : Entry.ofStatement statement = .ok e) :
    schema ≠ db.schema := by
  rintro rfl
  have hlength := (h.objects he).length_eq
  rw [List.length_cons] at hlength
  omega

/-- A CREATE that makes nothing has a program that does nothing, and keeps the schema. -/
theorem nothing_of_compile (he : Entry.ofStatement statement = .ok e) (hmakes : ¬ Makes db.schema statement)
    {program : Program} {columns : List String} (hcompile : db.compile statement = .ok (program, columns)) :
    (∀ st, { db with store := st }.schemaAfter statement = .ok db.schema) ∧
      ∃ final, emitNothing.Gives (Builder.fresh db.options.reuseTemps) () final ∧ program.code = final.code := by
  cases statement with
  | select | insert | update | delete => cases he
  | createTable t =>
    obtain ⟨fresh, hfresh, hprogram⟩ := bind_eq_ok.mp (compile_of_compile hcompile (by simp))
    obtain ⟨⟨program', ⟨⟩⟩, hbuild, hprogram⟩ := bind_eq_ok.mp hprogram
    cases hprogram
    cases fresh with
    | true => exact absurd hfresh hmakes
    | false =>
      refine ⟨fun st => ?_, Emit.build_gives hbuild⟩
      have hnone : { db with store := st }.newRoot t.name = .ok none := by
        unfold Database.newRoot
        rw [TableDef.gives_of_validate hfresh, Bool.true_or, if_pos rfl]
      simp only [Database.schemaAfter, hnone]
  | createIndex i =>
    obtain ⟨found, hfound, hprogram⟩ := bind_eq_ok.mp (compile_of_compile hcompile (by simp))
    obtain ⟨⟨program', ⟨⟩⟩, hbuild, hprogram⟩ := bind_eq_ok.mp hprogram
    cases hprogram
    cases found with
    | some table => exact absurd ⟨table, hfound⟩ hmakes
    | none =>
      refine ⟨fun st => ?_, Emit.build_gives hbuild⟩
      have hnone : { db with store := st }.newRoot i.name = .ok none := by
        unfold Database.newRoot
        rw [IndexDef.gives_of_validate hfound, Bool.or_true, if_pos rfl]
      simp only [Database.schemaAfter, hnone]

section

variable (h : db.Known entries) (hrange : Integer.inRange32 db.store.nextRoot = true)
  (he : Entry.ofStatement statement = .ok e)

include h hrange he

/-- The schema once the program of a CREATE has ended without a fault. -/
theorem Known.schemaAfter {program : Program} {columns : List String}
    (hcompile : db.compile statement = .ok (program, columns)) {st : Store}
    (hdone : db.Finished statement e st) :
    ∃ schema, { db with store := st }.schemaAfter statement = .ok schema ∧
      ((¬ Makes db.schema statement ∧ schema = db.schema) ∨
        (Makes db.schema statement ∧ st.Catalogued (entries ++ [(e, db.store.nextRoot)]) ∧
          db.Extends schema statement)) := by
  rcases hdone with ⟨hmakes, rfl⟩ | ⟨hmakes, hdone⟩
  · exact ⟨db.schema, (nothing_of_compile he hmakes hcompile).1 _, .inl ⟨hmakes, rfl⟩⟩
  · have hst : st.Catalogued (entries ++ [(e, db.store.nextRoot)]) := by
      rcases hdone with hentered | ⟨hkind, hfilled⟩
      · exact h.catalogued.store.entered hrange hentered
      · exact h.catalogued.store.filled hrange hkind hfilled
    have hroot := h.newRoot hrange hst (hmakes.none he)
    cases statement with
    | select | insert | update | delete => cases he
    | createTable t =>
      cases he
      refine ⟨db.schema ++ [Table.ofDef t db.store.nextRoot], ?_, .inr ⟨hmakes, hst, rfl⟩⟩
      simp only [Database.schemaAfter, show { db with store := st }.newRoot t.name = _ from hroot]
    | createIndex i =>
      cases he
      obtain ⟨table, hvalid⟩ := hmakes
      obtain ⟨schema, hwith⟩ := Schema.withIndex_of_table? ⟨i.name, db.store.nextRoot, i.columns, i.unique⟩
        (Schema.table?_of_lookup (IndexDef.gives_of_validate hvalid).2.2)
      refine ⟨schema, ?_, .inr ⟨⟨table, hvalid⟩, hst, hwith⟩⟩
      simp only [Database.schemaAfter, show { db with store := st }.newRoot i.name = _ from hroot, hwith]

/-- What CREATE does to the schema if it succeeds. -/
theorem Known.extends (hrun : db.execute statement = (.ok answer, db')) :
    (¬ Makes db.schema statement ∧ db'.store = db.store ∧ db'.schema = db.schema) ∨
    (Makes db.schema statement ∧ db'.store.Catalogued (entries ++ [(e, db.store.nextRoot)]) ∧
      db.Extends db'.schema statement) := by
  obtain ⟨program, columns, hcompile, -, hschema, -⟩ := execute_ok hrun
  have hdone := execute_finished (h.catalogued.prepared hrange) he hrun
  obtain ⟨schema, hafter, hcases⟩ := h.schemaAfter hrange he hcompile hdone
  cases hafter.symm.trans hschema
  rcases hcases with ⟨hmakes, hsame⟩ | hmade
  · rcases hdone with ⟨-, hstore⟩ | ⟨hmakes', -⟩
    · exact .inl ⟨hmakes, hstore, hsame⟩
    · exact absurd hmakes' hmakes
  · exact .inr hmade

end

/-! ## Every statement -/

theorem Known.of_eq (h : db.Known entries) (hstore : db'.store.Catalogued entries)
    (hschema : db'.schema = db.schema) : db'.Known entries :=
  ⟨⟨hstore, hschema ▸ h.catalogued.schema⟩, hschema ▸ h.known⟩

/-- **A statement that succeeds leaves no unknown entry behind.** -/
theorem Known.execute (h : db.Known entries)
    (hrange : db'.HasRoom)
    (hrun : db.execute statement = (.ok answer, db')) : ∃ more, db'.Known (entries ++ more) := by
  have hdb' : (db.execute statement).2 = db' := congrArg Prod.snd hrun
  have hroom := h.catalogued.store.room
  have hrange0 := inRange32_of_execute (by omega) hrange hrun
  by_cases hcreate : ∃ e, Entry.ofStatement statement = .ok e
  · obtain ⟨e, he⟩ := hcreate
    rcases h.extends hrange0 he hrun with ⟨-, hstore, hschema⟩ | ⟨hmakes, hstore, hextends⟩
    · exact ⟨[], (List.append_nil entries).symm ▸ h.of_eq (hstore ▸ h.catalogued.store) hschema⟩
    · have hobjects := hextends.objects he
      have hfresh := hmakes.none he
      have hlisted := (h.catalogued.schema.append [(e, db.store.nextRoot)]).add hobjects
        (fun o ho => Schema.folded_ne_of_none hfresh.1 hfresh.2 ho) (h.find?_last _ hfresh) rfl
      refine ⟨[(e, db.store.nextRoot)], ⟨hstore, hlisted⟩, fun a ha => hobjects.mem_iff.mpr ?_⟩
      rcases List.mem_append.mp ha with ha | ha
      · exact .tail _ (h.known a ha)
      · rw [List.mem_singleton.mp ha]
        exact .head _
  · have hschema : db'.schema = db.schema := hdb' ▸ execute_schema fun e he => hcreate ⟨e, he⟩
    obtain ⟨more, hadds, hmore⟩ := h.catalogued.execute (hdb' ▸ hrange)
    rcases hadds with rfl | ⟨e, he, -⟩
    · rw [List.append_nil] at hmore
      exact ⟨[], (List.append_nil entries).symm ▸ h.of_eq (hdb' ▸ hmore.store) hschema⟩
    · exact absurd ⟨e, he⟩ hcreate

theorem known_empty (options : Options) : (empty options).Known [] := ⟨catalogued_empty options, nofun⟩

/-- **In every database that successful statements lead to, the catalog lists what the schema has.** -/
theorem Orderly.known (h : db.Orderly) (hrange : db.HasRoom) : ∃ entries, db.Known entries := by
  induction h with
  | empty options => exact ⟨[], known_empty options⟩
  | @execute db db' answer h statement hrun ih =>
    obtain ⟨entries, hknown⟩ := ih (inRange32_of_execute h.driven.root_lt_nextRoot hrange hrun)
    obtain ⟨more, hmore⟩ := hknown.execute hrange hrun
    exact ⟨_, hmore⟩
  | addForeignKey _ key ih | configure _ options ih | limit _ stepLimit ih =>
    obtain ⟨entries, hknown⟩ := ih hrange
    exact ⟨entries, ⟨hknown.catalogued.store, hknown.catalogued.schema⟩, hknown.known⟩

end Database

end QueryMachine
