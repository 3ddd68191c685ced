import QueryMachine.Proofs.Database.Catalog
import QueryMachine.Proofs.Database.Create
import QueryMachine.Proofs.Query.Select

/-!
# The schema, the catalog and the trees

However statements end, no two tables or indexes share a name or a root, and every one of them has a tree.
The kind of the tree is the kind in the first row of the catalog that has the name. This is the kind of the
table or index itself, unless a CREATE was cut off before and left a row with the same name behind.

* `Database.listedKind?` — the kind in the first catalog row with a name.
* `Database.schema_consistent` — what holds of names, roots, trees and new indexes.
* `Database.schema_consistent_interrupted` — a table whose tree is an index.
-/

namespace QueryMachine

open Catalog Machine

/-- The kind of a tree. -/
def Tree.kind : Tree → Kind
  | table _ => .table
  | index _ => .index

theorem Tree.kind_of_like {tree : Tree} {e : Catalog.Entry} (h : tree.Like e.tree) : tree.kind = e.kind := by
  unfold Entry.tree at h
  split at h
  · rename_i hkind
    obtain ⟨rows, rfl⟩ := Tree.like_table h
    exact hkind.symm
  · rename_i hkind
    obtain ⟨keys, rfl⟩ := Tree.like_index h
    exact hkind.symm

/-- The kind that the catalog writes as the given text. -/
def Catalog.Kind.ofName? (name : String) : Option Kind := [Kind.table, .index].find? (·.name == name)

theorem Catalog.Kind.ofName?_name (kind : Kind) : ofName? kind.name = some kind := by
  cases kind <;> decide

namespace Database

variable {db db' : Database} {entries : List Placed} {name : String}

/-- The kind in the first row of the catalog that has the name. -/
def listedKind? (db : Database) (name : String) : Option Kind :=
  match db.catalog with
  | .error _ => none
  | .ok rows =>
    (rows.find? fun row => row[1]?.bind Value.text? == some name).bind fun row =>
      (row[0]?.bind Value.text?).bind Kind.ofName?

theorem Catalogued.listedKind? (h : db.Catalogued entries) (name : String) :
    db.listedKind? name = (entries.find? (·.1.name == name)).map (·.1.kind) := by
  have hname : ((fun row : List Value => row[1]?.bind Value.text? == some name) ∘ Placed.values) =
      fun e => e.1.name == name := by
    funext e
    rfl
  rw [Database.listedKind?, h.catalog_eq]
  dsimp only
  rw [List.find?_map, hname]
  cases entries.find? (·.1.name == name) with
  | none => rfl
  | some e => exact Kind.ofName?_name e.1.kind

theorem Catalogued.tree (h : db.Catalogued entries) {o : Schema.Object} (ho : o ∈ db.schema.objects) :
    ∃ tree, db.store.tree? o.root = some tree ∧ db.listedKind? o.name = some tree.kind := by
  obtain ⟨e, he, hroot⟩ := h.schema.roots o ho
  obtain ⟨tree, htree, hlike⟩ := h.store.trees e (List.mem_of_find?_eq_some he)
  refine ⟨tree, hroot ▸ htree, ?_⟩
  rw [h.listedKind?, he, Option.map_some, Tree.kind_of_like hlike]

/-- A CREATE INDEX that adds an index ran code that fills it. -/
theorem createIndex_gives {i : IndexDef} {answer : Answer}
    (h : db.execute (.createIndex i) = (.ok answer, db')) (hadds : db'.schema ≠ db.schema) :
    ∃ table final program root, db.schema.lookup i.table = .ok table ∧
      (i.emit table).Gives (Builder.fresh db.options.reuseTemps) () final ∧ program.code = final.code ∧
      Machine.run (db.environment program) db.store = (.ok answer.execution, db'.store) ∧
      { db with store := db'.store }.newRoot i.name = .ok (some root) ∧
      withIndex db.schema i.table ⟨i.name, root, i.columns, i.unique⟩ = some db'.schema := by
  obtain ⟨program, columns, hcompile, hrun, hschema, -⟩ := execute_ok h
  simp only [schemaAfter] at hschema
  split at hschema
  · cases hschema
  · exact absurd (Except.ok.inj hschema).symm hadds
  · rename_i root hroot
    split at hschema
    · rename_i schema' hwith
      cases hschema
      obtain ⟨found, hfound, hprogram⟩ := bind_eq_ok.mp (compile_of_compile hcompile (by simp))
      obtain ⟨⟨program', ⟨⟩⟩, hbuild, hprogram⟩ := bind_eq_ok.mp hprogram
      cases hprogram
      cases found with
      | none =>
        -- Then the schema has the name.
        have hnone : { db with store := db'.store }.newRoot i.name = .ok none := by
          unfold newRoot
          rw [IndexDef.gives_of_validate hfound, Bool.or_true, if_pos rfl]
        rw [hnone] at hroot
        cases hroot
      | some table =>
        obtain ⟨final, hgives, hcode⟩ := Emit.build_gives hbuild
        exact ⟨table, final, program, root, (IndexDef.gives_of_validate hfound).2.2, hgives, hcode, hrun, hroot,
          hwith⟩
    · cases hschema

/-- **A new index has exactly one key for every row of its table**, if the catalog had no row with its name. -/
theorem Catalogued.createIndex (h : db.Catalogued entries) (hrange : db.HasRoom) {i : IndexDef} {answer : Answer}
    (hrun : db.execute (.createIndex i) = (.ok answer, db')) (hadds : db'.schema ≠ db.schema)
    (hname : db.listedKind? i.name = none) {table : Table} {rows : List (Int64 × Bytes)}
    (hlookup : db.schema.lookup i.table = .ok table) (htree : db.store.tree? table.root = some (.table rows))
    (hrows : Rows.Ascending rows) : ∃ index, index.name = i.name ∧ index.columns = i.columns ∧
      withIndex db.schema i.table index = some db'.schema ∧
      db'.store.tree? table.root = some (.table rows) ∧ db'.store.Indexed table index rows := by
  obtain ⟨table', final, program, root, hlookup', hgives, hcode, hrun, hroot, hwith⟩ :=
    createIndex_gives hrun hadds
  cases hlookup.symm.trans hlookup'
  have hprepared := h.prepared hrange
  obtain ⟨hcatalog, hnext, -⟩ := h.tables (Schema.mem_of_lookup hlookup)
  obtain ⟨st1, hentered, honly, hindexed⟩ := IndexDef.emit_fills hgives hcode hrun htree hrows
    hprepared.catalog hprepared.next hrange ⟨hcatalog, hnext⟩
  -- The catalog lists the index last, and has no other row with its name.
  have hst1 := h.store.entered hrange hentered
  obtain ⟨catalogRows, hcatalogRows, hlists⟩ := hst1.catalog
  have hcatalog' : { db with store := db'.store }.catalog =
      .ok ((entries ++ [(Entry.ofIndex i, db.store.nextRoot)]).map Placed.values) := by
    refine catalog_eq_of_lists ((honly.other _ fun hin => ?_).trans hcatalogRows) hlists
    exact hprepared.next (List.mem_singleton.mp hin).symm
  have hfind : entries.find? (·.1.name == i.name) = none := by
    rw [h.listedKind?] at hname
    exact Option.map_eq_none_iff.mp hname
  have hrange' : ∀ e ∈ entries ++ [(Entry.ofIndex i, db.store.nextRoot)],
      Integer.inRange32 e.2 = true := by
    intro e he
    rcases List.mem_append.mp he with he | he
    · exact h.inRange32 hrange e he
    · rw [List.mem_singleton.mp he]
      exact hrange
  have hnew : root = db.store.nextRoot := by
    unfold Database.newRoot at hroot
    split at hroot
    · cases hroot
    · rw [hcatalog'] at hroot
      simp only [rootOf?_values hrange', List.find?_append, hfind, Option.none_or] at hroot
      have hself : [((Entry.ofIndex i, db.store.nextRoot) : Placed)].find? (·.1.name == i.name) =
          some (Entry.ofIndex i, db.store.nextRoot) := List.find?_cons_of_pos (beq_self_eq_true i.name)
      rw [hself] at hroot
      cases hroot
      rfl
  refine ⟨_, rfl, rfl, hwith, ?_, hnew ▸ hindexed⟩
  rw [honly.other _ fun hin => hnext (List.mem_singleton.mp hin), tree?_of_entered hentered hcatalog hnext]
  exact htree

/-- **Names, roots and trees agree in every database that statements lead to**, whether they succeeded or
not, as long as roots have the 32 bits that programs and the catalog give them: names and roots are given
once, and every tree is of the kind in the first catalog row with its name. A new index whose name the
catalog did not have yet has exactly one key for every row of its table. -/
theorem schema_consistent (h : db.Driven) (hrange : Integer.inRange32 db.store.nextRoot = true) :
    (db.schema.objects.map (·.folded)).Nodup ∧
    (Catalog.root :: db.schema.objects.map (·.root)).Nodup ∧
    (∀ o ∈ db.schema.objects, ∃ tree, db.store.tree? o.root = some tree ∧
      db.listedKind? o.name = some tree.kind) ∧
    ∀ i answer db', db.execute (.createIndex i) = (.ok answer, db') → db'.schema ≠ db.schema →
      db.listedKind? i.name = none → ∀ table, db.schema.lookup i.table = .ok table →
      db.listedKind? table.name = some .table →
      ∃ index rows, index.name = i.name ∧ index.columns = i.columns ∧
        withIndex db.schema i.table index = some db'.schema ∧
        db'.store.tree? table.root = some (.table rows) ∧ db'.store.Indexed table index rows := by
  obtain ⟨entries, hdb⟩ := h.catalogued hrange
  refine ⟨hdb.schema.names, hdb.schema.roots_nodup hdb.store, fun o ho => hdb.tree ho, ?_⟩
  intro i answer db' hrun hadds hname table hlookup hkind
  obtain ⟨tree, htree, hlisted⟩ := hdb.tree (Schema.table_mem_objects (Schema.mem_of_lookup hlookup))
  cases tree with
  | index keys =>
    rw [show db.listedKind? table.name = _ from hlisted] at hkind
    cases hkind
  | table rows =>
    obtain ⟨index, hindex⟩ := hdb.createIndex hrange hrun hadds hname hlookup htree
      (h.reachable.ascending _ _ htree)
    exact ⟨index, rows, hindex⟩

/-! ## After a CREATE that was cut off -/

theorem driven_interrupted : interrupted.Driven :=
  .execute (.limit (.execute (.limit (.execute (.execute (.empty _) _) _) 30) _) _) _

/-- The table `t` of `letters`. -/
def lettersTable : Table := ⟨"t", 2, [⟨"a", "TEXT", .text, false, false, none⟩], [], []⟩

/-- An index under a name that the catalog does not have yet. -/
def freshIndex : IndexDef := ⟨"y", "t", ["a"], false, false⟩

theorem schema_consistent_fresh : interrupted.Driven ∧
    Integer.inRange32 interrupted.store.nextRoot = true ∧
    (interrupted.schema.objects.map (·.root)).Nodup ∧
    ∃ answer db' index rows, interrupted.execute (.createIndex freshIndex) = (.ok answer, db') ∧
      withIndex interrupted.schema "t" index = some db'.schema ∧
      db'.store.tree? 2 = some (.table rows) ∧ db'.store.Indexed lettersTable index rows := by
  have hrange : Integer.inRange32 interrupted.store.nextRoot = true := by decide +kernel
  have hstate : (interrupted.listedKind? "y", interrupted.listedKind? "t", interrupted.schema.table? "t",
      (interrupted.execute (.createIndex freshIndex)).1.toBool,
      decide ((interrupted.execute (.createIndex freshIndex)).2.schema ≠ interrupted.schema)) =
      (none, some .table, some lettersTable, true, true) := by decide +kernel
  simp only [Prod.mk.injEq, decide_eq_true_eq] at hstate
  obtain ⟨hname, hkind, htable, hok, hadds⟩ := hstate
  obtain ⟨-, hroots, -, hcreate⟩ := schema_consistent driven_interrupted hrange
  refine ⟨driven_interrupted, hrange, (List.nodup_cons.mp hroots).2, ?_⟩
  rcases hrun : interrupted.execute (.createIndex freshIndex) with ⟨result, db'⟩
  rw [hrun] at hok hadds
  cases result with
  | error f => cases hok
  | ok answer =>
    have hlookup : interrupted.schema.lookup freshIndex.table = .ok lettersTable := by
      unfold Schema.lookup
      rw [if_neg (by decide), show interrupted.schema.table? freshIndex.table = _ from htable]
    obtain ⟨index, rows, -, -, hwith, htree, hindexed⟩ :=
      hcreate freshIndex answer db' hrun hadds hname lettersTable hlookup hkind
    exact ⟨answer, db', index, rows, rfl, hwith, htree, hindexed⟩

/-- A table has the tree of an index that was never finished. -/
theorem schema_consistent_interrupted : interrupted.Driven ∧
    ∃ o ∈ interrupted.schema.objects, o.kind = .table ∧
      interrupted.store.tree? o.root =
        some (.index [[.null, .int 3], [.text "a", .int 2], [.text "b", .int 1]]) := by
  refine ⟨driven_interrupted, ⟨.table, "x", 3⟩, ?_⟩
  decide +kernel

end Database

end QueryMachine
