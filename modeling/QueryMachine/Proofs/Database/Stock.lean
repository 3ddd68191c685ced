import QueryMachine.Proofs.Database.Maintenance

/-!
# Rows that suit their tables

Statements store no rows but those of a table, as the table stores them. So in every database that statements
lead to, whether they succeed or not, every row of a table can be read, has a value for each column, and each
value is what the affinity of its column makes of it.

* `Machine.execute_rows` — what an instruction does to the rows of a tree.
* `Table.Stocked` — all rows of a table suit it.
* `Database.Driven.stocked` — this holds of every table that statements lead to.
-/

namespace QueryMachine

open Machine Catalog

variable {table : Table} {st st' : Store} {rows rows' : List (Int64 × Bytes)}

/-! ## One instruction -/

namespace Machine

variable {env : Environment} {pc : Nat} {i : Instruction} {s s' : State} {flow : Flow} {root : Int}

/-- The rows of a tree after an instruction: none, rows that were there, or these and one that was put there. -/
def RowsFrom (i : Instruction) (s : State) (root : Int) (rows' : List (Int64 × Bytes)) : Prop :=
  rows' = [] ∨ ∃ rows, s.store.tree? root = some (.table rows) ∧
    (rows' ⊆ rows ∨ i.opcode = .insert ∧
      ∃ id bytes, s.get i.p2 = .blob bytes ∧ rows' = Rows.put id bytes rows)

theorem RowsFrom.same (h : s.store.tree? root = some (.table rows')) : RowsFrom i s root rows' :=
  .inr ⟨rows', h, .inl (List.Subset.refl _)⟩

theorem RowsFrom.setTree {root' : Int} {tree : Tree} (h : ∀ rows', tree = .table rows' → RowsFrom i s root' rows')
    (hrows : (s.store.setTree root' tree).tree? root = some (.table rows')) : RowsFrom i s root rows' := by
  by_cases heq : root = root'
  · rw [heq, Store.tree?_setTree_self] at hrows
    exact heq ▸ h rows' (Option.some.inj hrows)
  · rw [Store.tree?_setTree_of_ne heq] at hrows
    exact .same hrows

/-- **What one instruction does to the rows of a tree.** -/
theorem execute_rows (h : execute env pc i s = .ok (flow, s'))
    (hrows : s'.store.tree? root = some (.table rows')) : RowsFrom i s root rows' := by
  by_cases hop : writes i.opcode = true
  · cases hcode : i.opcode with
    | insert =>
      simp only [execute, hcode] at h
      rcases insertRow_cases h with hsame | ⟨root', rows, id, record, hroot, hrecord, hset⟩
      · exact .same (hsame ▸ hrows)
      · refine .setTree (fun rows' heq => ?_) (hset ▸ hrows)
        cases heq
        exact .inr ⟨rows, hroot, .inr ⟨hcode, id, record, hrecord, rfl⟩⟩
    | delete =>
      simp only [execute, hcode] at h
      rcases deleteRow_cases h with hsame | ⟨root', ⟨rows, id, hroot, hset⟩ | ⟨keys, key, hroot, hset⟩⟩
      · exact .same (hsame ▸ hrows)
      · refine .setTree (fun rows' heq => ?_) (hset ▸ hrows)
        cases heq
        exact .inr ⟨rows, hroot, .inl List.filter_sublist.subset⟩
      · exact .setTree (fun _ heq => by cases heq) (hset ▸ hrows)
    | idxInsert | idxDelete =>
      simp only [execute, hcode] at h
      rcases changeKeys_cases h with hsame | ⟨root', keys, key, -, hset⟩
      · exact .same (hsame ▸ hrows)
      · exact .setTree (fun _ heq => by cases heq) (hset ▸ hrows)
    | clear =>
      simp only [execute, hcode, clearTree] at h
      split at h
      · rename_i tree _
        cases h
        refine RowsFrom.setTree (fun rows' heq => .inl ?_) hrows
        cases tree <;> cases heq
        rfl
      · cases h
    | createBtree =>
      simp only [execute, hcode] at h
      cases h
      have hrows : (s.store.create (if i.p3 == 2 then .emptyIndex else .emptyTable)).2.tree? root =
        some (.table rows') := hrows
      by_cases hnew : root = s.store.nextRoot
      · rw [hnew, Store.tree?_create_self] at hrows
        split at hrows
        · cases hrows
        · cases hrows
          exact .inl rfl
      · rw [Store.tree?_create_of_ne hnew] at hrows
        exact .same hrows
    | _ =>
      rw [hcode] at hop
      cases hop
  · rw [(execute_keeps h (by simpa using hop)).1] at hrows
    exact .same hrows

end Machine

/-! ## The program of a statement -/

/-- All rows of the table are stored as the table stores them. -/
def Table.Stocked (table : Table) (st : Store) : Prop :=
  ∀ rows, st.tree? table.root = some (.table rows) → ∀ row ∈ rows, table.Suits row

/-- A run that stores rows of the table only. -/
def Setting.stocking (table : Table) (final : Builder) (env : Environment) (hcode : env.code = final.code) :
    Setting where
  final := final
  env := env
  code_eq := hcode
  Admits _ := True
  Permits i s := i.opcode = .insert → ∃ bytes, s.get i.p2 = .blob bytes ∧ table.Makes bytes
  permits i s h hinsert := by
    rw [hinsert] at h
    cases h

namespace Setting

variable {final : Builder} {env : Environment} {hcode : env.code = final.code}

instance : (stocking table final env hcode).Lenient := ⟨fun _ _ => trivial⟩

theorem permitsInsert_stocking : (stocking table final env hcode).PermitsInsert table :=
  fun _ _ bytes _ hget hmakes _ => ⟨bytes, hget, hmakes⟩

theorem permitsDelete_stocking : (stocking table final env hcode).PermitsDelete := by
  intro i s hdelete hinsert
  cases hdelete.symm.trans hinsert

/-- Every instruction of such a run keeps the table stocked. -/
theorem stocking_keeps (pc : Nat) (i : Instruction) (s s' : State) (flow : Flow)
    (hpermits : (stocking table final env hcode).Permits i s) (hx : execute env pc i s = .ok (flow, s'))
    (h : table.Stocked s.store) : table.Stocked s'.store := by
  intro rows' hrows' row hrow
  rcases execute_rows hx hrows' with rfl | ⟨rows, hrows, hsub | ⟨hinsert, id, bytes, hget, rfl⟩⟩
  · cases hrow
  · exact h rows hrows row (hsub hrow)
  · rcases Rows.mem_of_mem_put hrow with rfl | hrow
    · obtain ⟨bytes', hget', values, hlength, hencode⟩ := hpermits hinsert
      cases hget.symm.trans hget'
      exact Table.suits_of_encode hlength hencode
    · exact h rows hrows row hrow

end Setting

section Programs

variable {options : Options} {reuse : Bool} {final : Builder} {env : Environment} {store : Store}

theorem Insertion.emit_stocks {values : List (List (Nat × Resolved))}
    (h : (emit options table values).Gives (Builder.fresh reuse) () final) (hcode : env.code = final.code)
    (hascending : store.Ascending) (hvalues : values ≠ []) (hstock : table.Stocked store) :
    table.Stocked (Machine.run env store).2 :=
  (emit_leads (σ := .stocking table final env hcode) h Setting.permitsInsert_stocking
    (hascending table.root) hvalues).keeps Setting.stocking_keeps hstock rfl

theorem Change.emit_stocks {r : Resolution} (h : (emit options r).Gives (Builder.fresh reuse) () final)
    (hcode : env.code = final.code) (hin : ∀ a ∈ r.assignments, a.1 < r.table.columns.length)
    (hascending : store.Ascending) (htree : store.tree? r.table.root = some (.table rows))
    (hstock : r.table.Stocked store) : r.table.Stocked (Machine.run env store).2 := by
  obtain ⟨last, hhalt, hperforms⟩ := emit_performs (σ := .stocking r.table final env hcode) h rfl
    Setting.permitsDelete_stocking Setting.permitsInsert_stocking hin htree (hascending _ _ htree)
  exact Setting.Finishes.keeps ⟨last, hhalt, hperforms.leads⟩ Setting.stocking_keeps hstock rfl

/-- However a DELETE ends, its table is stocked. -/
theorem Deletion.emit_stocks {d : Deletion} {filter : Option Resolved}
    (h : (if d.clears options then emitTruncate options table
      else emitRows options table filter d.effectiveLimit?).Gives (Builder.fresh reuse) () final)
    (hcode : env.code = final.code) (hascending : store.Ascending)
    (htree : store.tree? table.root = some (.table rows))
    (hout : table.root ∉ (options.indexes table).map (·.root)) (hstock : table.Stocked store) :
    table.Stocked (Machine.run env store).2 := by
  let σ := Setting.stocking table final env hcode
  split at h
  · exact (emitTruncate_leads (σ := σ) h rfl (.inl inferInstance) htree hout).keeps Setting.stocking_keeps
      hstock rfl
  · obtain ⟨last, hhalt, hleads⟩ := emitRows_leads (σ := σ) h rfl Setting.permitsDelete_stocking.removal
      (.inl inferInstance) (fun n hn => effectiveLimit?_nonneg hn) htree (hascending _ _ htree)
    rcases hleads.keeps Setting.stocking_keeps hstock rfl with hkept | ⟨pc, s, fuel, trace, hends, hkept, hrest⟩
    · exact hkept
    · rcases hends with ⟨rfl, -⟩ | ⟨_, _, _, _, _, _, _, ⟨_, hbreaks⟩, _⟩
      · exact runFrom_halt_store hhalt rfl hrest ▸ hkept
      · exact hbreaks.store_of_runFrom hrest ▸ hkept

end Programs

/-! ## Databases -/

/-- Every table of the schema is stocked, and no other table has rows, the catalog apart. -/
structure Schema.Stocked (schema : Schema) (st : Store) : Prop where
  tables : ∀ table ∈ schema, table.Stocked st
  others : ∀ root rows, root ≠ Catalog.root → root ∉ schema.objects.map (·.root) →
    st.tree? root = some (.table rows) → rows = []

/-- A tree without rows becomes that of a table or of an index. -/
theorem Schema.Stocked.add {schema schema' : Schema} {o : Schema.Object} (h : schema.Stocked st)
    (hobjects : schema'.objects.Perm (o :: schema.objects))
    (hroots : (Catalog.root :: schema'.objects.map (·.root)).Nodup)
    (htables : ∀ table ∈ schema', table.root = o.root ∨
      ∃ old ∈ schema, ∃ indexes, table = { old with indexes }) : schema'.Stocked st := by
  rw [((hobjects.map _).cons _).nodup_iff, List.map_cons, List.nodup_cons, List.nodup_cons] at hroots
  obtain ⟨hcatalog, hnew, -⟩ := hroots
  have hne : o.root ≠ Catalog.root := fun heq => hcatalog (heq ▸ List.mem_cons_self)
  refine ⟨fun table htable rows hrows => ?_, fun root rows hroot hother => ?_⟩
  · rcases htables table htable with heq | ⟨old, hold, indexes, rfl⟩
    · rw [heq] at hrows
      rw [h.others _ rows hne hnew hrows]
      exact nofun
    · intro row hrow
      obtain ⟨values, hdecode, hfits⟩ := h.tables old hold rows hrows row hrow
      exact ⟨values, hdecode, hfits.length, hfits.affinity⟩
  · rw [(hobjects.map _).mem_iff, List.map_cons, List.mem_cons, not_or] at hother
    exact h.others root rows hroot hother.2

/-- A table or an index that is added to the schema. -/
theorem Schema.Stocked.schemaAfter (db : Database) {statement : Statement} {schema : Schema}
    (h : db.schema.Stocked db.store) (hschema : db.schemaAfter statement = .ok schema)
    (hroots : (Catalog.root :: schema.objects.map (·.root)).Nodup) : schema.Stocked db.store := by
  cases statement with
  | select | insert | update | delete =>
    cases hschema
    exact h
  | createTable t =>
    simp only [Database.schemaAfter] at hschema
    split at hschema
    · cases hschema
    · cases hschema
      exact h
    · rename_i root _
      cases hschema
      refine h.add (o := ⟨.table, t.name, root⟩) ?_ hroots fun table htable => ?_
      · rw [Schema.objects_append_ofDef]
        exact List.perm_append_singleton ..
      · rcases List.mem_append.mp htable with hold | hnew
        · exact .inr ⟨table, hold, table.indexes, rfl⟩
        · exact .inl (List.mem_singleton.mp hnew ▸ rfl)
  | createIndex i =>
    simp only [Database.schemaAfter] at hschema
    split at hschema
    · cases hschema
    · cases hschema
      exact h
    · split at hschema
      · rename_i schema' hwith
        cases hschema
        refine h.add (Schema.objects_withIndex hwith) hroots fun table htable => .inr ?_
        rcases Schema.mem_of_withIndex hwith htable with hold | ⟨old, hold, heq⟩
        · exact ⟨table, hold, table.indexes, rfl⟩
        · exact ⟨old, List.mem_of_find?_eq_some hold, _, heq⟩
      · cases hschema

/-- CREATE leaves rows in the catalog only. -/
theorem Catalog.Begun.rows_cases {e : Catalog.Entry} {root : Int} (h : Begun st e st') (hroot : root ≠ Catalog.root)
    (hnext : st.nextRoot ≠ Catalog.root) (hrows : st'.tree? root = some (.table rows)) :
    st.tree? root = some (.table rows) ∨ rows = [] := by
  have hempty : e.tree = .table rows → rows = [] := by
    unfold Entry.tree
    split
    · exact fun heq => (Tree.table.inj heq).symm
    · exact nofun
  by_cases hnew : root = st.nextRoot
  · subst hnew
    cases h with
    | nothing => exact .inl hrows
    | made => exact .inr (hempty (Option.some.inj ((Store.tree?_create_self ..).symm.trans hrows)))
    | entered hentered => exact .inr (hempty (Option.some.inj ((newTree_of_entered hentered hnext).symm.trans hrows)))
    | filled _ hfilled =>
      obtain ⟨-, keys, -, -, hkeys, -, -⟩ := hfilled
      cases hkeys.symm.trans hrows
  · refine .inl (Eq.trans (Eq.symm ?_) hrows)
    cases h with
    | nothing => rfl
    | made => exact Store.tree?_create_of_ne hnew
    | entered hentered => exact tree?_of_entered hentered hroot hnew
    | filled _ hfilled =>
      obtain ⟨st1, -, hentered, -, -, hother, -⟩ := hfilled
      exact (hother root hnew).trans (tree?_of_entered hentered hroot hnew)

namespace Database

variable {db : Database} {entries : List Placed} {statement : Statement}

section

variable (h : db.Catalogued entries)

include h

/-- A tree that holds no table holds none after a statement. -/
theorem Catalogued.stocked_of_not_table (htable : table ∈ db.schema)
    (hnot : ∀ rows, db.store.tree? table.root ≠ some (.table rows)) : table.Stocked (db.execute statement).2.store := by
  obtain ⟨-, -, tree, htree⟩ := h.tables htable
  have hlt := (h.range (Schema.table_mem_objects htable)).2
  obtain ⟨tree', htree', hlike⟩ := (execute_changes db statement).like hlt htree (Tree.like_refl tree)
  intro rows hrows
  cases hrows.symm.trans htree'
  cases tree with
  | table old => exact absurd htree (hnot old)
  | index keys => exact hlike.elim

/-- The table that a statement writes to stays stocked. -/
theorem Catalogued.stocks_target (hascending : db.store.Ascending) {name : String}
    (hname : statement.target? = some name) (hfind : db.schema.table? name = some table)
    (hstock : table.Stocked db.store) : table.Stocked (db.execute statement).2.store := by
  have htable := List.mem_of_find?_eq_some hfind
  by_cases hnot : ∀ rows, db.store.tree? table.root ≠ some (.table rows)
  · exact h.stocked_of_not_table htable hnot
  · obtain ⟨rows, htree⟩ := not_forall_not.mp hnot
    cases hcompile : db.compile statement with
    | error e =>
      unfold Database.execute
      rw [hcompile]
      exact hstock
    | ok compiled =>
      obtain ⟨program, columns⟩ := compiled
      rw [execute_store hcompile]
      cases statement with
      | select q | createTable t | createIndex i => cases hname
      | insert i =>
        cases hname
        obtain ⟨⟨table', values⟩, hvalid, hprogram⟩ := bind_eq_ok.mp (compile_of_compile hcompile nofun)
        obtain ⟨final, hgives, hcode⟩ := Emit.build_of_ok hprogram
        cases hfind.symm.trans (Schema.table?_of_lookup (Insertion.lookup_of_validate hvalid))
        exact Insertion.emit_stocks hgives hcode hascending (Insertion.values_ne_nil hvalid) hstock
      | update c =>
        cases hname
        obtain ⟨r, hvalid, hprogram⟩ := bind_eq_ok.mp (compile_of_compile hcompile nofun)
        obtain ⟨final, hgives, hcode⟩ := Emit.build_of_ok hprogram
        cases hfind.symm.trans (Schema.table?_of_lookup (Change.lookup_of_validate hvalid))
        exact Change.emit_stocks hgives hcode (Change.lt_of_validate hvalid) hascending htree hstock
      | delete d =>
        cases hname
        obtain ⟨table', filter, final, hlookup, -, hgives, hcode⟩ :=
          Deletion.compile_gives (compile_of_compile hcompile nofun)
        cases hfind.symm.trans (Schema.table?_of_lookup hlookup)
        have hroots := (List.nodup_cons.mp (h.schema.roots_nodup h.store)).2
        have hout : table.root ∉ (db.options.indexes table).map (·.root) := by
          intro hin
          have hnodup := List.nodup_cons.mp (Schema.nodup_roots hroots htable)
          unfold Options.indexes at hin
          split at hin
          · exact hnodup.1 hin
          · cases hin
        exact Deletion.emit_stocks hgives hcode hascending htree hout hstock

/-- Statements other than CREATE. -/
theorem Catalogued.stocked_of_write (hascending : db.store.Ascending) (hstocked : db.schema.Stocked db.store)
    (hother : ∀ e, Entry.ofStatement statement ≠ .ok e) : db.schema.Stocked (db.execute statement).2.store := by
  have honly : db.store.OnlyAt (db.touched statement) (db.execute statement).2.store := execute_only hother
  have hroots := (List.nodup_cons.mp (h.schema.roots_nodup h.store)).2
  refine ⟨fun table htable => ?_, fun root rows hcatalog hroot hrows => ?_⟩
  · by_cases hin : table.root ∈ db.touched statement
    · -- The tree is that of the target, for tables share no trees.
      unfold touched at hin
      split at hin
      · rename_i target htarget
        obtain ⟨name, hname, hfind⟩ := Option.bind_eq_some_iff.mp htarget
        have hmem := List.mem_of_find?_eq_some hfind
        obtain rfl : table = target := by
          by_contra hne
          exact Schema.disjoint_roots hroots htable hmem hne _ (.head _) (target.touched_subset _ hin)
        exact h.stocks_target hascending hname hfind (hstocked.tables table htable)
      · cases hin
    · intro rows hrows
      rw [honly.other _ hin] at hrows
      exact hstocked.tables table htable rows hrows
  · have hin : root ∉ db.touched statement := by
      intro hin
      obtain ⟨table, htable, hin⟩ := roots_of_touched hin
      obtain ⟨o, ho, rfl⟩ := Schema.object_of_root htable hin
      exact hroot (List.mem_map_of_mem ho)
    rw [honly.other _ hin] at hrows
    exact hstocked.others root rows hcatalog hroot hrows

/-- CREATE leaves the tables that there are as they are. -/
theorem Catalogued.stocked_of_create (hrange : db.HasRoom) (hstocked : db.schema.Stocked db.store) {e : Catalog.Entry}
    (he : Entry.ofStatement statement = .ok e) : db.schema.Stocked (db.execute statement).2.store := by
  have hprepared := h.prepared hrange
  have hbegun := execute_begun hprepared he
  refine ⟨fun table htable rows hrows => ?_, fun root rows hcatalog hroot hrows => ?_⟩
  · rcases hbegun.rows_cases (h.tables htable).1 hprepared.next hrows with hold | rfl
    · exact hstocked.tables table htable rows hold
    · exact nofun
  · rcases hbegun.rows_cases hcatalog hprepared.next hrows with hold | hempty
    · exact hstocked.others root rows hcatalog hroot hold
    · exact hempty

/-- **Statements keep every table stocked**, whether they succeed or not. -/
theorem Catalogued.stocked (hascending : db.store.Ascending)
    (hrange : Integer.inRange32 (db.execute statement).2.store.nextRoot = true)
    (hstocked : db.schema.Stocked db.store) :
    (db.execute statement).2.schema.Stocked (db.execute statement).2.store := by
  have hroom := h.store.room
  have hrange0 := inRange32_of_execute (by omega) hrange rfl
  have hold : db.schema.Stocked (db.execute statement).2.store := by
    by_cases hcreate : ∃ e, Entry.ofStatement statement = .ok e
    · obtain ⟨e, he⟩ := hcreate
      exact h.stocked_of_create hrange0 hstocked he
    · exact h.stocked_of_write hascending hstocked fun e he => hcreate ⟨e, he⟩
  obtain ⟨more, -, hafter⟩ := h.execute hrange
  have hroots := hafter.schema.roots_nodup hafter.store
  rcases db.execute_cases statement with ⟨e, -, heq⟩ | ⟨program, columns, -, ⟨f, heq⟩ | ⟨execution, schema,
    -, hschema, heq⟩⟩
  · rwa [heq]
  · rw [heq] at hold ⊢
    exact hold
  · rw [heq] at hold hroots ⊢
    exact Schema.Stocked.schemaAfter (db.run program).2 hold hschema hroots

end

/-- **In every database that statements lead to, every row of a table suits it.** -/
theorem Driven.stocked (h : db.Driven) (hrange : db.HasRoom) : db.schema.Stocked db.store := by
  induction h with
  | empty options =>
    refine ⟨nofun, fun root rows hroot _ hrows => ?_⟩
    rw [show (Database.empty options).store.tree? root = none from Slots.get?_set_of_ne _ _ hroot] at hrows
    cases hrows
  | @execute db hdb statement ih =>
    have hrange0 := inRange32_of_execute hdb.root_lt_nextRoot hrange rfl
    obtain ⟨entries, hcatalogued⟩ := hdb.catalogued hrange0
    exact hcatalogued.stocked hdb.reachable.ascending hrange (ih hrange0)
  | addForeignKey _ _ ih | configure _ _ ih | limit _ _ ih => exact ih hrange

end Database

end QueryMachine
