import Mathlib.Data.List.Pairwise
import QueryMachine.Proofs.Database.Insert
import QueryMachine.Proofs.Database.Removal
import QueryMachine.Proofs.Database.Success
import QueryMachine.Proofs.Database.Update

/-!
# Indexes that follow their tables

As long as statements succeed and indexes are maintained, every index has exactly the keys of the rows of
its table. Two things are asked of the values that are written: the affinities of indexed columns leave them
as they are, and a row that is inserted does not take the place of a row with another key.

* `Database.Maintaining` — the databases that such statements lead to.
* `Database.Maintained` — every table is kept, with all its indexes.
* `Database.indexes_agree` — the keys are those of the rows.
* `Database.indexes_agree_replaced` — a row that takes the place of another leaves a stale key.
-/

namespace QueryMachine

open Catalog Machine

variable {table : Table} {index : Index} {rows rows' : List (Int64 × Bytes)} {st st' : Store} {e : Entry}

/-! ## Rows that fit their table -/

/-- The row is stored as the table stores rows. -/
def Table.Suits (table : Table) (row : Int64 × Bytes) : Prop :=
  ∃ values, Record.decode row.2 = .ok values ∧ table.Fits values

theorem Table.suits_of_encode {values : List Value} {id : Int64} {record : Bytes}
    (hlength : values.length = table.columns.length)
    (h : Record.encode (table.stored values) = .ok record) : table.Suits (id, record) :=
  ⟨_, Record.decode_encode h, table.fits_stored hlength⟩

theorem Table.Suits.fits {row : Int64 × Bytes} (h : table.Suits row) : table.Fits (Rows.entry row).2 := by
  obtain ⟨values, hdecode, hfits⟩ := h
  unfold Rows.entry
  rw [hdecode]
  exact hfits

theorem Insertion.length_fields (table : Table) (values : List (Nat × Resolved)) (last : Option Entry) :
    (fields table (row table values last)).length = table.columns.length := by
  unfold fields row
  split <;> simp

/-- The rows that an INSERT stores fit their table. -/
theorem Insertion.Stored.suits {last : Option Entry} {values : List (List (Nat × Resolved))}
    (h : Stored table last rows values rows') (hrows : Rows.Ascending rows)
    (hfits : ∀ row ∈ rows, table.Suits row) : ∀ row ∈ rows', table.Suits row := by
  induction h with
  | nil => exact hfits
  | cons hentry hencode _ ih =>
    refine ih hrows.put fun row hrow => ?_
    rcases (Rows.mem_put hrows).mp hrow with rfl | ⟨hrow, -⟩
    · obtain ⟨id, -, rfl⟩ := Option.map_eq_some_iff.mp hentry
      exact Table.suits_of_encode (length_fields ..) hencode
    · exact hfits row hrow

namespace Change

variable {r : Resolution}

theorem Rewrites.suits {row row' : Int64 × Bytes} (h : Rewrites r row row') (hfits : r.table.Suits row) :
    r.table.Suits row' := by
  unfold Rewrites at h
  split at h
  · exact Table.suits_of_encode (length_fields ..) h.2
  · exact h ▸ hfits

theorem suits_of_rewrites (h : List.Forall₂ (Rewrites r) rows rows') (hfits : ∀ row ∈ rows, r.table.Suits row) :
    ∀ row ∈ rows', r.table.Suits row := by
  induction h with
  | nil => exact hfits
  | cons hrow _ ih =>
    obtain ⟨hfirst, hrest⟩ := List.forall_mem_cons.mp hfits
    exact List.forall_mem_cons.mpr ⟨hrow.suits hfirst, ih hrest⟩

theorem getD_foldl_set {assignments : List (Nat × Resolved)} {i : Nat} (h : ∀ a ∈ assignments, a.1 ≠ i)
    (f : Resolved → Value) (values : List Value) :
    (assignments.foldl (fun values a => values.set a.1 (f a.2)) values).getD i .null = values.getD i .null := by
  induction assignments generalizing values with
  | nil => rfl
  | cons a assignments ih =>
    obtain ⟨ha, hassignments⟩ := List.forall_mem_cons.mp h
    rw [List.foldl_cons, ih hassignments, List.getD_eq_getElem?_getD, List.getElem?_set_ne ha,
      ← List.getD_eq_getElem?_getD]

theorem getD_old {i : Nat} (h : i < table.columns.length) (hrowid : table.isRowidAt i = false) (e : Entry) :
    (old table e).getD i .null = e.2.getD i .null := by
  have hcolumn : table.columns[i].isRowid = false := by
    unfold Table.isRowidAt at hrowid
    rwa [List.getElem?_eq_getElem h] at hrowid
  rw [List.getD_eq_getElem?_getD, old, List.getElem?_mapIdx, List.getElem?_eq_getElem h, Option.map_some,
    Option.getD_some, hcolumn, if_neg Bool.false_ne_true]

/-- The values that are assigned to indexed columns are stored as they are. -/
def Assigns (r : Resolution) (index : Index) (rows : List (Int64 × Bytes)) : Prop :=
  ∀ row ∈ rows, Expr.holds (Rows.entry row).read r.filter = true →
    ∀ name ∈ index.columns, ∀ a ∈ r.assignments, r.table.columnIndex? name = some a.1 →
      ((fields r (Rows.entry row)).getD a.1 .null).withAffinity (r.table.affinityAt a.1) =
        (fields r (Rows.entry row)).getD a.1 .null

theorem Assigns.tends (h : Assigns r index rows) (hfits : ∀ row ∈ rows, r.table.Suits row) : Tends r index rows := by
  intro row hrow hholds name hname i hi hrowid
  by_cases hassigned : ∃ a ∈ r.assignments, a.1 = i
  · obtain ⟨a, ha, rfl⟩ := hassigned
    exact h row hrow hholds name hname a ha hi
  · have hother : ∀ a ∈ r.assignments, a.1 ≠ i := fun a ha heq => hassigned ⟨a, ha, heq⟩
    rw [fields, getD_foldl_set hother (·.eval (Rows.entry row).read),
      getD_old (Table.lt_of_columnIndex? hi) hrowid]
    exact (hfits row hrow).fits.affinity i

theorem column_of_validate {schema : Schema} {c : Change} (h : c.validate schema = .ok r) :
    ∀ a ∈ r.assignments, a.1 < r.table.columns.length ∧ r.table.isRowidAt a.1 = false := by
  have hresolves := resolves_of_assignments (parts_of_validate h).2.2.1
  generalize c.columns.zip c.values = pairs, r.assignments = assigned at hresolves
  induction hresolves with
  | nil => exact nofun
  | cons hrow _ ih => exact List.forall_mem_cons.mpr ⟨⟨Table.lt_of_columnIndex? hrow.1, hrow.2.1⟩, ih⟩

theorem lt_of_validate {schema : Schema} {c : Change} (h : c.validate schema = .ok r) :
    ∀ a ∈ r.assignments, a.1 < r.table.columns.length :=
  fun a ha => (column_of_validate h a ha).1

end Change

/-! ## Conditions that can be evaluated -/

instance decidableForallOk {ε α : Type} (x : Except ε α) (P : α → Prop) [∀ a, Decidable (P a)] :
    Decidable (∀ a, x = .ok a → P a) :=
  match x with
  | .error _ => isTrue nofun
  | .ok a => decidable_of_iff (P a) ⟨fun h _ heq => Except.ok.inj heq ▸ h, fun h => h a rfl⟩

instance decidableForallTable (x : Option Tree) (P : List (Int64 × Bytes) → Prop) [∀ rows, Decidable (P rows)] :
    Decidable (∀ rows, x = some (.table rows) → P rows) :=
  match x with
  | none => isTrue nofun
  | some (.index _) => isTrue nofun
  | some (.table rows) => decidable_of_iff (P rows) ⟨fun h _ heq => by cases heq; exact h, fun h => h rows rfl⟩

instance decidableSettled (table : Table) (index : Index) (values : List Value) :
    Decidable (table.Settled index values) :=
  inferInstanceAs (Decidable (∀ name ∈ index.columns, ∀ i ∈ table.columnIndex? name,
    table.isRowidAt i = false → (values.getD i .null).withAffinity (table.affinityAt i) = values.getD i .null))

instance Insertion.decidableTends (table : Table) (index : Index) :
    ∀ last rows values, Decidable (Tends table index last rows values)
  | _, _, [] => isTrue trivial
  | last, rows, values :: more =>
    match hentry : entryOf table rows last values with
    | none => isTrue fun e record he => absurd (hentry.symm.trans he) nofun
    | some e =>
      match hencode : Record.encode e.2 with
      | .error _ => isTrue fun e' record he hrecord => by
          cases hentry.symm.trans he
          cases hencode.symm.trans hrecord
      | .ok record =>
        have := decidableTends table index (some e) (Rows.put e.1 record rows) more
        decidable_of_iff (table.Settled index (fields table (row table values last)) ∧
          (∀ e' ∈ Rows.entries rows, e'.1 = e.1 → table.key index.columns e' = table.key index.columns e) ∧
          Tends table index (some e) (Rows.put e.1 record rows) more)
          ⟨fun h e' record' he hrecord => by
            cases hentry.symm.trans he
            cases hencode.symm.trans hrecord
            exact h, fun h => h e record hentry hencode⟩

instance Change.decidableAssigns (r : Resolution) (index : Index) (rows : List (Int64 × Bytes)) :
    Decidable (Assigns r index rows) :=
  inferInstanceAs (Decidable (∀ row ∈ rows, Expr.holds (Rows.entry row).read r.filter = true →
    ∀ name ∈ index.columns, ∀ a ∈ r.assignments, r.table.columnIndex? name = some a.1 →
      ((fields r (Rows.entry row)).getD a.1 .null).withAffinity (r.table.affinityAt a.1) =
        (fields r (Rows.entry row)).getD a.1 .null))

/-! ## One table and the others -/

theorem Table.mem_roots_iff {root : Int} : root ∈ table.roots ↔ ∃ o ∈ table.objects, o.root = root := by
  simp [Table.roots, Table.objects, eq_comm]

namespace Schema

variable {schema : Schema} {table' : Table}

theorem nodup_roots (h : (schema.objects.map (·.root)).Nodup) (htable : table ∈ schema) : table.roots.Nodup := by
  rw [objects, List.map_flatMap, List.nodup_flatMap] at h
  have hroots := h.1 table htable
  rwa [Table.objects, List.map_cons, List.map_map] at hroots

theorem disjoint_roots (h : (schema.objects.map (·.root)).Nodup) (htable : table ∈ schema)
    (htable' : table' ∈ schema) (hne : table ≠ table') : ∀ root ∈ table.roots, root ∉ table'.roots := by
  rw [objects, List.map_flatMap, List.nodup_flatMap] at h
  have hsymm : Std.Symm (Function.onFun List.Disjoint fun t : Table => t.objects.map (·.root)) :=
    ⟨fun _ _ hdisjoint _ hleft hright => hdisjoint hright hleft⟩
  have hdisjoint := h.2.forall htable htable' hne
  intro root hroot hroot'
  obtain ⟨o, ho, rfl⟩ := Table.mem_roots_iff.mp hroot
  obtain ⟨o', ho', heq⟩ := Table.mem_roots_iff.mp hroot'
  exact hdisjoint (List.mem_map.mpr ⟨o, ho, rfl⟩) (List.mem_map.mpr ⟨o', ho', heq⟩)

end Schema

theorem Table.Kept.frame (h : table.Kept st rows) (hsame : ∀ root ∈ table.roots, st'.tree? root = st.tree? root) :
    table.Kept st' rows where
  tree := (hsame _ (.head _)).trans h.tree
  ascending := h.ascending
  fits := h.fits
  mirrors index hindex := by
    obtain ⟨keys, hkeys, hmem⟩ := h.mirrors index hindex
    exact ⟨keys, (hsame _ (.tail _ (List.mem_map.mpr ⟨index, hindex, rfl⟩))).trans hkeys, hmem⟩

theorem Table.Kept.written {T : Index → Prop} (h : table.Kept st rows)
    (hw : st.Written table table.indexes T rows rows' st') (hT : ∀ index ∈ table.indexes, T index)
    (hascending : Rows.Ascending rows') (hfits : ∀ row ∈ rows', table.Suits row) : table.Kept st' rows' where
  tree := hw.tree
  ascending := hascending
  fits := hfits
  mirrors index hindex := hw.mirrors index hindex (hT index hindex) (h.mirrors index hindex)

namespace Database

variable {db db' : Database} {entries : List Placed} {statement : Statement} {answer : Answer}

/-- Every table is kept, with all its indexes. -/
def Keeps (schema : Schema) (st : Store) : Prop := ∀ table ∈ schema, ∃ rows, table.Kept st rows

theorem Keeps.written {schema : Schema} {T : Index → Prop} (h : Keeps schema st)
    (hroots : (schema.objects.map (·.root)).Nodup) (htable : table ∈ schema)
    (hw : st.Written table table.indexes T rows rows' st') (hkept : table.Kept st' rows') : Keeps schema st' := by
  intro table' htable'
  by_cases heq : table' = table
  · exact ⟨rows', heq ▸ hkept⟩
  · obtain ⟨other, hother⟩ := h table' htable'
    exact ⟨other, hother.frame fun root hroot =>
      hw.only.other root (Schema.disjoint_roots hroots htable' htable heq root hroot)⟩

/-- What is asked of the values that a statement writes: those of indexed columns are stored as they are, and
no row that is inserted takes the place of a row with another key. -/
def Settles (db : Database) : Statement → Prop
  | .insert i => ∀ v, i.validate db.schema = .ok v →
      ∀ rows, db.store.tree? v.1.root = some (.table rows) →
        ∀ index ∈ v.1.indexes, Insertion.Tends v.1 index none rows v.2
  | .update c => ∀ r, c.validate db.schema = .ok r →
      ∀ rows, db.store.tree? r.table.root = some (.table rows) →
        ∀ index ∈ r.table.indexes, Change.Assigns r index rows
  | _ => True

instance decidableSettles (db : Database) : ∀ statement, Decidable (db.Settles statement)
  | .insert i => inferInstanceAs (Decidable (∀ v, i.validate db.schema = .ok v →
      ∀ rows, db.store.tree? v.1.root = some (.table rows) →
        ∀ index ∈ v.1.indexes, Insertion.Tends v.1 index none rows v.2))
  | .update c => inferInstanceAs (Decidable (∀ r, c.validate db.schema = .ok r →
      ∀ rows, db.store.tree? r.table.root = some (.table rows) →
        ∀ index ∈ r.table.indexes, Change.Assigns r index rows))
  | .select _ | .delete _ | .createTable _ | .createIndex _ => isTrue trivial

/-- Every table of the schema is kept, and the catalog lists it. -/
structure Maintained (db : Database) : Prop where
  known : ∃ entries, db.Known entries
  ascending : db.store.Ascending
  kept : Keeps db.schema db.store

theorem Maintained.nodup (h : db.Maintained) : (db.schema.objects.map (·.root)).Nodup := by
  obtain ⟨entries, hknown⟩ := h.known
  exact (List.nodup_cons.mp (hknown.catalogued.schema.roots_nodup hknown.catalogued.store)).2

theorem indexes_of_maintain {options : Options} (h : options.maintainIndexes = true) (table : Table) :
    options.indexes table = table.indexes := if_pos h

/-! ## Every statement -/

section Statements

variable (h : db.Maintained) (hmaintain : db.options.maintainIndexes = true)
  (hascending : db'.store.Ascending)

include h hmaintain hascending

theorem Maintained.insert {i : Insertion} (hsettles : db.Settles (.insert i))
    (hrun : db.execute (.insert i) = (.ok answer, db')) : Keeps db.schema db'.store := by
  obtain ⟨program, columns, hcompile, hrun, -⟩ := execute_ok hrun
  obtain ⟨⟨table, values⟩, hvalid, hprogram⟩ := bind_eq_ok.mp (compile_of_compile hcompile nofun)
  obtain ⟨final, hgives, hcode⟩ := Emit.build_of_ok hprogram
  have htable := Schema.mem_of_lookup (Insertion.lookup_of_validate hvalid)
  obtain ⟨rows, hkept⟩ := h.kept table htable
  have hroots := Schema.nodup_roots h.nodup htable
  have hindexes := indexes_of_maintain hmaintain table
  obtain ⟨rows, rows', htree, hstored, hwritten⟩ := Insertion.emit_writes hgives hcode hrun
    (fun _ htree => Tree.table.inj (Option.some.inj (hkept.tree.symm.trans htree)) ▸ hkept.ascending)
    (Insertion.values_ne_nil hvalid)
  cases hkept.tree.symm.trans htree
  rw [hindexes] at hwritten
  exact h.kept.written h.nodup htable hwritten (hkept.written hwritten
    (fun index hindex => ⟨(List.nodup_cons.mp hroots).2, hsettles (table, values) hvalid _ htree index hindex⟩)
    (hascending _ _ hwritten.tree)
    (hstored.suits hkept.ascending hkept.fits))

theorem Maintained.update {c : Change} (hsettles : db.Settles (.update c))
    (hrun : db.execute (.update c) = (.ok answer, db')) : Keeps db.schema db'.store := by
  obtain ⟨program, columns, hcompile, hrun, -⟩ := execute_ok hrun
  obtain ⟨r, hvalid, hprogram⟩ := bind_eq_ok.mp (compile_of_compile hcompile nofun)
  obtain ⟨final, hgives, hcode⟩ := Emit.build_of_ok hprogram
  have htable := Schema.mem_of_lookup (Change.lookup_of_validate hvalid)
  obtain ⟨rows, hkept⟩ := h.kept r.table htable
  have hroots := Schema.nodup_roots h.nodup htable
  have hindexes := indexes_of_maintain hmaintain r.table
  obtain ⟨-, rows', hrewrites, hwritten⟩ := Change.emit_writes hgives hcode hrun (Change.lt_of_validate hvalid)
    hkept.tree hkept.ascending
  rw [hindexes] at hwritten
  refine h.kept.written h.nodup htable hwritten (hkept.written hwritten (fun index hindex => ?_)
    (hascending _ _ hwritten.tree) (Change.suits_of_rewrites hrewrites hkept.fits))
  exact ⟨(List.nodup_cons.mp hroots).2, (hsettles r hvalid rows hkept.tree index hindex).tends hkept.fits⟩

theorem Maintained.delete {d : Deletion} (hrun : db.execute (.delete d) = (.ok answer, db')) :
    Keeps db.schema db'.store := by
  obtain ⟨program, columns, hcompile, hrun, -⟩ := execute_ok hrun
  obtain ⟨table, filter, final, hlookup, -, hgives, hcode⟩ :=
    Deletion.compile_gives (compile_of_compile hcompile nofun)
  have htable := Schema.mem_of_lookup hlookup
  obtain ⟨rows, hkept⟩ := h.kept table htable
  have hindexes := indexes_of_maintain hmaintain table
  have hout : table.root ∉ (db.options.indexes table).map (·.root) :=
    hindexes ▸ (List.nodup_cons.mp (Schema.nodup_roots h.nodup htable)).1
  -- Either way rows are only taken away.
  obtain ⟨rows', hsub, hwritten⟩ : ∃ rows', rows'.Sublist rows ∧
      db.store.Written table (db.options.indexes table) (fun _ => True) rows rows' db'.store := by
    split at hgives
    · exact ⟨[], List.nil_sublist rows, Deletion.emitTruncate_writes hgives hcode hrun hkept.tree hout⟩
    · exact ⟨_, List.filter_sublist, Deletion.emitRows_writes hgives hcode hrun
        (fun n hn => Deletion.effectiveLimit?_nonneg hn) hkept.tree hkept.ascending⟩
  rw [hindexes] at hwritten
  exact h.kept.written h.nodup htable hwritten (hkept.written hwritten (fun _ _ => trivial)
    (hascending _ _ hwritten.tree) fun row hrow => hkept.fits row (hsub.subset hrow))

end Statements

theorem Keeps.of_eq {schema : Schema} (h : Keeps schema st)
    (hsame : ∀ table ∈ schema, ∀ root ∈ table.roots, st'.tree? root = st.tree? root) : Keeps schema st' := by
  intro table htable
  obtain ⟨rows, hkept⟩ := h table htable
  exact ⟨rows, hkept.frame (hsame table htable)⟩

theorem Finished.other {e : Catalog.Entry} (h : db.Finished statement e st) {root : Int}
    (hcatalog : root ≠ Catalog.root) (hnew : root ≠ db.store.nextRoot) : st.tree? root = db.store.tree? root := by
  rcases h with ⟨-, rfl⟩ | ⟨-, hentered | ⟨-, hfilled⟩⟩
  · rfl
  · exact tree?_of_entered hentered hcatalog hnew
  · obtain ⟨st1, keys, hentered, -, -, hother, -⟩ := hfilled
    exact (hother root hnew).trans (tree?_of_entered hentered hcatalog hnew)

theorem Known.create (h : db.Known entries) (hrange : db.HasRoom) {e : Catalog.Entry}
    (he : Entry.ofStatement statement = .ok e) (hrun : db.execute statement = (.ok answer, db'))
    (hkept : Keeps db.schema db.store) : Keeps db.schema db'.store := by
  have hfinished := execute_finished (h.catalogued.prepared hrange) he hrun
  refine hkept.of_eq fun table htable root hroot => ?_
  obtain ⟨o, ho, rfl⟩ := Schema.object_of_root htable hroot
  obtain ⟨hlow, hhigh⟩ := h.catalogued.range ho
  exact hfinished.other (Int.ne_of_gt hlow) (Int.ne_of_lt hhigh)

/-- A new table has no rows. -/
theorem Known.createTable (h : db.Known entries) (hrange : db.HasRoom)
    {t : TableDef} (hrun : db.execute (.createTable t) = (.ok answer, db'))
    (hkept : Keeps db.schema db.store) : Keeps db'.schema db'.store := by
  have hold := h.create hrange rfl hrun hkept
  have hprepared := h.catalogued.prepared hrange
  have hfinished := execute_finished hprepared rfl hrun
  rcases h.extends hrange rfl hrun with ⟨-, -, hschema⟩ | ⟨hmakes, -, hextends⟩
  · exact hschema ▸ hold
  · have hentered : Entered db.store (.ofTable t) db'.store := by
      rcases hfinished with ⟨hnot, -⟩ | ⟨-, hentered | ⟨hkind, -⟩⟩
      · exact absurd hmakes hnot
      · exact hentered
      · cases hkind
    intro table htable
    rw [show db'.schema = _ from hextends] at htable
    rcases List.mem_append.mp htable with htable | htable
    · exact hold table htable
    · obtain rfl := List.mem_singleton.mp htable
      exact ⟨[], newTree_of_entered hentered hprepared.next, .nil, nofun, nofun⟩

/-- A new index has the keys of the rows. -/
theorem Maintained.createIndex (h : db.Maintained) (hrange : db.HasRoom) {i : IndexDef}
    (hrun : db.execute (.createIndex i) = (.ok answer, db')) : Keeps db'.schema db'.store := by
  obtain ⟨entries, hknown⟩ := h.known
  have hold := hknown.create hrange rfl hrun h.kept
  rcases hknown.extends hrange rfl hrun with ⟨-, -, hschema⟩ | ⟨hmakes, -, hextends⟩
  · exact hschema ▸ hold
  · have hname : db.listedKind? i.name = none := by
      have hnone : entries.find? (·.1.name == i.name) = none := hknown.find?_eq_none (hmakes.none rfl)
      rw [hknown.catalogued.listedKind?, hnone, Option.map_none]
    obtain ⟨table, hvalid⟩ := hmakes
    have hlookup := (IndexDef.gives_of_validate hvalid).2.2
    obtain ⟨rows, hkept⟩ := h.kept table (Schema.mem_of_lookup hlookup)
    obtain ⟨index, -, -, hwith, htree, hindexed⟩ := hknown.catalogued.createIndex hrange hrun
      (hextends.ne rfl) hname hlookup hkept.tree hkept.ascending
    intro table' htable'
    rcases Schema.mem_of_withIndex hwith htable' with htable' | ⟨found, hfound, rfl⟩
    · exact hold table' htable'
    · obtain rfl : found = table := Option.some.inj (hfound.symm.trans (Schema.table?_of_lookup hlookup))
      obtain ⟨rows', hkept'⟩ := hold found (Schema.mem_of_lookup hlookup)
      cases hkept'.tree.symm.trans htree
      have hfits : ∀ row ∈ rows, { found with indexes := found.indexes ++ [index] }.Suits row := by
        intro row hrow
        obtain ⟨values, hdecode, hfits⟩ := hkept.fits row hrow
        exact ⟨values, hdecode, hfits.length, hfits.affinity⟩
      refine ⟨rows, htree, hkept.ascending, hfits, fun index' hindex' => ?_⟩
      rcases List.mem_append.mp hindex' with hindex' | hindex'
      · exact hkept'.mirrors index' hindex'
      · exact List.mem_singleton.mp hindex' ▸ hindexed.mirrors

/-- **Statements keep every table with its indexes.** -/
theorem Maintained.execute (h : db.Maintained) (hmaintain : db.options.maintainIndexes = true) (hrange : db'.HasRoom)
    (hsettles : db.Settles statement) (hrun : db.execute statement = (.ok answer, db')) : db'.Maintained := by
  obtain ⟨entries, hknown⟩ := h.known
  obtain ⟨more, hmore⟩ := hknown.execute hrange hrun
  have hascending : db'.store.Ascending := by
    have hchanges := execute_changes db statement
    rw [hrun] at hchanges
    exact h.ascending.changes hchanges
  have hroom := hknown.catalogued.store.room
  have hrange0 := inRange32_of_execute (by omega) hrange hrun
  refine ⟨⟨_, hmore⟩, hascending, ?_⟩
  have hsame : (∀ e, Entry.ofStatement statement ≠ .ok e) → db'.schema = db.schema := by
    intro hother
    have hschema : (db.execute statement).2.schema = db.schema := execute_schema hother
    rwa [hrun] at hschema
  cases statement with
  | select q =>
    rw [hsame nofun]
    exact h.kept.of_eq fun _ _ root _ => store_of_select hrun root
  | insert i =>
    rw [hsame nofun]
    exact h.insert hmaintain hascending hsettles hrun
  | update c =>
    rw [hsame nofun]
    exact h.update hmaintain hascending hsettles hrun
  | delete d =>
    rw [hsame nofun]
    exact h.delete hmaintain hascending hrun
  | createTable t => exact hknown.createTable hrange0 hrun h.kept
  | createIndex i => exact h.createIndex hrange0 hrun

theorem maintained_empty (options : Options) : (empty options).Maintained :=
  ⟨⟨[], known_empty options⟩, ascending_empty options, nofun⟩

/-- A database that successful statements lead to, with indexes maintained all along. -/
inductive Maintaining : Database → Prop
  | empty (options : Options) (hmaintain : options.maintainIndexes = true) : Maintaining (empty options)
  | execute {db db' : Database} {answer : Answer} (h : Maintaining db) (statement : Statement)
      (hsettles : db.Settles statement) (hrun : db.execute statement = (.ok answer, db')) : Maintaining db'
  | addForeignKey {db : Database} (h : Maintaining db) (key : ForeignKey) :
      Maintaining (db.addForeignKey key)
  | configure {db : Database} (h : Maintaining db) (options : Options)
      (hmaintain : options.maintainIndexes = true) : Maintaining { db with options }
  | limit {db : Database} (h : Maintaining db) (stepLimit : Nat) : Maintaining { db with stepLimit }

theorem Maintaining.orderly (h : db.Maintaining) : db.Orderly := by
  induction h with
  | empty options => exact .empty options
  | execute _ statement _ hrun ih => exact ih.execute statement hrun
  | addForeignKey _ key ih => exact ih.addForeignKey key
  | configure _ options _ ih => exact ih.configure options
  | limit _ stepLimit ih => exact ih.limit stepLimit

theorem Maintaining.maintainIndexes (h : db.Maintaining) : db.options.maintainIndexes = true := by
  induction h with
  | empty _ hmaintain | configure _ _ hmaintain => exact hmaintain
  | execute _ _ _ hrun ih =>
    obtain ⟨-, -, -, -, -, hdb'⟩ := execute_ok hrun
    rwa [hdb']
  | addForeignKey _ _ ih | limit _ _ ih => exact ih

theorem Maintaining.maintained (h : db.Maintaining) (hrange : db.HasRoom) : db.Maintained := by
  induction h with
  | empty options => exact maintained_empty options
  | @execute db db' answer h statement hsettles hrun ih =>
    have hrange0 := inRange32_of_execute h.orderly.driven.root_lt_nextRoot hrange hrun
    exact (ih hrange0).execute h.maintainIndexes hrange hsettles hrun
  | addForeignKey _ key ih | configure _ options _ ih | limit _ stepLimit ih =>
    obtain ⟨⟨entries, hknown⟩, hascending, hkept⟩ := ih hrange
    exact ⟨⟨entries, ⟨hknown.catalogued.store, hknown.catalogued.schema⟩, hknown.known⟩, hascending, hkept⟩

/-- **The keys of every index are those of the rows of its table**, in every database that successful
statements lead to with indexes maintained, as long as roots have the 32 bits that programs give them. -/
theorem indexes_agree (h : db.Maintaining) (hrange : Integer.inRange32 db.store.nextRoot = true) :
    ∀ table ∈ db.schema, ∃ rows, db.store.tree? table.root = some (.table rows) ∧
      ∀ index ∈ table.indexes, ∃ keys, db.store.tree? index.root = some (.index keys) ∧
        ∀ key, key ∈ keys ↔ ∃ e ∈ Rows.entries rows,
          key = index.columns.map (table.read · e) ++ [.int e.1] := by
  intro table htable
  obtain ⟨rows, hkept⟩ := (h.maintained hrange).kept table htable
  exact ⟨rows, hkept.tree, hkept.mirrors⟩

theorem Maintaining.next (h : db.Maintaining) (statement : Statement)
    (hstep : (decide (db.Settles statement), (db.execute statement).1.toBool) = (true, true)) :
    Maintaining (db.execute statement).2 := by
  simp only [Prod.mk.injEq, decide_eq_true_eq] at hstep
  rcases hrun : db.execute statement with ⟨result, db'⟩
  rw [hrun] at hstep
  cases result with
  | error f => cases hstep.2
  | ok answer => exact h.execute statement hstep.1 hrun

/-- A table with an index over its texts. -/
def keyed : Database :=
  let db := ((empty Options.standard).execute
    (.createTable ⟨"t", [⟨"id", "INTEGER", true, false⟩, ⟨"a", "TEXT", false, false⟩], false⟩)).2
  (db.execute (.createIndex ⟨"i", "t", ["a"], false, false⟩)).2

/-- Two rows, the first of which got another text. -/
def rekeyed : Database :=
  let db := (keyed.execute
    (.insert ⟨"t", [], [[.lit (.int 5), .lit (.text "x")], [.lit .null, .lit (.text "y")]]⟩)).2
  (db.execute (.update ⟨"t", ["a"], [.lit (.text "z")],
    some (.binary .eq (.ref (.column none "id")) (.lit (.int 5)))⟩)).2

theorem maintaining_keyed : keyed.Maintaining :=
  ((Maintaining.empty Options.standard rfl).next _ (by decide +kernel)).next _ (by decide +kernel)

theorem maintaining_rekeyed : rekeyed.Maintaining :=
  (maintaining_keyed.next _ (by decide +kernel)).next _ (by decide +kernel)

theorem indexes_agree_rekeyed : rekeyed.Maintaining ∧
    Integer.inRange32 rekeyed.store.nextRoot = true ∧
    rekeyed.store.tree? 3 = some (.index [[.text "y", .int 6], [.text "z", .int 5]]) ∧
    ∀ table ∈ rekeyed.schema, ∃ rows, rekeyed.store.tree? table.root = some (.table rows) ∧
      ∀ index ∈ table.indexes, ∃ keys, rekeyed.store.tree? index.root = some (.index keys) ∧
        ∀ key, key ∈ keys ↔ ∃ e ∈ Rows.entries rows,
          key = index.columns.map (table.read · e) ++ [.int e.1] := by
  have hstate : Integer.inRange32 rekeyed.store.nextRoot = true ∧
      rekeyed.store.tree? 3 = some (.index [[.text "y", .int 6], [.text "z", .int 5]]) := by decide +kernel
  exact ⟨maintaining_rekeyed, hstate.1, hstate.2, indexes_agree maintaining_rekeyed hstate.1⟩

/-! ## A row that takes the place of another -/

/-- A row, and another one under its rowid. -/
def replaced : Database :=
  let db := (keyed.execute (.insert ⟨"t", [], [[.lit (.int 1), .lit (.text "x")]]⟩)).2
  (db.execute (.insert ⟨"t", [], [[.lit (.int 1), .lit (.text "y")]]⟩)).2

/-- The table has one row, and its index a key of the row that was there before. -/
theorem indexes_agree_replaced : replaced.Orderly ∧ replaced.options.maintainIndexes = true ∧
    replaced.schema = [⟨"t", 2, [⟨"id", "INTEGER", .integer, true, false, none⟩,
      ⟨"a", "TEXT", .text, false, false, none⟩], ["id"], [⟨"i", 3, ["a"], false⟩]⟩] ∧
    replaced.rows "t" = .ok [(1, [.null, .text "y"])] ∧
    replaced.entries "i" = .ok [[.text "x", .int 1], [.text "y", .int 1]] := by
  refine ⟨(maintaining_keyed.orderly.next _ (by decide +kernel)).next _ (by decide +kernel), ?_⟩
  decide +kernel

end Database

end QueryMachine
