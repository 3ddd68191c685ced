import Mathlib.Data.List.Nodup
import QueryMachine.Proofs.Database.Effect
import QueryMachine.Proofs.Database.Reachable

/-!
# The catalog and the schema

The catalog has a row for every tree but its own, in the order in which the trees were made; a CREATE that
fails may leave its row behind. The schema gives every table and index the root of the first row that has
its name.

* `Schema.objects` — the tables and indexes of a schema.
* `Store.Catalogued` — the entries that the catalog lists, and their trees.
* `Schema.Listed` — the schema agrees with the entries of the catalog.
* `Database.Catalogued.execute` — statements keep this, whether they succeed or not.
-/

namespace QueryMachine

open Catalog

/-! ## The objects of a schema -/

/-- A table or an index, by its kind, name and root. -/
structure Schema.Object where
  kind : Kind
  name : String
  root : Int
deriving DecidableEq, Repr, Inhabited

/-- The name without regard to case. -/
def Schema.Object.folded (o : Schema.Object) : List Char := Text.foldCase o.name

/-- A table and its indexes. -/
def Table.objects (t : Table) : List Schema.Object :=
  ⟨.table, t.name, t.root⟩ :: t.indexes.map fun i => ⟨.index, i.name, i.root⟩

namespace Schema

variable {schema schema' : Schema} {table : Table} {index : Index} {name : String} {o : Object}

/-- The tables and indexes of a schema. -/
def objects (schema : Schema) : List Object := schema.flatMap Table.objects

theorem table_mem_objects (h : table ∈ schema) : ⟨.table, table.name, table.root⟩ ∈ schema.objects :=
  List.mem_flatMap.mpr ⟨table, h, List.mem_cons_self⟩

theorem index_mem_objects (h : table ∈ schema) (hindex : index ∈ table.indexes) :
    ⟨.index, index.name, index.root⟩ ∈ schema.objects :=
  List.mem_flatMap.mpr ⟨table, h, List.mem_cons_of_mem _ (List.mem_map_of_mem hindex)⟩

theorem object_of_root {root : Int} (h : table ∈ schema) (hroot : root ∈ table.roots) :
    ∃ o ∈ schema.objects, o.root = root := by
  rcases List.mem_cons.mp hroot with rfl | hroot
  · exact ⟨_, table_mem_objects h, rfl⟩
  · obtain ⟨index, hindex, rfl⟩ := List.mem_map.mp hroot
    exact ⟨_, index_mem_objects h hindex, rfl⟩

theorem objects_append_ofDef (schema : Schema) (t : TableDef) (root : Int) :
    objects (schema ++ [Table.ofDef t root]) = schema.objects ++ [⟨.table, t.name, root⟩] := by
  rw [objects, List.flatMap_append]
  rfl

/-- An index that is added to a table is one more object. -/
theorem objects_withIndex (h : Database.withIndex schema name index = some schema') :
    schema'.objects.Perm (⟨.index, index.name, index.root⟩ :: schema.objects) := by
  induction schema generalizing schema' with
  | nil => cases h
  | cons t rest ih =>
    unfold Database.withIndex at h
    split at h
    · cases h
      simp only [objects, List.flatMap_cons, Table.objects, List.map_append, List.map_cons, List.map_nil,
        List.append_assoc, List.cons_append, List.nil_append]
      exact (List.perm_middle.cons _).trans (.swap ..)
    · obtain ⟨rest', hrest, rfl⟩ := Option.map_eq_some_iff.mp h
      simp only [objects, List.flatMap_cons] at ih ⊢
      exact ((ih hrest).append_left _).trans List.perm_middle

theorem folded_ne_of_none (htable : schema.table? name = none) (hindex : schema.index? name = none)
    (ho : o ∈ schema.objects) : o.folded ≠ Text.foldCase name := by
  obtain ⟨t, ht, ho⟩ := List.mem_flatMap.mp ho
  have hname := List.find?_eq_none.mp htable t ht
  have hindexes := List.findSome?_eq_none_iff.mp hindex t ht
  rcases List.mem_cons.mp ho with rfl | ho
  · simpa [Text.sameName, Object.folded] using hname
  · obtain ⟨i, hi, rfl⟩ := List.mem_map.mp ho
    have hi' := List.find?_eq_none.mp (Option.map_eq_none_iff.mp hindexes) i hi
    simpa [Text.sameName, Object.folded] using hi'

end Schema

/-! ## The rows of the catalog -/

namespace Catalog

/-- An entry of the catalog with the root of its tree. -/
abbrev Placed := Catalog.Entry × Int

/-- The values of the catalog row. -/
def Placed.values (e : Placed) : List Value := e.1.values (Int64.ofInt e.2)

/-- The rows of the catalog list the entries, numbered from 1 on. -/
structure Lists (rows : List (Int64 × Bytes)) (entries : List Placed) : Prop where
  ascending : Rows.Ascending rows
  numbers : ∀ row ∈ rows, row.1.toInt ≤ rows.length
  decoded : List.Forall₂ (fun row e => Record.decode row.2 = .ok (Placed.values e)) rows entries

variable {rows : List (Int64 × Bytes)} {entries : List Placed} {e : Catalog.Entry} {root : Int}
  {bytes : Bytes}

theorem Lists.length_eq (h : Lists rows entries) : rows.length = entries.length := h.decoded.length_eq

/-- The number that the next row gets is beyond all others. -/
theorem Lists.nextRowid (h : Lists rows entries) (hlength : (rows.length : Int) < 2 ^ 62) :
    (∀ row ∈ rows, row.1 < (Tree.table rows).nextRowid) ∧ (Tree.table rows).nextRowid.toInt ≤ rows.length + 1 := by
  rcases List.eq_nil_or_concat rows with rfl | ⟨front, last, rfl⟩
  · exact ⟨nofun, by decide⟩
  · rw [List.concat_eq_append] at h hlength ⊢
    have hlast := h.numbers last (List.mem_append_right _ List.mem_cons_self)
    have hlow := Int64.le_toInt last.1
    have hnext : (Tree.table (front ++ [last])).nextRowid = Integer.clamp (last.1.toInt + 1) := by
      simp only [Tree.nextRowid, List.getLast?_append, List.getLast?_singleton, Option.some_or]
    have hnumber : (Integer.clamp (last.1.toInt + 1)).toInt = last.1.toInt + 1 :=
      Integer.toInt_clamp (by omega) (by omega)
    rw [hnext, hnumber]
    refine ⟨fun row hrow => ?_, by omega⟩
    rw [Int64.lt_iff_toInt_lt, hnumber]
    rcases List.mem_append.mp hrow with hrow | hrow
    · have hlt := (List.pairwise_append.mp h.ascending).2.2 row hrow last List.mem_cons_self
      rw [Int64.lt_iff_toInt_lt] at hlt
      omega
    · obtain rfl := List.mem_singleton.mp hrow
      omega

/-- A further entry is listed at the end. -/
theorem Lists.add (h : Lists rows entries) (hlength : (rows.length : Int) < 2 ^ 62)
    (hencode : e.encode (Int64.ofInt root) = .ok bytes) :
    Lists (Rows.put (Tree.table rows).nextRowid bytes rows) (entries ++ [(e, root)]) := by
  obtain ⟨hbeyond, hnumber⟩ := h.nextRowid hlength
  refine ⟨h.ascending.put, ?_, ?_⟩
  · rw [Rows.put_of_forall_lt hbeyond]
    intro row hrow
    rw [List.length_append, List.length_singleton]
    rcases List.mem_append.mp hrow with hrow | hrow
    · have hle := h.numbers row hrow
      omega
    · obtain rfl := List.mem_singleton.mp hrow
      exact hnumber
  · rw [Rows.put_of_forall_lt hbeyond]
    exact List.rel_append h.decoded (.cons (Record.decode_encode hencode) .nil)

theorem Lists.decodeRows (h : Lists rows entries) :
    ∃ decoded, Database.decodeRows rows = .ok decoded ∧ decoded.map (·.2) = entries.map Placed.values := by
  obtain ⟨-, -, hdecoded⟩ := h
  induction hdecoded with
  | nil => exact ⟨[], rfl, rfl⟩
  | @cons row e rows entries hrow _ ih =>
    obtain ⟨decoded, hdecoded, hvalues⟩ := ih
    refine ⟨(row.1, Placed.values e) :: decoded, ?_, ?_⟩
    · rw [Database.decodeRows, hrow, hdecoded]
    · rw [List.map_cons, List.map_cons, hvalues]

end Catalog

/-- The catalog lists the entries, each of which has a tree of its kind. -/
structure Store.Catalogued (st : Store) (entries : List Placed) : Prop where
  catalog : ∃ rows, st.tree? Catalog.root = some (.table rows) ∧ Lists rows entries
  ascending : entries.Pairwise (·.2 < ·.2)
  range : ∀ e ∈ entries, Catalog.root < e.2 ∧ e.2 < st.nextRoot
  room : Catalog.root + entries.length < st.nextRoot
  trees : ∀ e ∈ entries, ∃ tree, st.tree? e.2 = some tree ∧ tree.Like e.1.tree

/-! ## What a statement leaves of the catalog -/

theorem Tree.like_refl (tree : Tree) : tree.Like tree := by
  cases tree <;> trivial

namespace Store

variable {st st' : Store} {root : Int} {tree model : Tree} {entries : List Placed} {e : Catalog.Entry}

/-- A tree is made once, and keeps its kind from then on. -/
theorem Change.like (h : st.Change st') (hroot : root ≠ st.nextRoot) (htree : st.tree? root = some tree)
    (hlike : tree.Like model) : ∃ tree', st'.tree? root = some tree' ∧ tree'.Like model := by
  have hset : ∀ {root' : Int} {old new : Tree}, st.tree? root' = some old → new.Like old →
      ∃ tree', (st.setTree root' new).tree? root = some tree' ∧ tree'.Like model := by
    intro root' old new hold hnew
    by_cases heq : root = root'
    · subst heq
      cases hold.symm.trans htree
      exact ⟨new, tree?_setTree_self .., (Tree.like_refl tree).trans hnew hlike⟩
    · exact ⟨tree, (tree?_setTree_of_ne heq).trans htree, hlike⟩
  cases h with
  | same => exact ⟨tree, htree, hlike⟩
  | put id record hold => exact hset hold trivial
  | erase id hold => exact hset hold trivial
  | addKey key hold => exact hset hold trivial
  | eraseKey key hold => exact hset hold trivial
  | clear hold =>
    rename_i old
    exact hset hold (by cases old <;> trivial)
  | create => exact ⟨tree, (tree?_create_of_ne hroot).trans htree, hlike⟩

theorem Change.nextRoot_le (h : st.Change st') : st.nextRoot ≤ st'.nextRoot := by
  cases h with
  | create => exact Int.le_add_one (Int.le_refl _)
  | _ => exact Int.le_refl _

theorem Changes.nextRoot_le (h : st.Changes st') : st.nextRoot ≤ st'.nextRoot := by
  induction h with
  | refl => exact Int.le_refl _
  | tail _ hstep ih => exact Int.le_trans ih hstep.nextRoot_le

theorem Changes.like (h : st.Changes st') (hroot : root < st.nextRoot) (htree : st.tree? root = some tree)
    (hlike : tree.Like model) : ∃ tree', st'.tree? root = some tree' ∧ tree'.Like model := by
  induction h with
  | refl => exact ⟨tree, htree, hlike⟩
  | tail hsteps hstep ih =>
    obtain ⟨tree', htree', hlike'⟩ := ih
    have hle := Changes.nextRoot_le hsteps
    exact hstep.like (by omega) htree' hlike'

section

variable (h : st.Catalogued entries)

include h

/-- Changes to other trees leave the catalog as it is. -/
theorem Catalogued.onlyAt {roots : List Int} (hother : st.OnlyAt roots st')
    (hroots : Catalog.root ∉ roots) (hchanges : st.Changes st') : st'.Catalogued entries where
  catalog := by
    rw [hother.other _ hroots]
    exact h.catalog
  ascending := h.ascending
  range := hother.nextRoot ▸ h.range
  room := hother.nextRoot ▸ h.room
  trees e he := by
    obtain ⟨tree, htree, hlike⟩ := h.trees e he
    exact hchanges.like (h.range e he).2 htree hlike

theorem Catalogued.made (e : Catalog.Entry) : (Made st e).Catalogued entries := by
  have hroom := h.room
  refine ⟨?_, h.ascending, ?_, Int.lt_add_one_of_le (Int.le_of_lt hroom), ?_⟩
  · obtain ⟨rows, hrows, hlists⟩ := h.catalog
    exact ⟨rows, (tree?_create_of_ne (by omega)).trans hrows, hlists⟩
  · exact fun e he => ⟨(h.range e he).1, Int.lt_add_one_of_le (Int.le_of_lt (h.range e he).2)⟩
  · intro e he
    obtain ⟨tree, htree, hlike⟩ := h.trees e he
    exact ⟨tree, (tree?_create_of_ne (Int.ne_of_lt (h.range e he).2)).trans htree, hlike⟩

/-- An entry whose tree was made is entered. -/
theorem Catalogued.entered (hrange : Integer.inRange32 st.nextRoot = true) (hentered : Entered st e st') :
    st'.Catalogued (entries ++ [(e, st.nextRoot)]) := by
  have hroom := h.room
  have hnew : st.nextRoot ≠ Catalog.root := by omega
  obtain ⟨rows, bytes, hrows, hencode, rfl⟩ := hentered
  obtain ⟨rows', hrows', hlists⟩ := (h.made e).catalog
  cases hrows.symm.trans hrows'
  simp only [Integer.inRange32, Bool.and_eq_true, decide_eq_true_eq] at hrange
  have hshort : (rows.length : Int) < 2 ^ 62 := by
    rw [hlists.length_eq]
    simp only [Catalog.root] at hroom
    omega
  refine ⟨⟨_, tree?_setTree_self .., hlists.add hshort hencode⟩, ?_, ?_, ?_, ?_⟩
  · refine List.pairwise_append.mpr ⟨h.ascending, List.pairwise_singleton .., ?_⟩
    intro a ha b hb
    obtain rfl := List.mem_singleton.mp hb
    exact (h.range a ha).2
  · intro a ha
    have hnext : ((Made st e).setTree Catalog.root (.table (Rows.put (Tree.table rows).nextRowid bytes
      rows))).nextRoot = st.nextRoot + 1 := rfl
    rw [hnext]
    rcases List.mem_append.mp ha with ha | ha
    · exact ⟨(h.range a ha).1, Int.lt_add_one_of_le (Int.le_of_lt (h.range a ha).2)⟩
    · obtain rfl := List.mem_singleton.mp ha
      exact ⟨by dsimp only; omega, Int.lt_add_one_of_le (Int.le_refl _)⟩
  · have hnext : ((Made st e).setTree Catalog.root (.table (Rows.put (Tree.table rows).nextRowid bytes
      rows))).nextRoot = st.nextRoot + 1 := rfl
    rw [hnext, List.length_append, List.length_singleton]
    omega
  · intro a ha
    rcases List.mem_append.mp ha with ha | ha
    · obtain ⟨tree, htree, hlike⟩ := (h.made e).trees a ha
      exact ⟨tree, (tree?_setTree_of_ne (Int.ne_of_gt (h.range a ha).1)).trans htree, hlike⟩
    · obtain rfl := List.mem_singleton.mp ha
      exact ⟨e.tree, (tree?_setTree_of_ne hnew).trans (tree?_create_self ..), Tree.like_refl _⟩

/-- Keys in the tree of a new entry leave the catalog as it is. -/
theorem Catalogued.filled (hrange : Integer.inRange32 st.nextRoot = true) (hkind : e.kind = .index)
    (hfilled : Filled st e st') : st'.Catalogued (entries ++ [(e, st.nextRoot)]) := by
  have hroom := h.room
  obtain ⟨st1, keys, hentered, -, hkeys, hother, hnext⟩ := hfilled
  have h1 := h.entered hrange hentered
  refine ⟨?_, h1.ascending, hnext ▸ h1.range, hnext ▸ h1.room, fun a ha => ?_⟩
  · obtain ⟨rows, hrows, hlists⟩ := h1.catalog
    exact ⟨rows, (hother _ (by omega)).trans hrows, hlists⟩
  · by_cases heq : a.2 = st.nextRoot
    · refine ⟨.index keys, heq ▸ hkeys, ?_⟩
      rcases List.mem_append.mp ha with ha | ha
      · exact absurd heq (Int.ne_of_lt (h.range a ha).2)
      · obtain rfl := List.mem_singleton.mp ha
        rw [Entry.tree, hkind]
        trivial
    · obtain ⟨tree, htree, hlike⟩ := h1.trees a ha
      exact ⟨tree, (hother _ heq).trans htree, hlike⟩

/-- **What CREATE leaves of the catalog**: the entries are as they were, or the new one is the last. -/
theorem Catalogued.begun (hrange : Integer.inRange32 st.nextRoot = true) (hbegun : Begun st e st') :
    st'.Catalogued entries ∨ st'.Catalogued (entries ++ [(e, st.nextRoot)]) := by
  cases hbegun with
  | nothing => exact .inl h
  | made => exact .inl (h.made e)
  | entered hentered => exact .inr (h.entered hrange hentered)
  | filled hkind hfilled => exact .inr (h.filled hrange hkind hfilled)

end

end Store

/-! ## The schema and the catalog -/

/-- Names are given once, and every table and index has the root of the first entry with its name. -/
structure Schema.Listed (schema : Schema) (entries : List Placed) : Prop where
  names : (schema.objects.map (·.folded)).Nodup
  roots : ∀ o ∈ schema.objects, ∃ e, entries.find? (·.1.name == o.name) = some e ∧ e.2 = o.root

namespace Schema.Listed

variable {schema schema' : Schema} {entries : List Placed} {o : Object}

theorem append (h : schema.Listed entries) (more : List Placed) : schema.Listed (entries ++ more) where
  names := h.names
  roots o ho := by
    obtain ⟨e, he, hroot⟩ := h.roots o ho
    exact ⟨e, by rw [List.find?_append, he, Option.some_or], hroot⟩

/-- An object under a new name, with the root of the first entry of that name. -/
theorem add (h : schema.Listed entries) (hobjects : schema'.objects.Perm (o :: schema.objects))
    (hname : ∀ o' ∈ schema.objects, o'.folded ≠ o.folded) {e : Placed}
    (he : entries.find? (·.1.name == o.name) = some e) (hroot : e.2 = o.root) : schema'.Listed entries where
  names := by
    rw [(hobjects.map _).nodup_iff, List.map_cons, List.nodup_cons]
    refine ⟨fun hin => ?_, h.names⟩
    obtain ⟨o', ho', heq⟩ := List.mem_map.mp hin
    exact hname o' ho' heq
  roots o' ho' := by
    rcases List.mem_cons.mp (hobjects.mem_iff.mp ho') with rfl | ho'
    · exact ⟨e, he, hroot⟩
    · exact h.roots o' ho'

/-- Roots are given once, and not that of the catalog. -/
theorem roots_nodup (h : schema.Listed entries) {st : Store} (hst : st.Catalogued entries) :
    (Catalog.root :: schema.objects.map (·.root)).Nodup := by
  refine List.nodup_cons.mpr ⟨fun hin => ?_, ?_⟩
  · obtain ⟨o, ho, hroot⟩ := List.mem_map.mp hin
    obtain ⟨e, he, heq⟩ := h.roots o ho
    have hlt := (hst.range e (List.mem_of_find?_eq_some he)).1
    omega
  · -- Objects with the same root have the same entry, and so the same name.
    refine List.Nodup.map_on ?_ (List.Nodup.of_map _ h.names)
    intro a ha b hb hroot
    obtain ⟨e, he, hea⟩ := h.roots a ha
    obtain ⟨f, hf, hfb⟩ := h.roots b hb
    have hsame : e = f := by
      have hnodup : (entries.map (·.2)).Nodup :=
        List.pairwise_map.mpr (hst.ascending.imp fun hlt => Int.ne_of_lt hlt)
      exact List.inj_on_of_nodup_map hnodup (List.mem_of_find?_eq_some he) (List.mem_of_find?_eq_some hf)
        (hea.trans (hroot.trans hfb.symm))
    have hnames : a.name = b.name := by
      have hna := List.find?_some he
      have hnb := List.find?_some hf
      rw [hsame] at hna
      exact (eq_of_beq hna).symm.trans (eq_of_beq hnb)
    exact List.inj_on_of_nodup_map h.names ha hb (congrArg Text.foldCase hnames)

end Schema.Listed

/-! ## Databases -/

theorem Integer.inRange32_of_le {i j : Int} (h : inRange32 j = true) (hlow : 0 ≤ i) (hle : i ≤ j) :
    inRange32 i = true := by
  simp only [inRange32, Bool.and_eq_true, decide_eq_true_eq] at h ⊢
  omega

theorem Integer.toInt_ofInt_of_inRange32 {i : Int} (h : inRange32 i = true) : (Int64.ofInt i).toInt = i := by
  simp only [inRange32, Bool.and_eq_true, decide_eq_true_eq] at h
  exact Int64.toInt_ofInt_of_le (by omega) (by omega)

namespace Database

variable {db : Database} {entries : List Placed} {statement : Statement} {name : String} {root : Int}

/-- The catalog lists the entries, and the schema agrees with them. -/
structure Catalogued (db : Database) (entries : List Placed) : Prop where
  store : db.store.Catalogued entries
  schema : db.schema.Listed entries

theorem catalogued_empty (options : Options) : (empty options).Catalogued [] := by
  refine ⟨⟨⟨[], Slots.get?_set_self .., .nil, nofun, .nil⟩, .nil, nofun, Int.lt_succ _, nofun⟩, .nil, nofun⟩

theorem catalog_eq_of_lists {rows : List (Int64 × Bytes)} (hrows : db.store.tree? Catalog.root = some (.table rows))
    (hlists : Lists rows entries) : db.catalog = .ok (entries.map Placed.values) := by
  obtain ⟨decoded, hdecoded, hvalues⟩ := hlists.decodeRows
  rw [catalog, rowsAt, hrows]
  simp only [hdecoded, Fault.lift, hvalues]

theorem Catalogued.catalog_eq (h : db.Catalogued entries) : db.catalog = .ok (entries.map Placed.values) := by
  obtain ⟨rows, hrows, hlists⟩ := h.store.catalog
  exact catalog_eq_of_lists hrows hlists

/-- The root under a name is that of the first entry with the name. -/
theorem rootOf?_values (h : ∀ e ∈ entries, Integer.inRange32 e.2 = true) :
    rootOf? (entries.map Placed.values) name = (entries.find? (·.1.name == name)).map (·.2) := by
  have hname : ((fun row : List Value => row[1]?.bind Value.text? == some name) ∘ Placed.values) =
      fun e => e.1.name == name := by
    funext e
    rfl
  rw [rootOf?, List.find?_map, hname]
  cases hfind : entries.find? (·.1.name == name) with
  | none => rfl
  | some e =>
    have hrange := h e (List.mem_of_find?_eq_some hfind)
    have hroot : ((Placed.values e)[3]?.bind Value.int?) = some (Int64.ofInt e.2) := rfl
    simp only [Option.map_some, hroot, Integer.toInt_ofInt_of_inRange32 hrange, hrange, if_true]

section

variable (h : db.Catalogued entries)

include h

theorem Catalogued.inRange32 (hrange : db.HasRoom) : ∀ e ∈ entries, Integer.inRange32 e.2 = true := by
  intro e he
  obtain ⟨hlow, hhigh⟩ := h.store.range e he
  simp only [Catalog.root] at hlow
  exact Integer.inRange32_of_le hrange (by omega) (by omega)

theorem Catalogued.range {o : Schema.Object} (ho : o ∈ db.schema.objects) :
    Catalog.root < o.root ∧ o.root < db.store.nextRoot := by
  obtain ⟨e, he, hroot⟩ := h.schema.roots o ho
  exact hroot ▸ h.store.range e (List.mem_of_find?_eq_some he)

theorem Catalogued.prepared (hrange : db.HasRoom) : db.Prepared where
  catalog := h.store.catalog.imp fun _ => And.left
  next := by
    have hroom := h.store.room
    omega
  range := hrange

theorem Catalogued.tables {table : Table} (htable : table ∈ db.schema) :
    table.root ≠ Catalog.root ∧ table.root ≠ db.store.nextRoot ∧ ∃ tree, db.store.tree? table.root = some tree := by
  have ho := Schema.table_mem_objects htable
  have hroots := h.range ho
  obtain ⟨e, he, hroot⟩ := h.schema.roots _ ho
  obtain ⟨tree, htree, -⟩ := h.store.trees e (List.mem_of_find?_eq_some he)
  dsimp only at hroots hroot
  exact ⟨by omega, by omega, tree, hroot ▸ htree⟩

/-- A new root is found for new names only, at the first entry with the name. -/
theorem Catalogued.newRoot (hrange : db.HasRoom) (hnew : db.newRoot name = .ok (some root)) :
    (∀ o ∈ db.schema.objects, o.folded ≠ Text.foldCase name) ∧
      ∃ e, entries.find? (·.1.name == name) = some e ∧ e.2 = root := by
  unfold Database.newRoot at hnew
  split at hnew
  · cases hnew
  · rename_i hfresh
    simp only [Bool.or_eq_true, not_or, Bool.not_eq_true, Option.isSome_eq_false_iff,
      Option.isNone_iff_eq_none] at hfresh
    rw [h.catalog_eq] at hnew
    simp only [rootOf?_values (h.inRange32 hrange)] at hnew
    refine ⟨fun o ho => Schema.folded_ne_of_none hfresh.1 hfresh.2 ho, ?_⟩
    cases hfind : entries.find? (·.1.name == name) with
    | none =>
      rw [hfind] at hnew
      cases hnew
    | some e =>
      rw [hfind] at hnew
      cases hnew
      exact ⟨e, rfl, rfl⟩

/-- A new table or index gets the root of the first entry with its name. -/
theorem Catalogued.schemaAfter (hrange : db.HasRoom) {schema : Schema}
    (hschema : db.schemaAfter statement = .ok schema) : schema.Listed entries := by
  cases statement with
  | select | insert | update | delete =>
    cases hschema
    exact h.schema
  | createTable t =>
    simp only [Database.schemaAfter] at hschema
    split at hschema
    · cases hschema
    · cases hschema
      exact h.schema
    · rename_i root hroot
      cases hschema
      obtain ⟨hfresh, e, he, heq⟩ := h.newRoot hrange hroot
      refine h.schema.add (o := ⟨.table, t.name, root⟩) ?_ hfresh he heq
      rw [Schema.objects_append_ofDef]
      exact List.perm_append_singleton ..
  | createIndex i =>
    simp only [Database.schemaAfter] at hschema
    split at hschema
    · cases hschema
    · cases hschema
      exact h.schema
    · rename_i root hroot
      split at hschema
      · rename_i schema' hwith
        cases hschema
        obtain ⟨hfresh, e, he, heq⟩ := h.newRoot hrange hroot
        exact h.schema.add (Schema.objects_withIndex hwith) hfresh he heq
      · cases hschema

end

theorem nextRoot_le_execute (db : Database) (statement : Statement) :
    db.store.nextRoot ≤ (db.execute statement).2.store.nextRoot :=
  Store.Changes.nextRoot_le (execute_changes db statement)

theorem inRange32_of_execute {db' : Database} {result : Except Fault Answer} (hlow : Catalog.root < db.store.nextRoot)
    (hrange : db'.HasRoom) (hrun : db.execute statement = (result, db')) : db.HasRoom := by
  have hnext := nextRoot_le_execute db statement
  rw [hrun] at hnext
  simp only [Catalog.root] at hlow
  exact Integer.inRange32_of_le hrange (by omega) hnext

/-- The entries after a statement: a CREATE may add its own. -/
def Adds (db : Database) (statement : Statement) (more : List Placed) : Prop :=
  more = [] ∨ ∃ e, Entry.ofStatement statement = .ok e ∧ more = [(e, db.store.nextRoot)]

/-- **Statements keep the catalog and the schema in step**, whether they succeed or not. -/
theorem Catalogued.execute (h : db.Catalogued entries)
    (hrange : Integer.inRange32 (db.execute statement).2.store.nextRoot = true) :
    ∃ more, db.Adds statement more ∧ (db.execute statement).2.Catalogued (entries ++ more) := by
  have hroom := h.store.room
  have hrange0 := inRange32_of_execute (by omega) hrange rfl
  -- What the catalog lists after the program.
  obtain ⟨more, hadds, hstore⟩ : ∃ more, db.Adds statement more ∧
      (db.execute statement).2.store.Catalogued (entries ++ more) := by
    by_cases hcreate : ∃ e, Entry.ofStatement statement = .ok e
    · obtain ⟨e, he⟩ := hcreate
      rcases h.store.begun hrange0 (execute_begun (h.prepared hrange0) he) with hst | hst
      · exact ⟨[], .inl rfl, by rwa [List.append_nil]⟩
      · exact ⟨_, .inr ⟨e, he, rfl⟩, hst⟩
    · have hother := @execute_only db statement fun e he => hcreate ⟨e, he⟩
      refine ⟨[], .inl rfl, ?_⟩
      rw [List.append_nil]
      refine h.store.onlyAt hother (fun hin => ?_) (execute_changes db statement)
      obtain ⟨table, htable, hin⟩ := roots_of_touched hin
      obtain ⟨o, ho, hroot⟩ := Schema.object_of_root htable hin
      have hlow := (h.range ho).1
      omega
  refine ⟨more, hadds, hstore, ?_⟩
  -- The schema is as it was, or one object richer.
  have hlisted := h.schema.append more
  rcases db.execute_cases statement with ⟨e, -, heq⟩ | ⟨program, columns, -, ⟨f, heq⟩ | ⟨execution, schema,
    -, hschema, heq⟩⟩
  · rwa [heq]
  · rw [heq, run_eq]
    exact hlisted
  · rw [heq] at hstore hrange ⊢
    have hdb : (db.run program).2.Catalogued (entries ++ more) := ⟨hstore, hlisted⟩
    exact hdb.schemaAfter hrange hschema

/-- A database that statements and settings lead to from an empty one. -/
inductive Driven : Database → Prop
  | empty (options : Options) : Driven (empty options)
  | execute {db : Database} (h : Driven db) (statement : Statement) : Driven (db.execute statement).2
  | addForeignKey {db : Database} (h : Driven db) (key : ForeignKey) : Driven (db.addForeignKey key)
  | configure {db : Database} (h : Driven db) (options : Options) : Driven { db with options }
  | limit {db : Database} (h : Driven db) (stepLimit : Nat) : Driven { db with stepLimit }

theorem Driven.reachable (h : db.Driven) : db.Reachable := by
  induction h with
  | empty options => exact .empty options
  | execute _ statement ih => exact ih.execute statement
  | addForeignKey _ key ih => exact ih.addForeignKey key
  | configure _ options ih => exact ih.configure options
  | limit _ stepLimit ih => exact ih.limit stepLimit

theorem Driven.root_lt_nextRoot (h : db.Driven) : Catalog.root < db.store.nextRoot := by
  induction h with
  | empty options => exact Int.lt_succ _
  | @execute db _ statement ih => exact Int.lt_of_lt_of_le ih (db.nextRoot_le_execute statement)
  | addForeignKey | configure | limit => assumption

/-- **In every database that statements lead to, the schema agrees with the catalog.** -/
theorem Driven.catalogued (h : db.Driven) (hrange : db.HasRoom) : ∃ entries, db.Catalogued entries := by
  induction h with
  | empty options => exact ⟨[], catalogued_empty options⟩
  | @execute db hdb statement ih =>
    obtain ⟨entries, h⟩ := ih (inRange32_of_execute hdb.root_lt_nextRoot hrange rfl)
    obtain ⟨more, -, h⟩ := h.execute hrange
    exact ⟨_, h⟩
  | addForeignKey _ key ih =>
    obtain ⟨entries, h⟩ := ih hrange
    exact ⟨entries, h.store, h.schema⟩
  | configure _ options ih =>
    obtain ⟨entries, h⟩ := ih hrange
    exact ⟨entries, h.store, h.schema⟩
  | limit _ stepLimit ih =>
    obtain ⟨entries, h⟩ := ih hrange
    exact ⟨entries, h.store, h.schema⟩

end Database

end QueryMachine
