import QueryMachine.Proofs.Compile.IndexKey

/-!
# Tables and their indexes

An index mirrors a table where its keys are the keys of the rows, one for each. Taking the key of a
row out and putting the key of a row in keep step with deleting and storing the row.

* `Store.Mirrors` — the keys of an index are the keys of the rows.
* `Table.Kept` — a table in order, with indexes that mirror it.
* `Store.Mirrors.erase`, `Store.Mirrors.put` — one row is deleted, or stored.
* `Store.Written` — what a statement did to a table and its indexes.
-/

namespace QueryMachine

open Machine

variable {st st' : Store} {table : Table} {index : Index} {rows : List (Int64 × Bytes)} {e : Entry}

/-- The keys of an index are the keys of the rows. -/
def Store.Mirrors (st : Store) (table : Table) (index : Index) (rows : List (Int64 × Bytes)) : Prop :=
  ∃ keys, st.tree? index.root = some (.index keys) ∧
    ∀ key, key ∈ keys ↔ ∃ e ∈ Rows.entries rows, key = table.key index.columns e

/-- A table whose rows are in order and fit their columns, and whose indexes mirror it. -/
structure Table.Kept (table : Table) (st : Store) (rows : List (Int64 × Bytes)) : Prop where
  tree : st.tree? table.root = some (.table rows)
  ascending : Rows.Ascending rows
  fits : ∀ row ∈ rows, ∃ values, Record.decode row.2 = .ok values ∧ table.Fits values
  mirrors : ∀ index ∈ table.indexes, st.Mirrors table index rows

/-! ## Entries -/

/-- The entry of a row. -/
def Rows.entry (row : Int64 × Bytes) : Entry := (row.1, (Record.decode row.2).toOption.getD [])

theorem Rows.entries_eq_map (rows : List (Int64 × Bytes)) : entries rows = rows.map entry := rfl

theorem Rows.entry_mem_entries {row : Int64 × Bytes} (h : row ∈ rows) : entry row ∈ entries rows :=
  List.mem_map_of_mem h

theorem Rows.entry_mem_middle (before : List (Int64 × Bytes)) (row : Int64 × Bytes) (rest : List (Int64 × Bytes)) :
    entry row ∈ entries (before ++ row :: rest) :=
  entry_mem_entries (List.mem_append_right _ List.mem_cons_self)

theorem Rows.mem_entries : e ∈ entries rows ↔
    ∃ record, (e.1, record) ∈ rows ∧ e.2 = (Record.decode record).toOption.getD [] := by
  constructor
  · intro h
    obtain ⟨row, hrow, rfl⟩ := List.mem_map.mp h
    exact ⟨row.2, hrow, rfl⟩
  · rintro ⟨record, hrow, hvalues⟩
    refine List.mem_map.mpr ⟨_, hrow, ?_⟩
    rw [← hvalues]

theorem Rows.mem_entries_erase {id : Int64} : e ∈ entries (erase id rows) ↔ e ∈ entries rows ∧ e.1 ≠ id := by
  simp only [mem_entries, mem_erase]
  constructor
  · rintro ⟨record, ⟨hrow, hid⟩, hvalues⟩
    exact ⟨⟨record, hrow, hvalues⟩, hid⟩
  · rintro ⟨⟨record, hrow, hvalues⟩, hid⟩
    exact ⟨record, ⟨hrow, hid⟩, hvalues⟩

theorem Rows.mem_entries_put (h : Ascending rows) {record : Bytes} {e' : Entry}
    (hdecode : Record.decode record = .ok e.2) :
    e' ∈ entries (put e.1 record rows) ↔ e' = e ∨ e' ∈ entries rows ∧ e'.1 ≠ e.1 := by
  simp only [mem_entries, mem_put h]
  constructor
  · rintro ⟨record', hrow | ⟨hrow, hid⟩, hvalues⟩
    · obtain ⟨hid, rfl⟩ := Prod.mk.inj hrow
      rw [hdecode] at hvalues
      exact .inl (Prod.ext hid hvalues)
    · exact .inr ⟨⟨record', hrow, hvalues⟩, hid⟩
  · rintro (rfl | ⟨⟨record', hrow, hvalues⟩, hid⟩)
    · exact ⟨record, .inl rfl, by rw [hdecode]; rfl⟩
    · exact ⟨record', .inr ⟨hrow, hid⟩, hvalues⟩

theorem Rows.Ascending.eq_of_mem_entries (h : Ascending rows) {e' : Entry} (he : e ∈ entries rows)
    (he' : e' ∈ entries rows) (hid : e.1 = e'.1) : e = e' := by
  obtain ⟨record, hrow, hvalues⟩ := mem_entries.mp he
  obtain ⟨record', hrow', hvalues'⟩ := mem_entries.mp he'
  have hget := (get?_eq_some h).mpr hrow
  have hget' := (get?_eq_some h).mpr hrow'
  rw [hid, hget'] at hget
  cases hget
  exact Prod.ext hid (hvalues.trans hvalues'.symm)

/-! ## One row -/

/-- What is left of the keys of an index after the keys of a row are taken out of all indexes. -/
theorem Keys.mem_erase_all {indexes : List Index} {root : Int} {keys : List (List Value)}
    {key : List Value} : key ∈ indexes.foldl (fun keys index => if index.root = root then
        Keys.erase (table.key index.columns e) keys else keys) keys ↔
      key ∈ keys ∧ ∀ index ∈ indexes, index.root = root →
        Value.orderRows key (table.key index.columns e) ≠ .eq := by
  induction indexes generalizing keys with
  | nil => simp
  | cons first rest ih =>
    rw [List.foldl_cons, ih]
    split
    · rename_i hroot
      simp only [Keys.mem_erase, List.forall_mem_cons, hroot, true_implies, and_assoc]
    · rename_i hroot
      simp only [List.forall_mem_cons, hroot, false_implies, true_and]

/-- The key of a row is taken out where the row is deleted. -/
theorem Store.Mirrors.erase {indexes : List Index} {st1 : Store} (h : st.Mirrors table index rows)
    (hrows : Rows.Ascending rows) (he : e ∈ Rows.entries rows) (hkeys : st.Rekeyed Keys.erase table e indexes st1)
    (hindex : index ∈ indexes) (htree : st'.tree? index.root = st1.tree? index.root) :
    st'.Mirrors table index (Rows.erase e.1 rows) := by
  obtain ⟨keys, hroot, hmem⟩ := h
  refine ⟨_, htree.trans (hkeys.keys _ keys hroot), fun key => ?_⟩
  simp only [Keys.mem_erase_all, hmem, Rows.mem_entries_erase]
  constructor
  · rintro ⟨⟨e', he', rfl⟩, hne⟩
    refine ⟨e', ⟨he', fun hid => hne index hindex rfl ?_⟩, rfl⟩
    rw [hrows.eq_of_mem_entries he' he hid]
    exact Value.orderRows_self _
  · rintro ⟨e', ⟨he', hid⟩, rfl⟩
    exact ⟨⟨e', he', rfl⟩, fun _ _ _ heq => hid (Table.eq_of_orderRows_key heq)⟩

/-- The key of a row is put in where the row is stored, unless the row replaces one with another
key. -/
theorem Store.Mirrors.put (h : st.Mirrors table index rows) (hrows : Rows.Ascending rows)
    {record : Bytes} (hdecode : Record.decode record = .ok e.2)
    (hsame : ∀ e' ∈ Rows.entries rows, e'.1 = e.1 →
      table.key index.columns e' = table.key index.columns e)
    (htree : ∀ keys, st.tree? index.root = some (.index keys) → st'.tree? index.root =
      some (.index (Keys.add (table.key index.columns e) keys))) :
    st'.Mirrors table index (Rows.put e.1 record rows) := by
  obtain ⟨keys, hkeys, hmem⟩ := h
  refine ⟨_, htree keys hkeys, fun key => ?_⟩
  have hequal : ∀ k ∈ keys, Value.orderRows (table.key index.columns e) k = .eq →
      k = table.key index.columns e := by
    intro k hk heq
    obtain ⟨e', he', rfl⟩ := (hmem k).mp hk
    exact hsame e' he' (Table.eq_of_orderRows_key heq).symm
  simp only [Keys.mem_add hequal, hmem, Rows.mem_entries_put hrows hdecode]
  constructor
  · rintro (rfl | ⟨e', he', rfl⟩)
    · exact ⟨e, .inl rfl, rfl⟩
    · by_cases hid : e'.1 = e.1
      · exact ⟨e, .inl rfl, hsame e' he' hid⟩
      · exact ⟨e', .inr ⟨he', hid⟩, rfl⟩
  · rintro ⟨e', rfl | ⟨he', -⟩, rfl⟩
    · exact .inl rfl
    · exact .inr ⟨e', he', rfl⟩

/-! ## What a statement did to a table -/

/-- The rows of the table changed and no trees did but its own; the indexes for which `T` holds
mirror the new rows if they mirrored the old ones. -/
structure Store.Written (table : Table) (indexes : List Index) (T : Index → Prop)
    (rows rows' : List (Int64 × Bytes)) (st st' : Store) : Prop where
  tree : st'.tree? table.root = some (.table rows')
  only : st.OnlyAt (table.root :: indexes.map (·.root)) st'
  mirrors : ∀ index ∈ indexes, T index → st.Mirrors table index rows → st'.Mirrors table index rows'

namespace Store.Written

variable {indexes : List Index} {T T' : Index → Prop} {rows' rows'' : List (Int64 × Bytes)}
  {st1 st2 : Store} {record : Bytes}

theorem refl (h : st.tree? table.root = some (.table rows)) : st.Written table indexes T rows rows st :=
  ⟨h, .refl _ _, fun _ _ _ h => h⟩

theorem trans (h : Written table indexes T rows rows' st st1)
    (k : Written table indexes T rows' rows'' st1 st2) : Written table indexes T rows rows'' st st2 :=
  ⟨k.tree, h.only.trans k.only, fun index hin ht hm => k.mirrors index hin ht (h.mirrors index hin ht hm)⟩

theorem mono (h : Written table indexes T rows rows' st st') (hT : ∀ index, T' index → T index) :
    Written table indexes T' rows rows' st st' :=
  ⟨h.tree, h.only, fun index hin ht => h.mirrors index hin (hT index ht)⟩

/-- A row was stored, and then its keys were put in. They are the keys of the row `raw` before it was
stored. -/
theorem put {raw : Entry} (hrows : Rows.Ascending rows) (hdecode : Record.decode record = .ok e.2)
    (hst : st1 = st.setTree table.root (.table (Rows.put e.1 record rows)))
    (hkeys : st1.Rekeyed Keys.add table raw indexes st2) :
    Written table indexes (fun index => (indexes.map (·.root)).Nodup ∧
      table.key index.columns raw = table.key index.columns e ∧ ∀ e' ∈ Rows.entries rows, e'.1 = e.1 →
        table.key index.columns e' = table.key index.columns e) rows (Rows.put e.1 record rows) st st2 := by
  subst hst
  have hout := hkeys.outside
  refine ⟨?_, ⟨hkeys.nextRoot, fun root hroot => ?_⟩, ?_⟩
  · rw [hkeys.other _ hout]
    exact Store.tree?_setTree_self ..
  · obtain ⟨hne, hroot⟩ := not_or.mp (mt List.mem_cons.mpr hroot)
    rw [hkeys.other root hroot]
    exact Store.tree?_setTree_of_ne hne
  · rintro index hin ⟨hroots, hkey, hsame⟩ hmirrors
    refine hmirrors.put hrows hdecode hsame fun keys htree => ?_
    rw [← hkey]
    refine hkeys.keys_of_nodup hroots hin
      ((Store.tree?_setTree_of_ne ?_).trans htree)
    exact fun heq => hout (List.mem_map.mpr ⟨index, hin, heq⟩)

/-- The keys of a row were taken out, and then the row was deleted. -/
theorem erase (hrows : Rows.Ascending rows)
    (he : e ∈ Rows.entries rows) (hkeys : st.Rekeyed Keys.erase table e indexes st1)
    (hst : st2 = st1.setTree table.root (.table (Rows.erase e.1 rows))) :
    Written table indexes T rows (Rows.erase e.1 rows) st st2 := by
  subst hst
  refine ⟨Store.tree?_setTree_self .., ⟨hkeys.nextRoot, fun root hroot => ?_⟩, ?_⟩
  · obtain ⟨hne, hroot⟩ := not_or.mp (mt List.mem_cons.mpr hroot)
    exact (Store.tree?_setTree_of_ne hne).trans (hkeys.other root hroot)
  · intro index hin _ hmirrors
    refine hmirrors.erase hrows he hkeys hin ?_
    exact Store.tree?_setTree_of_ne fun heq => hkeys.outside (List.mem_map.mpr ⟨index, hin, heq⟩)

end Store.Written

/-! ## Values that are stored as they are -/

/-- The affinities of the indexed columns leave the values as they are. -/
def Table.Settled (table : Table) (index : Index) (values : List Value) : Prop :=
  ∀ name ∈ index.columns, ∀ i, table.columnIndex? name = some i → table.isRowidAt i = false →
    (values.getD i .null).withAffinity (table.affinityAt i) = values.getD i .null

/-- Values that the affinities leave as they are have the same key before and after. -/
theorem Table.Settled.key {values : List Value} (h : table.Settled index values) (id : Int64) :
    table.key index.columns (id, values) = table.key index.columns (id, table.stored values) := by
  unfold Table.key
  congr 1
  refine List.map_congr_left fun name hname => ?_
  cases hindex : table.columnIndex? name with
  | none => simp only [Table.read, ScopeTable.column?, hindex, Option.map_none, Option.getD_none]
  | some i =>
    rw [Table.read_eq hindex, Table.read_eq hindex]
    split
    · rfl
    · rename_i hrowid
      rw [Table.getD_stored, h name hname i hindex (by simpa using hrowid)]

end QueryMachine
