import QueryMachine.Proofs.Database.Assigned
import QueryMachine.Proofs.Database.Catalog

/-!
# What a statement leaves alone

A query changes nothing. INSERT, UPDATE and DELETE change the tree of the table that they name, and the trees
of its indexes where these are maintained; CREATE adds a row to the catalog. All else stays as it is, whether
the statement succeeds or is cut off anywhere.

Programs that were written by hand may have put anything into the catalog. So a table may have been given
the root of the catalog itself, and then to write to that table is to write to the catalog; and the last
rowid of the catalog may be taken, and then CREATE overwrites a row.

* `Store.Rooted` — the trees that every database has, and where they are.
* `Database.Framed` — what a statement may change.
* `Database.execute_framed` — a statement changes nothing else.
-/

namespace QueryMachine

open Catalog

/-- The catalog is a table, and the next root is beyond all trees. -/
structure Store.Rooted (st : Store) : Prop where
  catalog : ∃ rows, st.tree? Catalog.root = some (.table rows)
  below : ∀ root tree, st.tree? root = some tree → root < st.nextRoot

namespace Store

variable {st st' : Store} {root : Int} {tree : Tree} {e : Catalog.Entry}

theorem Rooted.room (h : st.Rooted) : Catalog.root < st.nextRoot := by
  obtain ⟨rows, hrows⟩ := h.catalog
  exact h.below _ _ hrows

theorem Rooted.setTree_below (h : st.Rooted) {old new : Tree} (hroot : st.tree? root = some old) :
    ∀ other tree, (st.setTree root new).tree? other = some tree → other < st.nextRoot := by
  intro other tree htree
  by_cases heq : other = root
  · rw [heq]
    exact h.below _ _ hroot
  · rw [tree?_setTree_of_ne heq] at htree
    exact h.below _ _ htree

theorem Rooted.change (h : st.Rooted) (hc : st.Change st') : st'.Rooted where
  catalog := by
    obtain ⟨rows, hrows⟩ := h.catalog
    obtain ⟨tree, htree, hlike⟩ := hc.like (Int.ne_of_lt h.room) hrows (Tree.like_refl _)
    cases tree with
    | table rows' => exact ⟨rows', htree⟩
    | index keys => exact hlike.elim
  below := by
    cases hc with
    | same => exact h.below
    | put id record hold => exact h.setTree_below hold
    | erase id hold => exact h.setTree_below hold
    | addKey key hold => exact h.setTree_below hold
    | eraseKey key hold => exact h.setTree_below hold
    | clear hold => exact h.setTree_below hold
    | create =>
      intro root tree htree
      by_cases heq : root = st.nextRoot
      · rw [heq]
        exact Int.lt_add_one_of_le (Int.le_refl _)
      · rw [tree?_create_of_ne heq] at htree
        exact Int.lt_add_one_of_le (Int.le_of_lt (h.below _ _ htree))

theorem Rooted.changes (h : st.Rooted) (hc : st.Changes st') : st'.Rooted := by
  induction hc with
  | refl => exact h
  | tail _ hstep ih => exact ih.change hstep

/-- The trees that were there are as they were, except that the catalog may have got one more row. -/
def Grown (st st' : Store) : Prop :=
  (∀ root tree, root ≠ Catalog.root → st.tree? root = some tree → st'.tree? root = some tree) ∧
    ∃ rows, st.tree? Catalog.root = some (.table rows) ∧
      (st'.tree? Catalog.root = some (.table rows) ∨
        ∃ row, st'.tree? Catalog.root = some (.table (rows ++ [row])))

theorem Rooted.made (h : st.Rooted) (e : Catalog.Entry) (htree : st.tree? root = some tree) :
    (Made st e).tree? root = some tree :=
  (tree?_create_of_ne (Int.ne_of_lt (h.below _ _ htree))).trans htree

/-- The catalog has one more row: the record of the entry with the next root, under a rowid beyond all others. -/
def Gains (st : Store) (e : Catalog.Entry) (st' : Store) : Prop :=
  ∃ rows id bytes, st.tree? Catalog.root = some (.table rows) ∧
    st'.tree? Catalog.root = some (.table (rows ++ [(id, bytes)])) ∧ (∀ row ∈ rows, row.1 < id) ∧
    e.encode (Int64.ofInt st.nextRoot) = .ok bytes

section

variable (h : st.Rooted) (hascending : st.Ascending)
  (hroom : ∀ rows, st.tree? Catalog.root = some (.table rows) →
    Rows.following rows ≤ 0x7FFFFFFFFFFFFFFF)

include h hascending hroom

/-- A row that is entered is the last one, as long as a rowid is left. -/
theorem Rooted.entered_gains (hentered : Entered st e st') : st.Gains e st' := by
  obtain ⟨rows, bytes, hmade, hencode, rfl⟩ := hentered
  obtain ⟨rows', hrows⟩ := h.catalog
  cases (h.made e hrows).symm.trans hmade
  have hlast : ∀ row ∈ rows, row.1 < (Tree.table rows).nextRowid := by
    intro row hrow
    rw [Int64.lt_iff_toInt_lt, Rows.toInt_nextRowid (hroom rows hrows)]
    exact (hascending _ rows hrows).lt_following hrow
  refine ⟨rows, _, bytes, hrows, ?_, hlast, hencode⟩
  rw [← Rows.put_of_forall_lt hlast]
  exact tree?_setTree_self ..

theorem Rooted.entered (hentered : Entered st e st') : st.Grown st' := by
  obtain ⟨rows, id, bytes, hrows, hgained, -⟩ := h.entered_gains hascending hroom hentered
  refine ⟨fun root tree hroot htree => ?_, rows, hrows, .inr ⟨(id, bytes), hgained⟩⟩
  obtain ⟨_, _, -, -, rfl⟩ := hentered
  exact (tree?_setTree_of_ne hroot).trans (h.made e htree)

/-- **CREATE, wherever it is cut off, adds at most a row to the catalog.** -/
theorem Rooted.begun (hbegun : Begun st e st') : st.Grown st' := by
  obtain ⟨rows, hrows⟩ := h.catalog
  cases hbegun with
  | nothing => exact ⟨fun _ _ _ htree => htree, rows, hrows, .inl hrows⟩
  | made => exact ⟨fun _ _ _ htree => h.made e htree, rows, hrows, .inl (h.made e hrows)⟩
  | entered hentered => exact h.entered hascending hroom hentered
  | filled _ hfilled =>
    obtain ⟨st1, keys, hentered, -, -, hother, -⟩ := hfilled
    obtain ⟨hold, hcatalog⟩ := h.entered hascending hroom hentered
    -- The keys go into the new tree.
    refine ⟨fun root tree hroot htree => ?_, ?_⟩
    · rw [hother _ (Int.ne_of_lt (h.below _ _ htree))]
      exact hold root tree hroot htree
    · rw [hother _ (Int.ne_of_lt h.room)]
      exact hcatalog

end

end Store

namespace Database

variable {db : Database} {statement : Statement} {name : String}

theorem rooted_empty (options : Options) : (empty options).store.Rooted := by
  have hcatalog : (empty options).store.tree? Catalog.root = some (.table []) := Slots.get?_set_self ..
  refine ⟨⟨[], hcatalog⟩, fun root tree htree => ?_⟩
  by_cases heq : root = Catalog.root
  · rw [heq]
    exact Int.lt_add_one_of_le (Int.le_refl _)
  · have hnone : (empty options).store.tree? root = none := Slots.get?_set_of_ne _ _ heq
    cases hnone.symm.trans htree

theorem Reachable.rooted (h : db.Reachable) : db.store.Rooted := h.keeps rooted_empty fun hst => hst.changes

/-- Statements alone do not use up the rowids of the catalog. -/
theorem Driven.room (h : db.Driven) (hrange : db.HasRoom) (rows : List (Int64 × Bytes))
    (hrows : db.store.tree? Catalog.root = some (.table rows)) : Rows.following rows ≤ 0x7FFFFFFFFFFFFFFF := by
  obtain ⟨entries, hdb⟩ := h.catalogued hrange
  obtain ⟨rows', hrows', hlists⟩ := hdb.store.catalog
  cases hrows.symm.trans hrows'
  have hroom := hdb.store.room
  have hlength := hlists.length_eq
  simp only [HasRoom, Integer.inRange32, Bool.and_eq_true, decide_eq_true_eq, Catalog.root] at hrange hroom
  unfold Rows.following
  split
  · rename_i row hrow
    have hle := hlists.numbers row (List.mem_of_getLast? hrow)
    omega
  · decide

/-- Nothing changed but the tree of a table and, where they are maintained, those of its indexes. -/
def Confined (db : Database) (name : String) (db' : Database) : Prop :=
  db'.schema = db.schema ∧ db'.store.tree? Catalog.root = db.store.tree? Catalog.root ∧
    ∀ root, (∀ table, db.schema.table? name = some table → root ≠ table.root ∧
      (db.options.maintainIndexes = true → ∀ index ∈ table.indexes, root ≠ index.root)) →
      db'.store.tree? root = db.store.tree? root

/-- What a statement may change. -/
def Framed (db : Database) (statement : Statement) (db' : Database) : Prop :=
  match statement with
  | .select _ => db'.schema = db.schema ∧ ∀ root, db'.store.tree? root = db.store.tree? root
  | .insert i => db.Confined i.table db'
  | .update c => db.Confined c.table db'
  | .delete d => db.Confined d.table db'
  | .createTable _ | .createIndex _ => db.store.Grown db'.store

theorem not_mem_touched {root : Int} (hname : statement.target? = some name)
    (h : ∀ table, db.schema.table? name = some table → root ≠ table.root ∧
      (db.options.maintainIndexes = true → ∀ index ∈ table.indexes, root ≠ index.root)) :
    root ∉ db.touched statement := by
  unfold touched
  rw [hname, Option.bind_some]
  cases htable : db.schema.table? name with
  | none => exact List.not_mem_nil
  | some table =>
    obtain ⟨hroot, hindexes⟩ := h table htable
    intro hin
    rcases List.mem_cons.mp hin with heq | hin
    · exact hroot heq
    · obtain ⟨index, hindex, rfl⟩ := List.mem_map.mp hin
      split at hindex
      · rename_i hmaintain
        exact hindexes hmaintain index hindex rfl
      · cases hindex

theorem execute_confined (hname : statement.target? = some name) (hcreate : ∀ e, Entry.ofStatement statement ≠ .ok e)
    (hroots : ∀ table ∈ db.schema, Catalog.root ∉ table.roots) : db.Confined name (db.execute statement).2 := by
  have honly := @execute_only db statement hcreate
  refine ⟨execute_schema hcreate, honly.other _ fun hin => ?_, fun root hroot => ?_⟩
  · obtain ⟨table, htable, hin⟩ := roots_of_touched hin
    exact hroots table htable hin
  · exact honly.other _ (not_mem_touched hname hroot)

theorem Reachable.create_grown (hdb : db.Reachable) (hrange : db.HasRoom)
    (hroom : ∀ rows, db.store.tree? Catalog.root = some (.table rows) → Rows.following rows ≤ 0x7FFFFFFFFFFFFFFF) {e : Catalog.Entry} (he : Entry.ofStatement statement = .ok e) :
    db.store.Grown (db.execute statement).2.store := by
  have hrooted := hdb.rooted
  have hprepared : db.Prepared := ⟨hrooted.catalog, Int.ne_of_gt hrooted.room, hrange⟩
  exact hrooted.begun hdb.ascending hroom (execute_begun hprepared he)

/-- **A statement changes nothing but what it names**, whether it succeeds or not, as long as no table or index
has the root of the catalog and the catalog has a rowid left. -/
theorem execute_framed (hdb : db.Reachable) (hrange : Integer.inRange32 db.store.nextRoot = true)
    (hroots : ∀ table ∈ db.schema, Catalog.root ∉ table.roots)
    (hroom : ∀ rows, db.store.tree? Catalog.root = some (.table rows) → Rows.following rows ≤ 0x7FFFFFFFFFFFFFFF)
    (statement : Statement) : db.Framed statement (db.execute statement).2 := by
  cases statement with
  | select q =>
    have honly := @execute_only db (.select q) (by simp [Entry.ofStatement])
    exact ⟨execute_schema (by simp [Entry.ofStatement]), fun root => honly.other root List.not_mem_nil⟩
  | insert i => exact execute_confined rfl (by simp [Entry.ofStatement]) hroots
  | update c => exact execute_confined rfl (by simp [Entry.ofStatement]) hroots
  | delete d => exact execute_confined rfl (by simp [Entry.ofStatement]) hroots
  | createTable t => exact hdb.create_grown hrange hroom rfl
  | createIndex i => exact hdb.create_grown hrange hroom rfl

/-! ## Tables with an index, and a table in place of the catalog -/

/-- A table with an index that is not maintained. -/
def unmaintained : Database :=
  (((empty { Options.standard with maintainIndexes := false }).execute
    (.createTable ⟨"t", [⟨"a", "TEXT", false, false⟩], false⟩)).2.execute
    (.createIndex ⟨"i", "t", ["a"], false, false⟩)).2

theorem reachable_unmaintained : unmaintained.Reachable := .execute (.execute (.empty _) _) _

theorem roots_unmaintained : ∀ table ∈ unmaintained.schema, Catalog.root ∉ table.roots := by decide +kernel

theorem room_unmaintained (rows : List (Int64 × Bytes))
    (hrows : unmaintained.store.tree? Catalog.root = some (.table rows)) : Rows.following rows ≤ 0x7FFFFFFFFFFFFFFF :=
  Driven.room (.execute (.execute (.empty _) _) _) (by decide +kernel) rows hrows

/-- An INSERT changes the table and not its index, and a second index is entered in the catalog. -/
theorem execute_framed_unmaintained : unmaintained.Reachable ∧
    (unmaintained.execute (.insert ⟨"t", [], [[.lit (.int 1)]]⟩)).2.store.tree? 2 ≠ unmaintained.store.tree? 2 ∧
    (unmaintained.execute (.insert ⟨"t", [], [[.lit (.int 1)]]⟩)).2.store.tree? 3 = unmaintained.store.tree? 3 ∧
    (unmaintained.execute (.createIndex ⟨"j", "t", ["a"], false, false⟩)).2.store.tree? 4 ≠ none ∧
    unmaintained.store.Grown (unmaintained.execute (.createIndex ⟨"j", "t", ["a"], false, false⟩)).2.store := by
  have hrange : Integer.inRange32 unmaintained.store.nextRoot = true := by decide +kernel
  have hinsert := execute_framed reachable_unmaintained hrange roots_unmaintained room_unmaintained
    (.insert ⟨"t", [], [[.lit (.int 1)]]⟩)
  refine ⟨reachable_unmaintained, by decide +kernel, hinsert.2.2 3 fun table htable => ⟨?_, fun hmaintain => ?_⟩,
    by decide +kernel, execute_framed reachable_unmaintained hrange roots_unmaintained room_unmaintained
      (.createIndex ⟨"j", "t", ["a"], false, false⟩)⟩
  · have hroot : (unmaintained.schema.table? "t").map Table.root = some 2 := by decide +kernel
    change unmaintained.schema.table? "t" = some table at htable
    rw [htable] at hroot
    rw [Option.some.inj hroot]
    decide
  · have hoff : unmaintained.options.maintainIndexes = false := by decide +kernel
    rw [hoff] at hmaintain
    cases hmaintain

/-- Enters a table `x` into the catalog, under the root of the catalog. -/
def aliasProgram : Program :=
  ⟨#[⟨.openWrite, 0, 1, 0, .empty, 0⟩, ⟨.str8, 0, 1, 0, .str "table", 0⟩, ⟨.str8, 0, 2, 0, .str "x", 0⟩,
    ⟨.str8, 0, 3, 0, .str "x", 0⟩, ⟨.integer, 1, 4, 0, .empty, 0⟩, ⟨.str8, 0, 5, 0, .str "", 0⟩,
    ⟨.makeRecord, 1, 5, 6, .empty, 0⟩, ⟨.newRowid, 0, 7, 0, .empty, 0⟩, ⟨.insert, 0, 6, 7, .empty, 0⟩,
    ⟨.halt, 0, 0, 0, .empty, 0⟩], 7, 1⟩

/-- A database whose one table has the root of the catalog. -/
def aliased : Database :=
  (((empty .standard).run aliasProgram).2.execute (.createTable ⟨"x", [⟨"a", "TEXT", false, false⟩], false⟩)).2

/-- **A table that has the root of the catalog shares its tree**: to insert a row into it changes the catalog. -/
theorem execute_framed_aliased : aliased.Reachable ∧ aliased.schema.map Table.roots = [[Catalog.root]] ∧
    (aliased.execute (.insert ⟨"x", [], [[.lit (.text "q")]]⟩)).2.store.tree? Catalog.root ≠
      aliased.store.tree? Catalog.root :=
  ⟨.execute (.run (.empty _) _) _, by decide +kernel, by decide +kernel⟩

end Database

end QueryMachine
