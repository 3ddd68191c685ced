import Mathlib.Data.List.Perm.Basic
import QueryMachine.Proofs.Database.Misfit
import QueryMachine.Proofs.Database.Stock
import QueryMachine.Proofs.Query.WholeTable

/-!
# What an UPDATE rewrites

An UPDATE stores a row anew where its filter lets the row pass. The record is made of the old values, with the new
ones in their place, and the affinities of the columns are applied to all of them. In a database that statements
lead to this changes assigned columns only, for the old values have the affinities of their columns already.

* `Change.assigned` — what a column reads after the assignments.
* `Change.Rewritten` — a row before and after, as it is read.
* `Database.update_rewrites` — what an UPDATE does to the rows of its table.
* `Database.affinity_applies_once` — why the other columns stay.
-/

namespace QueryMachine

open Machine

theorem Table.getD_shown {table : Table} {i : Nat} (h : i < table.columns.length) (e : Entry) :
    (table.shown e).getD i .null = if table.isRowidAt i then .int e.1 else e.2.getD i .null := by
  rw [List.getD_eq_getElem?_getD, shown, List.getElem?_mapIdx, isRowidAt, List.getElem?_eq_getElem h]
  rfl

namespace Change

variable {r r' : Resolution} {row row' : Int64 × Bytes} {rows rows' : List (Int64 × Bytes)} {e : Entry} {i : Nat}

/-! ## The values of a row -/

/-- The row passes the filter. -/
def passes (r : Resolution) (row : Int64 × Bytes) : Bool := Expr.holds (Rows.entry row).read r.filter

/-- What a column of a row reads after the assignments, which are all computed from the row as it was. The last
one to the column counts; without one the column reads what it did. -/
def assigned (r : Resolution) (e : Entry) (i : Nat) : Value :=
  match r.assignments.reverse.lookup i with
  | some value => (value.eval e.read).withAffinity (r.table.affinityAt i)
  | none => (r.table.shown e).getD i .null

theorem getD_fields (h : i < r.table.columns.length) (e : Entry) : (fields r e).getD i .null =
    match r.assignments.reverse.lookup i with
    | some value => value.eval e.read
    | none => (old r.table e).getD i .null := by
  have hlength : (old r.table e).length = r.table.columns.length := by rw [old, List.length_mapIdx]
  rw [fields, ← List.foldr_reverse]
  induction r.assignments.reverse with
  | nil => rfl
  | cons a rest ih =>
    have hrest : (rest.foldr (fun a values => values.set a.1 (a.2.eval e.read)) (old r.table e)).length =
        r.table.columns.length := by
      rw [← List.foldl_reverse, length_foldl_set _ (·.eval e.read), hlength]
    rw [List.foldr_cons, List.lookup_cons, List.getD_eq_getElem?_getD]
    by_cases heq : a.1 = i
    · rw [heq, List.getElem?_set_self (hrest ▸ h), beq_self_eq_true]
      rfl
    · rw [List.getElem?_set_ne heq, ← List.getD_eq_getElem?_getD, ih, beq_false_of_ne (Ne.symm heq)]

theorem fields_perm (htable : r'.table = r.table) (hperm : r'.assignments.Perm r.assignments)
    (hnodup : (r.assignments.map (·.1)).Nodup) (e : Entry) : fields r' e = fields r e := by
  rw [fields, fields, htable]
  refine (hperm.symm.foldl_eq' ?_ _).symm
  intro a ha a' ha' values
  by_cases heq : a = a'
  · rw [heq]
  · exact List.set_comm _ _ fun hcolumn => heq (List.inj_on_of_nodup_map hnodup ha ha' hcolumn)

/-! ## Rows -/

/-- A row before and after, as it is read. -/
structure Rewritten (r : Resolution) (row row' : Int64 × Bytes) : Prop where
  rowid : row'.1 = row.1
  decodes : ∃ values, Record.decode row.2 = .ok values
  kept : passes r row = false → row' = row
  assigned : passes r row = true → (∃ values, Record.decode row'.2 = .ok values) ∧
    ∀ i < r.table.columns.length,
      (r.table.shown (Rows.entry row')).getD i .null = assigned r (Rows.entry row) i

/-- What is stored for a row reads as it should, if the row was stored as its table stores rows. -/
theorem Rewrites.rewritten (h : Rewrites r row row') (hsuits : r.table.Suits row)
    (hcolumns : ∀ a ∈ r.assignments, r.table.isRowidAt a.1 = false) : Rewritten r row row' := by
  have hfits := hsuits.fits
  obtain ⟨values, hdecode, -⟩ := hsuits
  unfold Rewrites at h
  split at h
  · rename_i hpasses
    obtain ⟨hid, hencode⟩ := h
    have hdecode' := Record.decode_encode hencode
    refine ⟨hid, ⟨values, hdecode⟩, fun hnot => ?_, fun _ => ⟨⟨_, hdecode'⟩, fun i hi => ?_⟩⟩
    · exact absurd hpasses (Bool.eq_false_iff.mp hnot)
    have hentry : Rows.entry row' = (row.1, r.table.stored (fields r (Rows.entry row))) := by
      rw [Rows.entry, hdecode', hid]
      rfl
    rw [hentry, Table.getD_shown hi, Change.assigned, Table.getD_stored, getD_fields hi]
    cases hlookup : r.assignments.reverse.lookup i with
    | some value =>
      obtain ⟨before, after, hsplit, -⟩ := List.lookup_eq_some_iff.mp hlookup
      have ha : (i, value) ∈ r.assignments := List.mem_reverse.mp (hsplit ▸ List.mem_append_right _ List.mem_cons_self)
      rw [hcolumns _ ha, if_neg Bool.false_ne_true]
    | none =>
      rw [Table.getD_shown hi]
      cases hrowid : r.table.isRowidAt i with
      | true => rfl
      | false =>
        simp only [if_neg Bool.false_ne_true]
        rw [getD_old hi hrowid, hfits.affinity]
  · rename_i hpasses
    subst h
    exact ⟨rfl, ⟨values, hdecode⟩, fun _ => rfl, fun hyes => absurd hyes hpasses⟩

/-- The columns of a row that nothing is assigned to read after as before. -/
def Untouched (r : Resolution) (row row' : Int64 × Bytes) : Prop :=
  ∃ values values', Record.decode row.2 = .ok values ∧ Record.decode row'.2 = .ok values' ∧
    ∀ i < r.table.columns.length, (∀ a ∈ r.assignments, a.1 ≠ i) →
      (r.table.shown (row'.1, values')).getD i .null = (r.table.shown (row.1, values)).getD i .null

theorem Rewritten.untouched (h : Rewritten r row row') : Untouched r row row' := by
  obtain ⟨values, hdecode⟩ := h.decodes
  cases hpasses : passes r row with
  | false =>
    rw [h.kept hpasses]
    exact ⟨values, values, hdecode, hdecode, fun _ _ _ => rfl⟩
  | true =>
    obtain ⟨⟨values', hdecode'⟩, hassigned⟩ := h.assigned hpasses
    refine ⟨values, values', hdecode, hdecode', fun i hi hother => ?_⟩
    have hnone : r.assignments.reverse.lookup i = none := by
      rw [List.lookup_eq_none_iff]
      intro a ha
      exact bne_iff_ne.mpr (hother a (List.mem_reverse.mp ha)).symm
    have hreads := hassigned i hi
    simp only [Change.assigned, hnone, Rows.entry, hdecode, hdecode'] at hreads
    exact hreads

theorem rewritten_of_rewrites (h : List.Forall₂ (Rewrites r) rows rows') (hsuits : ∀ row ∈ rows, r.table.Suits row)
    (hcolumns : ∀ a ∈ r.assignments, r.table.isRowidAt a.1 = false) : List.Forall₂ (Rewritten r) rows rows' := by
  induction h with
  | nil => exact .nil
  | cons hrow _ ih =>
    obtain ⟨hfirst, hrest⟩ := List.forall_mem_cons.mp hsuits
    exact .cons (hrow.rewritten hfirst hcolumns) (ih hrest)

theorem map_rowid (h : List.Forall₂ (Rewritten r) rows rows') : rows'.map (·.1) = rows.map (·.1) := by
  induction h with
  | nil => rfl
  | cons hrow _ ih => rw [List.map_cons, List.map_cons, hrow.rowid, ih]

theorem rewrites_unique : Relator.RightUnique (Rewrites r) := by
  intro row row' row'' h h'
  unfold Rewrites at h h'
  split at h
  · rename_i hpasses
    rw [if_pos hpasses] at h'
    exact Prod.ext (h.1.trans h'.1.symm) (Except.ok.inj (h.2.symm.trans h'.2))
  · rename_i hpasses
    rw [if_neg hpasses] at h'
    exact h.trans h'.symm

/-- What is done to the rows, counted. -/
theorem count_operations {o : Opcode} (ho : o = .delete ∨ o = .insert) (r : Resolution)
    (rows : List (Int64 × Bytes)) : (rows.flatMap (operations r)).count o = rows.countP (passes r) := by
  induction rows with
  | nil => rfl
  | cons row rows ih =>
    rw [List.flatMap_cons, List.count_append, ih, List.countP_cons, operations, ← passes]
    cases passes r row with
    | true =>
      have hone : [Opcode.delete, Opcode.insert].count o = 1 := by rcases ho with rfl | rfl <;> rfl
      rw [if_pos rfl, if_pos rfl, hone, Nat.add_comm]
    | false => simp

/-! ## The order of assignments -/

/-- The same UPDATE with its assignments in another order. -/
structure Reorders (c c' : Change) : Prop where
  table : c'.table = c.table
  filter : c'.filter = c.filter
  assignments : (c'.columns.zip c'.values).Perm (c.columns.zip c.values)

theorem resolves_unique {table : Table} {scope : Scope} : Relator.RightUnique (Resolves table scope) := by
  intro pair a a' h h'
  exact Prod.ext (Option.some.inj (h.1.symm.trans h'.1)) (Except.ok.inj (h.2.2.symm.trans h'.2.2))

theorem Reorders.validate {c c' : Change} (h : c.Reorders c') {schema : Schema} (hvalid : c.validate schema = .ok r)
    (hvalid' : c'.validate schema = .ok r') :
    r'.table = r.table ∧ r'.filter = r.filter ∧ r'.assignments.Perm r.assignments := by
  obtain ⟨hlookup, -, hassignments, hfilter⟩ := parts_of_validate hvalid
  obtain ⟨hlookup', -, hassignments', hfilter'⟩ := parts_of_validate hvalid'
  have htable : r'.table = r.table := by
    rw [h.table, hlookup] at hlookup'
    exact (Except.ok.inj hlookup').symm
  rw [htable] at hassignments' hfilter'
  refine ⟨htable, ?_, ?_⟩
  · rw [h.filter, hfilter] at hfilter'
    exact (Except.ok.inj hfilter').symm
  · obtain ⟨assigned, hassigned, hperm⟩ :=
      List.perm_comp_forall₂ h.assignments (resolves_of_assignments hassignments)
    rwa [List.right_unique_forall₂' resolves_unique (resolves_of_assignments hassignments') hassigned]

theorem rewrites_perm (htable : r'.table = r.table) (hfilter : r'.filter = r.filter)
    (hperm : r'.assignments.Perm r.assignments) (hnodup : (r.assignments.map (·.1)).Nodup) :
    Rewrites r' = Rewrites r := by
  funext row row'
  rw [Rewrites, Rewrites, hfilter, htable, fields_perm htable hperm hnodup]

end Change

namespace Database

variable {db db' : Database} {c : Change} {answer : Answer}

/-- What a run of an UPDATE without a fault has done to the rows of its table. Where the root of the table holds
an index nothing has been done. -/
theorem update_runs {r : Change.Resolution} {tree : Tree} (hascending : db.store.Ascending)
    (hvalid : c.validate db.schema = .ok r) (htree : db.store.tree? r.table.root = some tree)
    (hrun : db.execute (.update c) = (.ok answer, db')) : answer.execution.trace.toList.filter Opcode.changesRows =
      (db.store.rows r.table.root).flatMap (Change.operations r) ∧
    List.Forall₂ (Change.Rewrites r) (db.store.rows r.table.root) (db'.store.rows r.table.root) ∧
    ((∀ rows, db.store.tree? r.table.root ≠ some (.table rows)) → db'.store = db.store) := by
  obtain ⟨program, columns, hcompile, hmachine, -⟩ := execute_ok hrun
  obtain ⟨r', hvalid', hprogram⟩ := bind_eq_ok.mp (compile_of_compile hcompile nofun)
  cases hvalid.symm.trans hvalid'
  obtain ⟨final, hgives, hcode⟩ := Emit.build_of_ok hprogram
  have hin := Change.lt_of_validate hvalid
  cases tree with
  | table rows =>
    obtain ⟨htrace, rows', hrewrites, hwritten⟩ :=
      Change.emit_writes hgives hcode hmachine hin htree (hascending _ _ htree)
    rw [Store.rows_eq htree, Store.rows_eq hwritten.tree]
    exact ⟨htrace, hrewrites, fun hnot => absurd htree (hnot rows)⟩
  | index keys =>
    obtain ⟨htrace, hstore⟩ := Change.emit_idles hgives hcode hmachine hin htree
    have hnone : db.store.rows r.table.root = [] := by simp only [Store.rows, htree]
    rw [hstore, hnone]
    exact ⟨htrace, .nil, fun _ => rfl⟩

/-- An UPDATE that goes through was validated, and the rows of its table suit it. -/
theorem Driven.updated (h : db.Driven) (hrange : db.HasRoom) (hrun : db.execute (.update c) = (.ok answer, db')) :
    ∃ r tree, c.validate db.schema = .ok r ∧ db.store.tree? r.table.root = some tree ∧
      ∀ row ∈ db.store.rows r.table.root, r.table.Suits row := by
  obtain ⟨entries, hcatalogued⟩ := h.catalogued hrange
  obtain ⟨program, columns, hcompile, -⟩ := execute_ok hrun
  obtain ⟨r, hvalid, -⟩ := bind_eq_ok.mp (compile_of_compile hcompile nofun)
  have htable := Schema.mem_of_lookup (Change.lookup_of_validate hvalid)
  obtain ⟨-, -, tree, htree⟩ := hcatalogued.tables htable
  refine ⟨r, tree, hvalid, htree, fun row hrow => ?_⟩
  unfold Store.rows at hrow
  split at hrow
  · rename_i rows hrows
    exact (h.stocked hrange).tables r.table htable rows hrows row hrow
  · cases hrow

/-- **An UPDATE rewrites exactly the rows that pass, all at once.** The rowids stay. A row that does not pass
stays byte for byte; in one that passes every assigned column reads what the last assignment to it makes of the old
row, under the affinity of the column, and every other column reads what it did. The rows that pass are counted by
the deletions and by the insertions. If no column is assigned twice, the order of the assignments does not matter. -/
theorem update_rewrites (h : db.Driven) (hrange : Integer.inRange32 db.store.nextRoot = true)
    (hrun : db.execute (.update c) = (.ok answer, db')) :
    ∃ r, c.validate db.schema = .ok r ∧
      (db'.store.rows r.table.root).map (·.1) = (db.store.rows r.table.root).map (·.1) ∧
      List.Forall₂ (Change.Rewritten r) (db.store.rows r.table.root) (db'.store.rows r.table.root) ∧
      answer.execution.count .delete = (db.store.rows r.table.root).countP (Change.passes r) ∧
      answer.execution.count .insert = (db.store.rows r.table.root).countP (Change.passes r) ∧
      ((∀ rows, db.store.tree? r.table.root ≠ some (.table rows)) → db'.store = db.store) ∧
      ((r.assignments.map (·.1)).Nodup → ∀ c' answer' db'', c.Reorders c' →
        db.execute (.update c') = (.ok answer', db'') →
        db''.store.rows r.table.root = db'.store.rows r.table.root) := by
  have hascending := h.reachable.ascending
  obtain ⟨r, tree, hvalid, htree, hsuits⟩ := h.updated hrange hrun
  obtain ⟨htrace, hrewrites, hidle⟩ := update_runs hascending hvalid htree hrun
  have hrewritten := Change.rewritten_of_rewrites hrewrites hsuits fun a ha => (Change.column_of_validate hvalid a ha).2
  have hcount : ∀ o, o = .delete ∨ o = .insert →
      answer.execution.count o = (db.store.rows r.table.root).countP (Change.passes r) := by
    intro o ho
    have hkind : o.changesRows = true := by rcases ho with rfl | rfl <;> rfl
    rw [Execution.count, ← Array.count_toList, ← List.count_filter hkind, htrace, Change.count_operations ho]
  refine ⟨r, hvalid, Change.map_rowid hrewritten, hrewritten, hcount _ (.inl rfl), hcount _ (.inr rfl), hidle,
    fun hnodup c' answer' db'' hreorders hrun' => ?_⟩
  obtain ⟨program', columns', hcompile', -⟩ := execute_ok hrun'
  obtain ⟨r', hvalid', -⟩ := bind_eq_ok.mp (compile_of_compile hcompile' nofun)
  obtain ⟨hsame, hfilter, hperm⟩ := hreorders.validate hvalid hvalid'
  obtain ⟨-, hrewrites', -⟩ := update_runs hascending hvalid' (hsame ▸ htree) hrun'
  rw [Change.rewrites_perm hsame hfilter hperm hnodup, hsame] at hrewrites'
  exact List.right_unique_forall₂' Change.rewrites_unique hrewrites' hrewrites

/-- Three rows of a key, a number and a text. -/
def pairs : Database :=
  (((empty .standard).execute (.createTable ⟨"t", [⟨"id", "INTEGER", true, false⟩, ⟨"a", "INTEGER", false, false⟩,
    ⟨"b", "TEXT", false, false⟩], false⟩)).2.execute
    (.insert ⟨"t", [], [[.lit .null, .lit (.int 10), .lit (.text "7")], [.lit .null, .lit (.int 20), .lit (.text "y")],
      [.lit .null, .lit .null, .lit (.text "z")]]⟩)).2

/-- The numbers and the texts change places. -/
def exchange : Change :=
  ⟨"t", ["a", "b"], [.ref (.column none "b"), .ref (.column none "a")],
    some (.binary .ge (.ref (.column none "a")) (.lit (.int 10)))⟩

/-- Two rows pass. What was the text of the first is a number now, and the other way round. -/
theorem update_rewrites_pairs : pairs.Driven ∧ Integer.inRange32 pairs.store.nextRoot = true ∧
    ∃ answer db' r, pairs.execute (.update exchange) = (.ok answer, db') ∧ exchange.validate pairs.schema = .ok r ∧
      (pairs.store.rows r.table.root).countP (Change.passes r) = 2 ∧
      List.Forall₂ (Change.Rewritten r) (pairs.store.rows r.table.root) (db'.store.rows r.table.root) ∧
      db'.rows "t" = .ok [(1, [.null, .int 7, .text "10"]), (2, [.null, .text "y", .text "20"]),
        (3, [.null, .null, .text "z"])] := by
  have hdriven : pairs.Driven := .execute (.execute (.empty _) _) _
  have hrange : Integer.inRange32 pairs.store.nextRoot = true := by decide +kernel
  have hresult : ((pairs.execute (.update exchange)).1.toOption.map fun answer => answer.execution.count .delete) =
      some 2 := by decide +kernel
  have hrows : (pairs.execute (.update exchange)).2.rows "t" = .ok [(1, [.null, .int 7, .text "10"]),
      (2, [.null, .text "y", .text "20"]), (3, [.null, .null, .text "z"])] := by decide +kernel
  rcases hrun : pairs.execute (.update exchange) with ⟨result, db'⟩
  rw [hrun] at hresult hrows
  cases result with
  | error f => cases hresult
  | ok answer =>
    obtain ⟨r, hvalid, -, hrewritten, hdeletes, -⟩ := update_rewrites hdriven hrange hrun
    exact ⟨hdriven, hrange, answer, db', r, rfl, hvalid, hdeletes.symm.trans (Option.some.inj hresult), hrewritten,
      hrows⟩

/-- **An affinity that is applied again changes nothing.** What it makes of a value is a value that it leaves, and so
for a record. An UPDATE makes a record of every row that passes, and changes no column that it does not assign. -/
theorem affinity_applies_once :
    (∀ (a : Affinity) (v : Value), (v.withAffinity a).withAffinity a = v.withAffinity a ∧
      (v.withAffinity a).Conforms a ∧ (v.withAffinity a = v ↔ v.Conforms a)) ∧
    (∀ codes values, applyAffinities codes (applyAffinities codes values) = applyAffinities codes values) ∧
    ∀ {db db' : Database} {c : Change} {answer : Answer}, db.Driven →
      Integer.inRange32 db.store.nextRoot = true → db.execute (.update c) = (.ok answer, db') →
      ∃ r, c.validate db.schema = .ok r ∧
        List.Forall₂ (Change.Untouched r) (db.store.rows r.table.root) (db'.store.rows r.table.root) := by
  refine ⟨fun a v => ⟨Value.withAffinity_withAffinity a v, Value.conforms_withAffinity a v,
    Value.withAffinity_eq_self_iff⟩, Table.applyAffinities_twice, fun h hrange hrun => ?_⟩
  obtain ⟨r, tree, hvalid, htree, hsuits⟩ := h.updated hrange hrun
  obtain ⟨-, hrewrites, -⟩ := update_runs h.reachable.ascending hvalid htree hrun
  have hrewritten := Change.rewritten_of_rewrites hrewrites hsuits fun a ha => (Change.column_of_validate hvalid a ha).2
  exact ⟨r, hvalid, hrewritten.imp fun _ _ => Change.Rewritten.untouched⟩

/-- One text for all rows. -/
def relabel : Change := ⟨"t", ["b"], [.lit (.int 5)], none⟩

/-- A text beyond the integers becomes a real, and stays one. New texts leave the numbers beside them. -/
theorem affinity_applies_once_pairs :
    (Value.text "9223372036854775808").withAffinity .integer = .real ⟨0x43E0000000000000⟩ ∧
    (Value.real ⟨0x43E0000000000000⟩).withAffinity .integer = .real ⟨0x43E0000000000000⟩ ∧
    pairs.Driven ∧ Integer.inRange32 pairs.store.nextRoot = true ∧
    ∃ answer db' r, pairs.execute (.update relabel) = (.ok answer, db') ∧
      List.Forall₂ (Change.Untouched r) (pairs.store.rows r.table.root) (db'.store.rows r.table.root) ∧
      db'.rows "t" = .ok [(1, [.null, .int 10, .text "5"]), (2, [.null, .int 20, .text "5"]),
        (3, [.null, .null, .text "5"])] := by
  obtain ⟨honce, -, hupdate⟩ := affinity_applies_once
  have hreal : (Value.text "9223372036854775808").withAffinity .integer = .real ⟨0x43E0000000000000⟩ := by
    decide +kernel
  have hdriven : pairs.Driven := .execute (.execute (.empty _) _) _
  have hrange : Integer.inRange32 pairs.store.nextRoot = true := by decide +kernel
  have hresult : (pairs.execute (.update relabel)).1.isOk = true := by decide +kernel
  have hrows : (pairs.execute (.update relabel)).2.rows "t" = .ok
      [(1, [.null, .int 10, .text "5"]), (2, [.null, .int 20, .text "5"]), (3, [.null, .null, .text "5"])] := by
    decide +kernel
  rcases hrun : pairs.execute (.update relabel) with ⟨result, db'⟩
  rw [hrun] at hresult hrows
  cases result with
  | error f => cases hresult
  | ok answer =>
    obtain ⟨r, -, huntouched⟩ := hupdate hdriven hrange hrun
    exact ⟨hreal, hreal ▸ (honce .integer (.text "9223372036854775808")).1, hdriven, hrange, answer, db', r, rfl,
      huntouched, hrows⟩

end Database

end QueryMachine
