import QueryMachine.Proofs.Database.Effect
import QueryMachine.Proofs.Database.Removal
import QueryMachine.Proofs.Query.Select

/-!
# The cost of a DELETE

What a DELETE costs is told from the statement and the number of rows alone. It is constant for the programs
that clear trees, which go over no rows. For all others it bounds how many rows are deleted, and where every
row is wanted it is their number.

Each deletion takes one of the chosen rows out of the table, and nothing puts a row back. So the rows that are
gone count the deletions, wherever a run ends.

* `Store.Lacks` — how many of some rows are gone from a table.
* `Deletion.emitRows_counts` — they are as many as rows were deleted.
* `Deletion.cost_agrees` — the cost and the program.
-/

namespace QueryMachine

open Machine Emit

variable {st : Store} {root : Int} {ids : List Int64} {n : Nat} {rows : List (Int64 × Bytes)}

/-! ## Rows that are gone -/

/-- Of the rows with the given rowids, `n` are gone from a table. -/
def Store.Lacks (st : Store) (root : Int) (ids : List Int64) (n : Nat) : Prop :=
  ∃ rows, st.tree? root = some (.table rows) ∧ Rows.Ascending rows ∧
    ((rows.map (·.1)).filter (· ∈ ids)).length + n = ids.length

theorem Store.lacks_zero (htree : st.tree? root = some (.table rows)) (hrows : Rows.Ascending rows)
    (hsub : ids.Sublist (rows.map (·.1))) : st.Lacks root ids 0 := by
  refine ⟨rows, htree, hrows, ?_⟩
  have hnodup := hrows.nodup_rowids
  have hperm : ((rows.map (·.1)).filter (· ∈ ids)).Perm ids := by
    refine (List.perm_ext_iff_of_nodup (hnodup.filter _) (hnodup.sublist hsub)).mpr fun id => ?_
    simpa using fun hid : id ∈ ids => List.mem_map.mp (hsub.subset hid)
  simpa using hperm.length_eq

/-- One more row is gone. -/
theorem Store.Lacks.erase {id : Int64} (h : st.Lacks root ids n) (htree : st.tree? root = some (.table rows))
    (hrow : id ∈ rows.map (·.1)) (hid : id ∈ ids) :
    (st.setTree root (.table (Rows.erase id rows))).Lacks root ids (n + 1) := by
  obtain ⟨_, htree', hrows, hcount⟩ := h
  cases htree.symm.trans htree'
  refine ⟨_, Store.tree?_setTree_self .., hrows.erase, ?_⟩
  have hmem : id ∈ (rows.map (·.1)).filter (· ∈ ids) := List.mem_filter.mpr ⟨hrow, by simpa using hid⟩
  have herase : ((Rows.erase id rows).map (·.1)).filter (· ∈ ids) =
      ((rows.map (·.1)).filter (· ∈ ids)).erase id := by
    rw [List.Nodup.erase_eq_filter (hrows.nodup_rowids.filter _), List.filter_filter, Rows.erase, List.filter_map,
      List.filter_map, List.filter_filter]
    congr 1
    exact List.filter_congr fun row _ => by simp [Bool.and_comm]
  have hpos := List.length_pos_of_mem hmem
  rw [herase, List.length_erase_of_mem hmem]
  omega

theorem Store.Lacks.setIndex {root' : Int} {keys : List (List Value)} {tree : Tree} (h : st.Lacks root ids n)
    (hindex : st.tree? root' = some (.index keys)) : (st.setTree root' tree).Lacks root ids n := by
  obtain ⟨rows, htree, hrest⟩ := h
  refine ⟨rows, ?_, hrest⟩
  rw [Store.tree?_setTree_of_ne, htree]
  rintro rfl
  cases htree.symm.trans hindex

/-! ## Runs that delete the rows with some rowids -/

/-- A run in which rows change by deleting a row with one of the rowids, that is there. -/
def Setting.counting (root : Int) (ids : List Int64) (final : Builder) (env : Environment)
    (hcode : env.code = final.code) : Setting where
  final := final
  env := env
  code_eq := hcode
  Admits _ := True
  Permits i s := i.opcode.changesRows = true → i.opcode = .delete ∧ ∃ id rows,
    s.cursors.get? i.p1 = some ⟨.stored root, some (.rowid id)⟩ ∧
    s.store.tree? root = some (.table rows) ∧ id ∈ rows.map (·.1) ∧ id ∈ ids
  permits i s h hchanges := absurd hchanges (by simp [h])

namespace Setting

variable {table : Table} {final : Builder} {env : Environment} {hcode : env.code = final.code}

instance : (counting root ids final env hcode).Lenient := ⟨fun _ _ => trivial⟩

theorem permitsRemoval_counting : (counting table.root ids final env hcode).PermitsRemoval table ids := by
  intro s c opened rows e hw he hid _
  obtain ⟨record, hrow, -⟩ := Rows.mem_entries.mp he
  exact ⟨rfl, e.1, rows, hw.cursor, hw.tree, List.mem_map_of_mem hrow, hid⟩

/-- Every instruction of such a run keeps the count, if none clears or makes a tree. -/
theorem counting_counts {roots : List Int} (hwithin : ∀ i ∈ env.code, i.Within (.editing roots)) (pc : Nat)
    (i : Instruction) (s s' : State) (flow : Flow) (n : Nat) (hi : env.code[pc]? = some i)
    (hpermits : (counting root ids final env hcode).Permits i s) (hx : execute env pc i s = .ok (flow, s'))
    (h : s.store.Lacks root ids n) : s'.store.Lacks root ids (n + if i.opcode == .delete then 1 else 0) := by
  have hedits := hwithin i (Array.mem_of_getElem? hi)
  by_cases hop : writes i.opcode = true
  · cases hcode : i.opcode with
    | insert =>
      obtain ⟨hdelete, -⟩ := hpermits (by rw [hcode]; rfl)
      cases hcode.symm.trans hdelete
    | delete =>
      obtain ⟨-, id, rows, hcursor, htree, hrow, hid⟩ := hpermits (by rw [hcode]; rfl)
      simp only [execute, hcode, deleteRow, State.cursor, State.tree, hcursor, htree] at hx
      cases hx
      simp only [State.setTree, hcursor]
      exact h.erase htree hrow hid
    | clear =>
      simp only [Instruction.Within, hcode] at hedits
      cases hedits.1
    | idxInsert | idxDelete =>
      simp only [execute, hcode] at hx
      rcases changeKeys_cases hx with hsame | ⟨root', keys, key, hindex, hset⟩
      · rwa [hsame]
      · rw [hset]
        exact h.setIndex hindex
    | createBtree =>
      simp only [Instruction.Within, hcode] at hedits
    | _ =>
      rw [hcode] at hop
      cases hop
  · rw [(execute_keeps hx (by simpa using hop)).1, if_neg]
    · exact h
    · intro hdelete
      rw [eq_of_beq hdelete] at hop
      exact hop rfl

end Setting

namespace Deletion

theorem filter_remaining (filter : Option Resolved) (keep : Option Nat) (rows : List (Int64 × Bytes)) :
    ((remaining filter keep rows).map (·.1)).filter (· ∈ chosen filter keep rows) = [] := by
  refine List.filter_eq_nil_iff.mpr fun id hid => ?_
  obtain ⟨row, hrow, rfl⟩ := List.mem_map.mp hid
  simpa using (List.mem_filter.mp hrow).2

section Rows

variable {options : Options} {table : Table} {filter : Option Resolved} {limit : Option Int64} {reuse : Bool}
  {final : Builder} {env : Environment} {store : Store}

theorem emitRows_edits (h : (emitRows options table filter limit).Gives (Builder.fresh reuse) () final) :
    ∀ i ∈ final.code, i.Within (.editing (table.touched options)) :=
  emitRows_builds.within h

variable (h : (emitRows options table filter limit).Gives (Builder.fresh reuse) () final)
  (hcode : env.code = final.code) (hnonneg : ∀ n, limit = some n → 0 ≤ n.toInt)
  (htree : store.tree? table.root = some (.table rows)) (hrows : Rows.Ascending rows)

include h hcode hnonneg htree hrows

/-- **However a DELETE row by row ends, it deleted as many rows as are gone.** -/
theorem emitRows_counts : (run env store).2.Lacks table.root (chosen filter (limit.map fun n => n.toInt.toNat) rows)
      ((operations env store).count .delete) := by
  have hwithin : ∀ i ∈ env.code, i.Within (.editing (table.touched options)) := hcode ▸ emitRows_edits h
  obtain ⟨last, hhalt, hleads⟩ := emitRows_leads (σ := .counting table.root _ final env hcode) h rfl
    Setting.permitsRemoval_counting (.inl inferInstance) hnonneg htree hrows
  have hzero := Store.lacks_zero htree hrows
    (chosen_sublist filter (limit.map fun n => n.toInt.toNat) rows)
  rcases hleads.counts (I := fun st n => st.Lacks table.root _ n) (Setting.counting_counts hwithin) hzero rfl with
    hcounted | ⟨pc, s, fuel, trace, m, hends, hcounted, hrest, hsum⟩
  · rwa [Nat.zero_add] at hcounted
  rw [Nat.zero_add] at hsum
  -- Neither the halt nor the check that fails deletes a row.
  have hend : (run env store).2 = s.store ∧ (operationsFrom env fuel pc s).count .delete = 0 := by
    rcases hends with ⟨rfl, -⟩ | ⟨_, _, _, _, _, _, _, ⟨_, hbreaks⟩, _⟩
    · exact ⟨runFrom_halt_store hhalt rfl hrest, count_operationsFrom_halt hhalt rfl nofun⟩
    · exact ⟨hbreaks.store_of_runFrom hrest, hbreaks.count_operationsFrom _⟩
  rw [hend.1, operations, ← hsum, hend.2]
  exact hcounted

/-- A DELETE row by row that ends without a fault deleted the rows that were chosen. -/
theorem emitRows_count {e : Execution} {store' : Store} (hrun : run env store = (.ok e, store')) :
    e.count .delete = (chosen filter (limit.map fun n => n.toInt.toNat) rows).length := by
  obtain ⟨rows', htree', -, hsum⟩ := emitRows_counts h hcode hnonneg htree hrows
  have hwritten := emitRows_writes h hcode hrun hnonneg htree hrows
  rw [hrun] at htree'
  cases htree'.symm.trans hwritten.tree
  rw [filter_remaining, List.length_nil, Nat.zero_add] at hsum
  rw [Execution.count, ← Array.count_toList, trace_eq_operations hrun]
  simpa [operations] using hsum

end Rows

/-! ## The cost -/

/-- The rows that are chosen are no more than the cost says, and as many where no row is left out. -/
theorem length_chosen {d : Deletion} {options : Options} {k : Nat} (hcost : d.cost options rows.length = .linear k)
    (filter : Option Resolved) : (chosen filter (d.effectiveLimit?.map fun n => n.toInt.toNat) rows).length ≤ k ∧
      (filter = none → (chosen filter (d.effectiveLimit?.map fun n => n.toInt.toNat) rows).length = k) := by
  have hle := List.length_filter_le (fun row => Expr.holds (Rows.entry row).read filter) rows
  unfold cost at hcost
  split at hcost
  · cases hcost
  · cases hlimit : d.effectiveLimit? with
    | none =>
      rw [hlimit] at hcost
      cases hcost
      refine ⟨by simpa [chosen, Window.apply] using hle, ?_⟩
      rintro rfl
      simp [chosen, Window.apply, Expr.holds]
    | some n =>
      rw [hlimit] at hcost
      cases hcost
      refine ⟨?_, ?_⟩
      · simp only [chosen, Window.apply, Option.map_some, List.drop_zero, List.length_map, List.length_take]
        omega
      · rintro rfl
        simp [chosen, Window.apply, Expr.holds, Nat.min_comm]

/-- The program that clears the trees of a table and of some indexes. -/
def clearing (table : Table) (indexes : List Index) : List Instruction :=
  .plain .init 0 1 0 :: ⟨.clear, table.root, 0, 0, .table table.name, 0⟩ ::
    indexes.map (fun index => ⟨.clear, index.root, 0, 0, .index index.name, 0⟩) ++ [.plain .halt 0 0 0]

theorem emitClear_drafts {indexes : List Index} {b b' : Builder} (h : (emitClear indexes).Gives b () b') :
    b'.labels = b.labels ∧ b'.drafts.toList = b.drafts.toList ++
      indexes.map fun index => ⟨⟨.clear, index.root, 0, 0, .index index.name, 0⟩, none⟩ := by
  induction indexes generalizing b with
  | nil =>
    obtain ⟨-, rfl⟩ := gives_pure.mp h
    simp
  | cons index rest ih =>
    simp only [emitClear, gives_bind, gives_opWith] at h
    obtain ⟨_, b1, rfl, hrest⟩ := h
    obtain ⟨hlabels, hdrafts⟩ := ih hrest
    exact ⟨hlabels, by simp [hdrafts, Builder.emit]⟩

theorem emitTruncate_code {options : Options} {table : Table} {reuse : Bool} {final : Builder}
    (h : (emitTruncate options table).Gives (Builder.fresh reuse) () final) :
    final.code.toList = clearing table (options.indexes table) := by
  simp only [emitTruncate, gives_bind, gives_opWith] at h
  obtain ⟨_, b1, hinit, _, b2, rfl, _, b3, hclear, hhalt⟩ := h
  obtain rfl := gives_op.mp hhalt
  simp only [emitInit, gives_bind, gives_newLabel, gives_jump, gives_bindHere] at hinit
  obtain ⟨_, _, ⟨rfl, rfl⟩, _, _, rfl, rfl⟩ := hinit
  obtain ⟨hlabels, hdrafts⟩ := emitClear_drafts hclear
  simp [Builder.code, Builder.emit, hdrafts, Builder.resolve, Builder.target?, hlabels, clearing, Options.indexes,
    Builder.fresh, Builder.bindHere, Builder.bindTo, Builder.emitJump, Builder.newLabel, Builder.address,
    Instruction.plain, Function.comp_def]

/-- **The cost of a DELETE agrees with its program.** It is constant exactly where the program clears trees, and
then clearing is all it does. Otherwise the program clears none. On a table with as many rows as the cost was
asked for, it deletes no more rows than the cost says however it ends, and as many if it ends without a fault
and there is no filter. -/
theorem cost_agrees {schema : Schema} {options : Options} {d : Deletion} {program : Program}
    (h : d.compile schema options = .ok program) (count : Nat) :
    (d.cost options count = .constant ↔ ∃ i ∈ program.code, i.opcode = .clear) ∧
    (d.cost options count = .constant → ∃ table, schema.lookup d.table = .ok table ∧
      program.code.toList = clearing table (if options.maintainIndexes then table.indexes else [])) ∧
    ∀ most, d.cost options count = .linear most →
      ∀ table env store rows, schema.lookup d.table = .ok table → env.code = program.code →
        store.tree? table.root = some (.table rows) → Rows.Ascending rows → rows.length = count →
        (operations env store).count .delete ≤ most ∧
        ∀ e store', d.filter = none → run env store = (.ok e, store') → e.count .delete = most := by
  obtain ⟨table, filter, final, hlookup, hfilter, hgives, hcode⟩ := compile_gives h
  split at hgives
  · rename_i hclears
    have hconstant : d.cost options count = .constant := if_pos hclears
    have hlist : program.code.toList = clearing table (options.indexes table) := hcode ▸ emitTruncate_code hgives
    refine ⟨⟨fun _ => ?_, fun _ => hconstant⟩, fun _ => ⟨table, hlookup, hlist⟩, fun most hcost => ?_⟩
    · refine ⟨⟨.clear, table.root, 0, 0, .table table.name, 0⟩, ?_, rfl⟩
      rw [← Array.mem_toList_iff, hlist]
      simp [clearing]
    · cases hconstant.symm.trans hcost
  · rename_i hclears
    have hlinear : d.cost options count ≠ .constant := by
      rw [cost, if_neg hclears]
      split <;> nofun
    refine ⟨⟨fun hconstant => absurd hconstant hlinear, ?_⟩, fun hconstant => absurd hconstant hlinear, ?_⟩
    · rintro ⟨i, hi, hclear⟩
      have hedits := emitRows_edits hgives i (hcode ▸ hi)
      simp only [Instruction.Within, hclear] at hedits
      cases hedits.1
    · rintro most hcost table' env store rows hlookup' henv htree hrows rfl
      cases hlookup.symm.trans hlookup'
      have hnonneg := fun n hn => effectiveLimit?_nonneg (d := d) (n := n) hn
      obtain ⟨hmost, hevery⟩ := length_chosen hcost filter
      refine ⟨?_, fun e store' hnone hrun => ?_⟩
      · obtain ⟨_, -, -, hsum⟩ := emitRows_counts hgives (henv.trans hcode) hnonneg htree hrows
        omega
      · rw [emitRows_count hgives (henv.trans hcode) hnonneg htree hrows hrun]
        rw [hnone] at hfilter
        cases hfilter
        exact hevery rfl

/-- Two rows of a table of three. -/
def two : Deletion := ⟨"t", none, some 2⟩

/-- The cost is linear although no row is left out, and the run deletes two rows. -/
theorem cost_agrees_two : ∃ program e store',
    two.compile Database.letters.schema Database.letters.options = .ok program ∧
    two.cost Database.letters.options 3 = .linear 2 ∧
    run (Database.letters.environment program) Database.letters.store = (.ok e, store') ∧
    e.count .delete = 2 := by
  have hcompiles : (two.compile Database.letters.schema Database.letters.options).toBool = true := by decide +kernel
  cases hcompile : two.compile Database.letters.schema Database.letters.options with
  | error => simp [hcompile, Except.toBool] at hcompiles
  | ok program =>
    have hruns : (two.compile Database.letters.schema Database.letters.options).toOption.any (fun program =>
        (run (Database.letters.environment program) Database.letters.store).1.toBool) = true := by decide +kernel
    rw [hcompile] at hruns
    rcases hrun : run (Database.letters.environment program) Database.letters.store with ⟨_ | e, store'⟩
    · simp [Except.toOption, hrun, Except.toBool] at hruns
    · have hcost : two.cost Database.letters.options 3 = .linear 2 := by decide
      have htree : Database.letters.store.tree? 2 =
          some (.table [(1, [2, 15, 98]), (2, [2, 15, 97]), (3, [2, 0])]) := by decide +kernel
      exact ⟨program, e, store', rfl, hcost, hrun, ((cost_agrees hcompile 3).2.2 2 hcost _ _ _ _
        Database.lookup_letters rfl htree (by simp [Rows.Ascending]) rfl).2 e store' rfl hrun⟩

end Deletion

end QueryMachine
