import QueryMachine.Proofs.Database.Delete
import QueryMachine.Proofs.Machine.ForeignKey

/-!
# DELETE

After the first pass the collected rows are deleted one after the other: the keys of a row are taken
out of the indexes, foreign keys are checked, and the row is deleted. A DELETE of every row clears the
trees instead.

A row that a foreign key refers to stops the statement after its keys are gone.

* `Deletion.remaining` — the rows that are left.
* `Deletion.Removal.loop_leads` — the second pass.
-/

namespace QueryMachine

open Machine Emit

variable {σ : Setting} {b b' : Builder} {s s' : State} {table : Table} {c : Int}
  {opened : List OpenIndex} {rows : List (Int64 × Bytes)} {position : Option Position} {e : Entry}

/-- Going to a row that is there. -/
theorem Writing.seek_leads {rowid : Int} {exit : Label} {a : Nat} (h : Writing s c table opened rows position)
    (he : e ∈ Rows.entries rows) (hrowid : s.get rowid = .int e.1)
    (hend : (b.emitJump .notExists c rowid exit .empty 0).Begins σ.final) (hl : exit < b.labels.size)
    (hat : σ.At exit a) : σ.Leads (fun pc s' => pc = (b.emitJump .notExists c rowid exit .empty 0).address ∧
      Writing s' c table opened rows (some (.rowid e.1)) ∧ Quiet (fun _ => True) (· ≠ c) s s') b.address s := by
  obtain ⟨record, hrow, -⟩ := Rows.mem_entries.mp he
  have hget := (Rows.get?_eq_some h.ascending).mpr hrow
  refine .passed hend hl hat rfl (t := s.setPosition c (some (.rowid e.1))) ?_
    (.here ⟨rfl, h.setPosition _, State.quiet_setPosition ..⟩)
  simp only [execute, notExists, State.tree, State.cursor, h.cursor, h.tree, hrowid, Value.toInt64,
    hasRow, hget, Option.isSome_some, if_true]

/-- A DELETE of some rows of a table may delete them. -/
def Setting.PermitsRemoval (σ : Setting) (table : Table) (ids : List Int64) : Prop :=
  ∀ {s c opened rows e}, Writing s c table opened rows (some (.rowid e.1)) → e ∈ Rows.entries rows → e.1 ∈ ids →
    σ.Permits ⟨.delete, c, 0, 0, .table table.name, 0⟩ s

theorem Setting.PermitsDelete.removal {ids : List Int64} (h : σ.PermitsDelete) : σ.PermitsRemoval table ids :=
  fun _ _ _ => h _ _ rfl

namespace Deletion

/-! ## What is left -/

/-- The rows that are left. -/
def remaining (filter : Option Resolved) (keep : Option Nat) (rows : List (Int64 × Bytes)) :
    List (Int64 × Bytes) :=
  rows.filter fun row => row.1 ∉ chosen filter keep rows

theorem remaining_zero (filter : Option Resolved) (rows : List (Int64 × Bytes)) :
    remaining filter (some 0) rows = rows := by
  simp [remaining, chosen_zero]

theorem remaining_all (rows : List (Int64 × Bytes)) : remaining none none rows = [] := by
  refine List.filter_eq_nil_iff.mpr fun row hrow => ?_
  have hchosen : row.1 ∈ chosen none none rows := by
    simpa [chosen, Window.apply, Expr.holds] using ⟨row.2, hrow⟩
  simpa using hchosen

theorem filter_erase (id : Int64) (ids : List Int64) (rows : List (Int64 × Bytes)) :
    (Rows.erase id rows).filter (fun row => row.1 ∉ ids) = rows.filter fun row => row.1 ∉ id :: ids := by
  rw [Rows.erase, List.filter_filter]
  refine List.filter_congr fun row _ => ?_
  by_cases hid : row.1 = id <;> simp [hid]

/-! ## The second pass -/

variable {options : Options} {id : Int64} {indexes : List Index} {final : Builder} {reuse : Bool} {store : Store}

/-- What the second pass did to the tables: they lost rows at most, and where foreign keys are checked, no
row that is left refers to one of the deleted ones. -/
structure Purged (env : Environment) (options : Options) (table : Table) (ids : List Int64)
    (st st' : Store) : Prop where
  shrinks : st.Shrinks st'
  free : options.foreignKeys = true → ∀ id ∈ ids, ∀ key ∈ env.foreignKeys,
    Text.sameName key.parent table.name = true → st'.Unreferenced env.schema key id

theorem Purged.cons {env : Environment} {ids : List Int64} {st st1 st' : Store}
    (h : Purged env options table [id] st st1) (h' : Purged env options table ids st1 st') :
    Purged env options table (id :: ids) st st' where
  shrinks := h.shrinks.trans h'.shrinks
  free hchecks id' hid key hkey hparent := by
    rcases List.mem_cons.mp hid with rfl | hid
    · exact h'.shrinks.unreferenced (h.free hchecks _ List.mem_cons_self key hkey hparent)
    · exact h'.free hchecks id' hid key hkey hparent

/-- The check of foreign keys goes on where no row refers to the one under the cursor, and fails for it
otherwise. -/
theorem emitCheck_leads (h : (emitCheck options table c).Gives b () b') (hend : b'.Begins σ.final)
    (hgood : σ.Lenient ∨ options.foreignKeys = false) (hrowid : ∀ pc, s.currentRowid pc c = .ok id) :
    σ.Leads (fun pc s' => s' = s ∧ ((pc = b'.address ∧ Purged σ.env options table [id] s.store s.store) ∨
      options.foreignKeys = true ∧
        ∃ child, Breaks σ.env (.foreignKeyViolation table.name child id) pc s)) b.address s := by
  unfold emitCheck at h
  split at h
  · rename_i hchecks
    have hlenient : σ.Lenient := hgood.resolve_right (by simp [hchecks])
    obtain rfl := gives_opWith.mp h
    cases hcheck : checkKeys σ.env.schema s.store table.name id
        (σ.env.foreignKeys.filter fun key => Text.sameName key.parent table.name) with
    | ok =>
      refine .op hend rfl (t := s) ?_ (.here ⟨rfl, .inl ⟨rfl, .refl _, fun _ id' hid key hkey hparent => ?_⟩⟩)
      · simp only [execute, foreignKeyCheck, hrowid, hcheck]
      · obtain rfl := List.mem_singleton.mp hid
        exact unreferenced_of_checkKeys hcheck key (List.mem_filter.mpr ⟨hkey, hparent⟩)
    | error f =>
      have hx : execute σ.env b.address ⟨.fkCheck, c, 0, 0, .table table.name, 0⟩ s = .error f := by
        simp only [execute, foreignKeyCheck, hrowid, hcheck]
      cases hviolation : f.isViolation with
      | false => exact .failed hend hx (σ.admits f hviolation)
      | true =>
        obtain ⟨child, rfl⟩ := checkKeys_violation hcheck hviolation
        exact .here ⟨rfl, .inr ⟨hchecks, child, Setting.breaks_of_emit hend hx⟩⟩
  · rename_i hunchecked
    obtain ⟨-, rfl⟩ := gives_pure.mp h
    exact .here ⟨rfl, .inl ⟨rfl, .refl _, fun hchecks => absurd hchecks hunchecked⟩⟩

/-- The code of a round of the second pass, piece by piece. -/
structure Removal (options : Options) (table : Table) (opened : List OpenIndex) (c rowSet rowid : Int)
    (collected done : Label) (b b1 b2 b' : Builder) : Prop where
  out : (emitKeys .idxDelete table (.row c) opened).Gives
    ((b.emitJump .rowSetRead rowSet rowid done .empty 0).emitJump .notExists c rowid collected .empty 0)
    () b1
  check : (emitCheck options table c).Gives b1 () b2
  last : b' = (b2.emit ⟨.delete, c, 0, 0, .table table.name, 0⟩).emitJump .goto 0 0 collected .empty 0

variable {rowSet rowid : Int} {collected done : Label} {b1 b2 : Builder} {ids all : List Int64}

/-- A row that a foreign key refers to has lost its keys when the check fails. -/
structure Breach (σ : Setting) (options : Options) (table : Table) (indexes : List Index)
    (rows : List (Int64 × Bytes)) (st : Store) (id : Int64) (pc : Nat) (s : State) : Prop where
  checked : options.foreignKeys = true
  fails : ∃ child, Breaks σ.env (.foreignKeyViolation table.name child id) pc s
  unkeyed : ∃ e ∈ Rows.entries rows, e.1 = id ∧ st.Rekeyed Keys.erase table e indexes s.store

/-- Nothing stands against deleting rows and their keys: the keys of every row can be built, the indexes
have trees, and foreign keys are not checked. -/
structure Clear (options : Options) (table : Table) (indexes : List Index) (rows : List (Int64 × Bytes))
    (st : Store) : Prop where
  decodes : indexes ≠ [] → ∀ row ∈ rows, ∃ values, Record.decode row.2 = .ok values
  encodes : ∀ index ∈ indexes, ∀ e ∈ Rows.entries rows, ∃ bytes,
    Record.encode (table.key index.columns e) = .ok bytes
  trees : ∀ index ∈ indexes, ∃ keys, st.tree? index.root = some (.index keys)
  unchecked : options.foreignKeys = false

/-- The keys of a row under the cursor can be built. -/
theorem Clear.keyed (h : Clear options table indexes rows s.store)
    (hw : Writing s c table opened rows (some (.rowid e.1))) (he : e ∈ Rows.entries rows) :
    Keyed s table indexes (.row c) e := by
  refine ⟨fun hne => ?_, fun index hin => h.encodes index hin e he, h.trees⟩
  rintro _ ⟨⟩ pc
  obtain ⟨record, hrow, -⟩ := Rows.mem_entries.mp he
  obtain ⟨values, hvalues⟩ := h.decodes hne _ hrow
  have hget := (Rows.get?_eq_some hw.ascending).mpr hrow
  have hcursor := hw.cursor
  have htree := hw.tree
  refine ⟨values, ?_⟩
  simp only [State.currentRow, State.cursor, State.tree, hcursor, htree, hget, hvalues, Fault.lift]

/-- Nothing stands against deleting the rows that are left. -/
theorem Clear.erase {st st1 st' : Store} (h : Clear options table indexes rows st)
    (hrekeyed : st.Rekeyed Keys.erase table e indexes st1)
    (hstore : st' = st1.setTree table.root (.table (Rows.erase id rows))) :
    Clear options table indexes (Rows.erase id rows) st' where
  decodes hne row hrow := h.decodes hne row (List.mem_of_mem_filter hrow)
  encodes index hin e he := h.encodes index hin e (Rows.mem_entries_erase.mp he).1
  trees index hin := by
    obtain ⟨keys, hkeys⟩ := h.trees index hin
    have hne : index.root ≠ table.root := fun heq => hrekeyed.outside (List.mem_map.mpr ⟨index, hin, heq⟩)
    rw [hstore, Store.tree?_setTree_of_ne hne]
    exact ⟨_, hrekeyed.keys _ keys hkeys⟩
  unchecked := h.unchecked

section Removal

variable (h : Removal options table opened c rowSet rowid collected done b b1 b2 b') (hb : b.Valid)

include h hb

theorem Removal.rest_grows : (b.emitJump .rowSetRead rowSet rowid done .empty 0).Grows b' := by
  have h0 := (Builder.Grows.refl
    ((Builder.Grows.refl hb).emitJump .rowSetRead rowSet rowid done .empty 0).valid).emitJump
    .notExists c rowid collected .empty 0
  have h1 := h0.trans (h.out.grows h0.valid)
  have h2 := h1.trans (h.check.grows h1.valid)
  rw [h.last]
  exact (h2.emit _).emitJump ..

theorem Removal.grows : b.Grows b' :=
  ((Builder.Grows.refl hb).emitJump ..).trans (h.rest_grows hb)

variable {a : Nat} (hend : b'.Begins σ.final) (hpermits : σ.PermitsRemoval table all) (hl : collected < b.labels.size)
  (hat : σ.At collected b.address) (hdone : done < b.labels.size) (hatdone : σ.At done a) (hrowSet : b.Holds rowSet)
  (hne : rowSet ≠ rowid)

include hend hpermits hl hat hdone hatdone hrowSet hne

/-- One round deletes one row, unless a foreign key refers to it. -/
theorem Removal.leads (hgood : σ.Lenient ∨ Clear options table (opened.map (·.2)) rows s.store)
    (hw : Writing s c table opened rows position) (he : e ∈ Rows.entries rows) (hin : e.1 ∈ all)
    (hset : s.rowSets.get? rowSet = some (e.1 :: ids)) : σ.Leads (fun pc s' => (pc = b.address ∧
        Writing s' c table opened (Rows.erase e.1 rows) (some (.rowid e.1)) ∧
        s'.rowSets.get? rowSet = some ids ∧ s.store.Written table (opened.map (·.2)) (fun _ => True)
          rows (Rows.erase e.1 rows) s'.store ∧ Purged σ.env options table [e.1] s.store s'.store ∧
        (σ.Lenient ∨ Clear options table (opened.map (·.2)) (Rows.erase e.1 rows) s'.store)) ∨
      Breach σ options table (opened.map (·.2)) rows s.store e.1 pc s') b.address s := by
  have h1 := (Builder.Grows.refl hb).emitJump .rowSetRead rowSet rowid done .empty 0
  have h2 := h1.emitJump .notExists c rowid collected .empty 0
  have h23 := h.out.grows h2.valid
  have h3 := h2.trans h23
  have h34 := h.check.grows h3.valid
  have hend6 := h.last ▸ hend
  have hend5 := (Builder.Begins.emitJump ..).trans hend6
  have hend4 := (Builder.Begins.emit ..).trans hend5
  have hend3 := h34.begins.trans hend4
  have hend2 := h23.begins.trans hend3
  have hend1 := (Builder.Begins.emitJump ..).trans hend2
  -- The next rowid of the set.
  let s0 : State := { s with rowSets := s.rowSets.set rowSet ids }
  let s1 := s0.set rowid (.int e.1)
  refine .passed hend1 hdone hatdone rfl (t := s1) ?_ ?_
  · simp only [execute, rowSetRead, hset, s1, s0]
  have hk0 : Keeps (fun q => q ≠ rowSet) (fun _ => True) s s0 :=
    ⟨fun _ _ => rfl, fun q hq => Slots.get?_set_of_ne _ _ hq, fun _ _ => rfl⟩
  have hq1 : Quiet (fun q => 0 < q ∧ q ≠ rowid) (fun _ => True) s0 s1 := .set s0 _ fun _ hq => hq
  have hset1 : s1.rowSets.get? rowSet = some ids :=
    (hq1.rowSets rowSet ⟨hrowSet.1, hne⟩).trans (Slots.get?_set_self ..)
  have hw1 := (hw.keeps hk0 rfl).quiet hq1
  -- The row itself, and its keys.
  refine (hw1.seek_leads he (State.get_set_self ..) hend2 (Nat.lt_of_lt_of_le hl h1.labels_le)
    hat).bind ?_
  rintro pc s2 ⟨rfl, hw2, hq2⟩
  have hstore2 : s2.store = s.store := hq2.store
  have hgood2 : σ.Lenient ∨ Keyed s2 table (opened.map (·.2)) (.row c) e := by
    refine hgood.imp_right fun hclear => ?_
    rw [← hstore2] at hclear
    exact hclear.keyed hw2 he
  refine (hw2.keys_leads idxDelete_changesKeys h.out h2.valid hend3 hgood2
    (fun o _ => hw2.keySource he o.2.columns) fun _ hr => False.elim hr).bind ?_
  rintro pc s3 ⟨rfl, hw3, hk3, hrekeyed⟩
  rw [hstore2] at hrekeyed
  refine (emitCheck_leads h.check hend4 (hgood.imp_right (·.unchecked)) hw3.currentRowid).bind ?_
  rintro pc s4 ⟨rfl, ⟨rfl, hpurged⟩ | ⟨hchecks, hbreaks⟩⟩
  · refine (hw3.delete_performs hend5 (hpermits hw3 he hin)).leads.bind ?_
    rintro pc s5 ⟨rfl, hw5, hk5, hstore5⟩
    refine .taken hend6 (Nat.lt_of_lt_of_le hl ((h3.trans h34).emit _).labels_le) hat rfl (t := s5) rfl
      (.here (.inl ⟨rfl, hw5, ?_, ?_, ?_, hgood.imp_right (·.erase hrekeyed hstore5)⟩))
    · rw [hk5.rowSets _ trivial, hk3.rowSets _ (h2.holds _ hrowSet), hq2.rowSets _ trivial, hset1]
    · exact .erase hw.ascending he hrekeyed hstore5
    · have hkeys : s.store.Shrinks s4.store :=
        fun root rows hrows => ⟨rows, hrekeyed.tables root rows hrows, List.Subset.refl rows⟩
      have hlast : s4.store.Shrinks s5.store :=
        hstore5 ▸ .setTree hw3.tree (List.filter_subset_self _)
      exact ⟨hkeys.trans hlast, fun hchecks id hid key hkey hparent =>
        hlast.unreferenced (hpurged.free hchecks id hid key hkey hparent)⟩
  · exact .here (.inr ⟨hchecks, hbreaks, e, he, rfl, hrekeyed⟩)

/-- The second pass deletes the rows that were collected, up to one that a foreign key refers to. -/
theorem Removal.loop_leads (hgood : σ.Lenient ∨ Clear options table (opened.map (·.2)) rows s.store)
    (hw : Writing s c table opened rows position) (hset : (s.rowSets.get? rowSet).getD [] = ids) (hnodup : ids.Nodup)
    (hall : ids ⊆ all) (hids : ∀ id ∈ ids, ∃ e ∈ Rows.entries rows, e.1 = id) :
    σ.Leads (fun pc s' => (pc = a ∧ s.store.Written table (opened.map (·.2)) (fun _ => True) rows
        (rows.filter fun row => row.1 ∉ ids) s'.store ∧ Purged σ.env options table ids s.store s'.store) ∨
      ∃ before id after st, ids = before ++ id :: after ∧ s.store.Written table (opened.map (·.2)) (fun _ => True) rows
          (rows.filter fun row => row.1 ∉ before) st ∧
        Breach σ options table (opened.map (·.2)) (rows.filter fun row => row.1 ∉ before) st id pc s') b.address s := by
  have hend1 := (h.rest_grows hb).begins.trans hend
  induction ids generalizing rows s position with
  | nil =>
    refine .taken hend1 hdone hatdone rfl (t := s) ?_ (.here (.inl ⟨rfl, ?_, .refl _, nofun⟩))
    · rcases hget : s.rowSets.get? rowSet with _ | _ | ⟨id, ids⟩
      · simp only [execute, rowSetRead, hget]
      · simp only [execute, rowSetRead, hget]
      · rw [hget] at hset
        cases hset
    · rw [List.filter_eq_self.mpr (by simp)]
      exact .refl hw.tree
  | cons id ids ih =>
    obtain ⟨hfresh, hrest⟩ := List.nodup_cons.mp hnodup
    obtain ⟨e, he, rfl⟩ := hids id List.mem_cons_self
    have hset : s.rowSets.get? rowSet = some (e.1 :: ids) := by
      cases hget : s.rowSets.get? rowSet with
      | none =>
        rw [hget] at hset
        cases hset
      | some set =>
        rw [hget] at hset
        exact congrArg some hset
    have hnone : (rows.filter fun row => row.1 ∉ ([] : List Int64)) = rows := by simp
    refine (h.leads hb hend hpermits hl hat hdone hatdone hrowSet hne hgood hw he (hall List.mem_cons_self)
      hset).bind ?_
    rintro pc s1 (⟨rfl, hw1, hset1, hwritten1, hpurged1, hgood1⟩ | hbreach)
    · refine (ih hgood1 hw1 (by rw [hset1]; rfl) hrest (List.subset_of_cons_subset hall) fun id hid => ?_).mono ?_
      · obtain ⟨e', he', rfl⟩ := hids id (List.mem_cons_of_mem _ hid)
        exact ⟨e', Rows.mem_entries_erase.mpr ⟨he', fun heq => hfresh (heq ▸ hid)⟩, rfl⟩
      · rintro pc s' (⟨rfl, hwritten, hpurged⟩ | ⟨before, id, after, st, rfl, hwritten, hbreach⟩)
        · rw [filter_erase] at hwritten
          exact .inl ⟨rfl, hwritten1.trans hwritten, hpurged1.cons hpurged⟩
        · rw [filter_erase] at hwritten hbreach
          exact .inr ⟨e.1 :: before, id, after, st, rfl, hwritten1.trans hwritten, hbreach⟩
    · refine .here (.inr ⟨[], e.1, ids, s.store, rfl, ?_, ?_⟩)
      · rw [hnone]
        exact .refl hw.tree
      · rwa [hnone]

end Removal

/-! ## Whole programs -/

theorem chosen_sublist (filter : Option Resolved) (keep : Option Nat) (rows : List (Int64 × Bytes)) :
    (chosen filter keep rows).Sublist (rows.map (·.1)) := by
  have hfilter := (List.filter_sublist (p := fun row => Expr.holds (Rows.entry row).read filter)
    (l := rows)).map (·.1)
  cases keep with
  | none => simpa [chosen, Window.apply] using hfilter
  | some n =>
    refine List.Sublist.trans (List.Sublist.map _ ?_) hfilter
    exact List.take_sublist ..

theorem nodup_chosen (hrows : Rows.Ascending rows) (filter : Option Resolved) (keep : Option Nat) :
    (chosen filter keep rows).Nodup :=
  hrows.nodup_rowids.sublist (chosen_sublist filter keep rows)

theorem mem_entries_of_mem_chosen {filter : Option Resolved} {keep : Option Nat} (h : id ∈ chosen filter keep rows) :
    ∃ e ∈ Rows.entries rows, e.1 = id := by
  obtain ⟨row, hrow, rfl⟩ := List.mem_map.mp ((chosen_sublist filter keep rows).subset h)
  exact ⟨Rows.entry row, Rows.entry_mem_entries hrow, rfl⟩

/-- How a DELETE row by row ends: the rows are deleted, or those before one that a foreign key refers
to. -/
def Ends (σ : Setting) (options : Options) (table : Table) (filter : Option Resolved)
    (keep : Option Nat) (rows : List (Int64 × Bytes)) (store : Store) (last : Nat) (pc : Nat)
    (s : State) : Prop :=
  (pc = last ∧ store.Written table (options.indexes table) (fun _ => True) rows (remaining filter keep rows)
    s.store ∧ Purged σ.env options table (chosen filter keep rows) store s.store) ∨
  ∃ before id after st, chosen filter keep rows = before ++ id :: after ∧
    store.Written table (options.indexes table) (fun _ => True) rows (rows.filter fun row => row.1 ∉ before) st ∧
    Breach σ options table (options.indexes table) (rows.filter fun row => row.1 ∉ before) st id pc s

/-- **Running a DELETE row by row.** -/
theorem emitRows_leads {filter : Option Resolved} {limit : Option Int64}
    (h : (emitRows options table filter limit).Gives (Builder.fresh reuse) () final) (hfinal : σ.final = final)
    (hpermits : σ.PermitsRemoval table (chosen filter (limit.map fun n => n.toInt.toNat) rows))
    (hgood : σ.Lenient ∨ filter = none ∧ Clear options table (options.indexes table) rows store)
    (hnonneg : ∀ n, limit = some n → 0 ≤ n.toInt) (htree : store.tree? table.root = some (.table rows))
    (hrows : Rows.Ascending rows) : ∃ last, σ.env.code[last]? = some (.plain .halt 0 0 0) ∧
      σ.Leads (Ends σ options table filter (limit.map fun n => n.toInt.toNat) rows store last) 0 (State.start store) := by
  simp only [emitRows, emitDelete, gives_bind, gives_newCursor, gives_newLabel, gives_jump, gives_op,
    gives_opWith, gives_bindHere] at h
  obtain ⟨c, b0, ⟨rfl, rfl⟩, _, b1, hinit, _, b2, rfl, opened, b3, hindexes, h⟩ := h
  obtain ⟨rowSet, b4, hrowSet, _, b5, rfl, done, b6, ⟨rfl, rfl⟩, collected, b7, ⟨rfl, rfl⟩, h⟩ := h
  obtain ⟨counter, b8, hlimit, _, b9, hcollect, h⟩ := h
  obtain ⟨_, b16, ⟨_, b10, rfl, rowid, b11, hrowid, _, b12, rfl, _, b13, rfl, _, b14, hkeys, _, b15, hcheck,
    _, b15', rfl, hlast⟩, _, b17, rfl, _, b18, hclose, hhalt⟩ := h
  obtain rfl := gives_op.mp hhalt
  obtain ⟨hvalid, hcursors⟩ := emitInit_spec hinit (Builder.valid_fresh _)
  obtain ⟨h13, hopened, -⟩ := emitOpen_grows hindexes hvalid
  have hset := takes_register hrowSet h13.valid
  have h35 := hset.grows.emit (.plain .null 0 rowSet 0)
  -- The labels behind the two passes, then the passes.
  have h56 := (Builder.Grows.refl h35.valid).newLabel
  have h67 := (Builder.Grows.refl h56.valid).newLabel
  obtain ⟨h78, hcounter⟩ := emitLimit_grows hlimit h67.valid
  have h89 := hcollect.grows h78.valid
  have h79 := h78.trans h89
  have h610 := (h67.trans h79).bindHere (Nat.le_refl _)
  have hid := takes_register hrowid h610.valid
  have hremoval : Removal options table opened (Builder.fresh reuse).cursors rowSet rowid _ _ b11 b14 b15
      b16 := ⟨hkeys, hcheck, hlast⟩
  have h1116 := hremoval.grows hid.grows.valid
  have h616 := h610.trans (hid.grows.trans h1116)
  have h517 := (h56.trans h616).bindHere (Nat.le_refl _)
  have h1718 := hclose.grows h517.valid
  have hend18 : b18.Begins σ.final := hfinal ▸ Builder.Begins.emit ..
  have hend17 := h1718.begins.trans hend18
  have hend16 := (Builder.Begins.bindHere (h616.unbound (Builder.lt_newLabel _)
    (Builder.target?_newLabel _))).trans hend17
  have hend11 := h1116.begins.trans hend16
  have hend10 := hid.grows.begins.trans hend11
  have hend9 := (Builder.Begins.bindHere (h79.unbound (Builder.lt_newLabel _)
    (Builder.target?_newLabel _))).trans hend10
  have hend8 := h89.begins.trans hend9
  have hend5 := ((h56.trans h67).trans h78).begins.trans hend8
  have hatcollected := Setting.at_of_bindHere hend10
    (Nat.lt_of_lt_of_le (Builder.lt_newLabel _) h79.labels_le)
  have hatdone := Setting.at_of_bindHere hend17
    (Nat.lt_of_lt_of_le (Builder.lt_newLabel _) h616.labels_le)
  have h57 := h56.trans h67
  have hheld : b4.emit (.plain .null 0 rowSet 0) |>.Holds rowSet := hset.held rfl
  refine ⟨b18.address, ?_, leads_of_body rfl hinit
    (((h13.trans h35).trans h517).trans h1718 |>.begins.trans hend18) ?_⟩
  · rw [σ.code_eq, hfinal]
    exact Builder.code_of_emit (.refl _)
  -- What comes after the passes.
  have hrest : ∀ pc s, Ends σ options table filter (limit.map fun n => n.toInt.toNat) rows store
      b16.address pc s → σ.Leads (Ends σ options table filter (limit.map fun n => n.toInt.toNat) rows store
      b18.address) pc s := by
    rintro pc s (⟨rfl, hdeleted⟩ | hbreach)
    · refine (emitClose_leads hclose h517.valid hend18).mono ?_
      rintro pc s' ⟨rfl, hq⟩
      exact .inl ⟨rfl, hq.store.symm ▸ hdeleted⟩
    · exact .here (.inr hbreach)
  have hc : (Builder.fresh reuse).cursors < b1.cursors := by
    rw [hcursors]
    show (0 : Int) < 0 + 1
    omega
  have hthere : σ.Lenient ∨ ∀ index ∈ options.indexes table,
      (State.start store).store.tree? index.root ≠ none := by
    refine hgood.imp_right fun hclear index hin hnone => ?_
    obtain ⟨keys, hkeys⟩ := hclear.2.trees index hin
    cases hnone.symm.trans hkeys
  refine (emitOpen_leads hindexes hvalid ((h35.begins.trans hend5)) hthere hc
    (fun d => Slots.get?_empty d) htree hrows).bind ?_
  rintro pc s3 ⟨rfl, hw3, hstore3⟩
  rw [← hset.address]
  refine .op hend5 rfl (t := s3.set rowSet .null) ?_ ?_
  · simp only [execute, Instruction.plain, setNulls_one (Int.le_of_lt (hset.held rfl).1)]
  have hw5 : Writing (s3.set rowSet .null) _ table opened rows none :=
    hw3.quiet (.set s3 _ fun r (hr : 0 < r ∧ r ≠ rowSet) => hr)
  refine (emitLimit_leads hlimit h57.valid hend8 (Nat.lt_of_lt_of_le (Builder.lt_newLabel _) h67.labels_le)
    hatdone hnonneg (h57.holds _ hheld) (s := s3.set rowSet .null) ?_).bind ?_
  · show ((s3.rowSets.erase rowSet).get? rowSet).getD [] = []
    rw [Slots.get?_erase_self]
    rfl
  rintro pc s8 ⟨hq8, ⟨rfl, rfl⟩ | ⟨rfl, hg8⟩⟩
  · have hnone : remaining filter ((some 0).map fun n : Int64 => n.toInt.toNat) rows = rows :=
      remaining_zero filter rows
    have hempty : chosen filter ((some 0).map fun n : Int64 => n.toInt.toNat) rows = [] :=
      chosen_zero filter rows
    have hsame : s8.store = store := hq8.store.trans hstore3
    refine hrest _ _ (.inl ⟨rfl, ?_, ?_⟩)
    · rw [hnone, hsame]
      exact .refl htree
    · rw [hempty, hsame]
      exact ⟨.refl _, fun _ => List.forall_mem_nil _⟩
  refine (emitCollect_leads hcollect h78.valid hend9 (hgood.imp_right And.left)
    (Nat.lt_of_lt_of_le (Builder.lt_newLabel _) h78.labels_le) hatcollected
    ((h57.trans h78).holds _ hheld) ?_ (hw5.quiet hq8) hg8).bind ?_
  · intro r hr
    refine ⟨(hcounter r hr).1, ?_⟩
    rintro rfl
    exact (hcounter _ hr).2 (h57.holds _ hheld)
  rintro pc s9 ⟨rfl, ⟨position, hw9⟩, hstore9, hset9⟩
  rw [show b9.address = b11.address from hid.address.symm]
  have h510 := h56.trans h610
  have hlabels := hid.grows.labels_le
  rw [Builder.labels_size_bindHere] at hlabels
  replace hlabels := Nat.le_trans h79.labels_le hlabels
  have hstore : s9.store = store := by
    rw [hstore9, hq8.store]
    exact hstore3
  have hgood9 : σ.Lenient ∨ Clear options table (opened.map (·.2)) rows s9.store := by
    rw [hstore, hopened]
    exact hgood.imp_right And.right
  refine (hremoval.loop_leads hid.grows.valid (a := b16.address) hend16 hpermits
    (Nat.lt_of_lt_of_le (Builder.lt_newLabel _) hlabels) (hid.address ▸ hatcollected)
    (Nat.lt_of_lt_of_le (Builder.lt_newLabel _) (h610.trans hid.grows).labels_le) hatdone
    (hid.grows.holds _ (h510.holds _ hheld)) ?_ hgood9 hw9 hset9
    (nodup_chosen hrows ..) (List.Subset.refl _) fun id hid => mem_entries_of_mem_chosen hid).bind ?_
  · rintro rfl
    exact hid.new rfl (h510.holds _ hheld)
  rintro pc s' hends
  rw [hstore, hopened] at hends
  exact hrest pc s' hends

section Runs

variable {filter : Option Resolved} {limit : Option Int64} {reuse : Bool} {final : Builder}
  {env : Environment} {store store' : Store}

section

variable {execution : Execution} (h : (emitRows options table filter limit).Gives (Builder.fresh reuse) () final)
  (hcode : env.code = final.code) (hrun : Machine.run env store = (.ok execution, store'))
  (hnonneg : ∀ n, limit = some n → 0 ≤ n.toInt) (htree : store.tree? table.root = some (.table rows))
  (hrows : Rows.Ascending rows)

include h hcode hrun hnonneg htree hrows

/-- A DELETE row by row that ends without a fault deletes the rows that were chosen, and no row is left that
refers to one of them. -/
theorem emitRows_deletes : store.Written table (options.indexes table) (fun _ => True) rows
        (remaining filter (limit.map fun n => n.toInt.toNat) rows) store' ∧
      Purged env options table (chosen filter (limit.map fun n => n.toInt.toNat) rows) store store' := by
  let σ := Setting.free final env hcode
  obtain ⟨last, hhalt, hleads⟩ := emitRows_leads (σ := σ) h rfl (Setting.free_free ..).permitsDelete.removal
    (.inl inferInstance) hnonneg htree hrows
  obtain ⟨pc, s, fuel, trace, hends, hrest⟩ := Leads.rest_of_run hleads hrun
  rcases hends with ⟨rfl, hdeleted⟩ | ⟨_, _, _, _, _, _, _, ⟨_, hbreaks⟩, _⟩
  · rwa [(runFrom_halt hhalt rfl hrest).2.1]
  · exact absurd hrest hbreaks.not_ok

theorem emitRows_writes : store.Written table (options.indexes table) (fun _ => True) rows
    (remaining filter (limit.map fun n => n.toInt.toNat) rows) store' :=
  (emitRows_deletes h hcode hrun hnonneg htree hrows).1

end

/-- A DELETE that a foreign key stops has deleted the rows before the one that it stops at; that row is
still there, and its keys are gone. -/
theorem emitRows_stops {f : Fault} (h : (emitRows options table filter limit).Gives (Builder.fresh reuse) () final)
    (hcode : env.code = final.code) (hrun : Machine.run env store = (.error f, store')) (hf : f.isViolation = true)
    (hnonneg : ∀ n, limit = some n → 0 ≤ n.toInt) (htree : store.tree? table.root = some (.table rows))
    (hrows : Rows.Ascending rows) : ∃ before e after st child,
      chosen filter (limit.map fun n => n.toInt.toNat) rows = before ++ e.1 :: after ∧
      f = .foreignKeyViolation table.name child e.1 ∧ store.Written table (options.indexes table) (fun _ => True) rows
        (rows.filter fun row => row.1 ∉ before) st ∧ e ∈ Rows.entries (rows.filter fun row => row.1 ∉ before) ∧
      st.Rekeyed Keys.erase table e (options.indexes table) store' := by
  let σ : Setting := ⟨final, env, hcode, fun f => f.isViolation = false, fun _ _ => True, fun _ _ _ => trivial⟩
  obtain ⟨last, hhalt, hleads⟩ := emitRows_leads (σ := σ) h rfl (fun _ _ _ => trivial) (.inl ⟨fun _ h => h⟩)
    hnonneg htree hrows
  have hlimit : f ≠ .stepLimit env.stepLimit := by
    rintro rfl
    cases hf
  have hrefused : ¬ σ.Admits f := by
    show ¬ f.isViolation = false
    rw [hf]
    nofun
  obtain ⟨pc, s, fuel, trace, hends, hrest⟩ := Leads.rest_of_fault hleads hrefused hlimit hrun
  rcases hends with ⟨rfl, -⟩ | ⟨before, _, after, st, hchosen, hwritten, -, ⟨child, hbreaks⟩, e, he, rfl,
    hrekeyed⟩
  · exact absurd (runFrom_halt_stops hhalt rfl hrest).1 hlimit
  · obtain ⟨rfl, rfl⟩ := hbreaks.of_runFrom hlimit hrest
    exact ⟨before, e, after, st, child, hchosen, rfl, hwritten, he, hrekeyed⟩

end Runs

/-! ## Clearing whole trees -/

/-- Indexes are left with no keys. -/
theorem emitClear_leads (h : (emitClear indexes).Gives b () b') (hb : b.Valid) (hend : b'.Begins σ.final)
    (hgood : σ.Lenient ∨ ∀ index ∈ indexes, s.store.tree? index.root ≠ none) :
    σ.Leads (fun pc s' => pc = b'.address ∧ s.store.OnlyAt (indexes.map (·.root)) s'.store ∧
      ∀ root ∈ indexes.map (·.root), ∀ keys, s.store.tree? root = some (.index keys) →
        s'.store.tree? root = some (.index [])) b.address s := by
  induction indexes generalizing b s with
  | nil =>
    obtain ⟨-, rfl⟩ := gives_pure.mp h
    exact .here ⟨rfl, .refl _ _, fun _ hin => absurd hin List.not_mem_nil⟩
  | cons index rest ih =>
    simp only [emitClear, gives_bind, gives_opWith] at h
    obtain ⟨_, b1, rfl, hrest⟩ := h
    have h1 := (Builder.Grows.refl hb).emit ⟨.clear, index.root, 0, 0, .index index.name, 0⟩
    have hend1 := (hrest.grows h1.valid).begins.trans hend
    cases hroot : s.store.tree? index.root with
    | none =>
      rcases hgood with hlenient | hthere
      · refine .failed hend1 (f := .noSuchRoot index.root) ?_ (σ.admits _ rfl)
        simp only [execute, clearTree, hroot]
      · exact absurd hroot (hthere index List.mem_cons_self)
    | some tree =>
      let s1 : State := { s with store := s.store.setTree index.root tree.cleared }
      refine .op hend1 rfl (t := s1) ?_ ?_
      · simp only [execute, clearTree, hroot, s1]
      have hgood1 : σ.Lenient ∨ ∀ other ∈ rest, s1.store.tree? other.root ≠ none := by
        refine hgood.imp_right fun hthere other hin => ?_
        by_cases hsame : other.root = index.root
        · rw [hsame, Store.tree?_setTree_self]
          exact Option.some_ne_none _
        · rw [Store.tree?_setTree_of_ne hsame]
          exact hthere other (List.mem_cons_of_mem _ hin)
      refine (ih hrest h1.valid hgood1).mono ?_
      rintro pc s' ⟨rfl, honly, hcleared⟩
      have hfirst : s.store.OnlyAt (index.root :: rest.map (·.root)) s1.store :=
        .setTree List.mem_cons_self s.store tree.cleared
      refine ⟨rfl, hfirst.trans ⟨honly.nextRoot, fun root hroot => ?_⟩, fun root hin keys hkeys => ?_⟩
      · exact honly.other root fun hin => hroot (List.mem_cons_of_mem _ hin)
      · by_cases hsame : root = index.root
        · subst hsame
          cases hroot.symm.trans hkeys
          have hempty : s1.store.tree? index.root = some (.index []) := Store.tree?_setTree_self ..
          by_cases hin : index.root ∈ rest.map (·.root)
          · exact hcleared _ hin [] hempty
          · rw [honly.other _ hin, hempty]
        · have hkept : s1.store.tree? root = some (.index keys) :=
            (Store.tree?_setTree_of_ne hsame).trans hkeys
          exact hcleared root ((List.mem_cons.mp hin).resolve_left hsame) keys hkept

/-- Code that clears a table and its indexes deletes every row. -/
theorem emitTruncate_leads (h : (emitTruncate options table).Gives (Builder.fresh reuse) () final)
    (hfinal : σ.final = final) (hgood : σ.Lenient ∨ ∀ index ∈ options.indexes table, store.tree? index.root ≠ none)
    (htree : store.tree? table.root = some (.table rows)) (hout : table.root ∉ (options.indexes table).map (·.root)) :
    σ.Finishes store fun s => store.Written table (options.indexes table) (fun _ => True) rows [] s.store := by
  simp only [emitTruncate, gives_bind, gives_opWith] at h
  obtain ⟨_, b1, hinit, _, b2, rfl, _, b3, hclear, hhalt⟩ := h
  obtain rfl := gives_op.mp hhalt
  obtain ⟨hvalid, -⟩ := emitInit_spec hinit (Builder.valid_fresh _)
  have h1 := (Builder.Grows.refl hvalid).emit ⟨.clear, table.root, 0, 0, .table table.name, 0⟩
  have h13 := hclear.grows h1.valid
  have hend : b3.Begins σ.final := by
    rw [hfinal]
    exact .emit b3 _
  have hne : ∀ index ∈ options.indexes table, index.root ≠ table.root :=
    fun index hin heq => hout (List.mem_map.mpr ⟨index, hin, heq⟩)
  refine ⟨b3.address, ?_, leads_of_body rfl hinit ((h1.trans h13).begins.trans hend) ?_⟩
  · rw [σ.code_eq, hfinal]
    exact Builder.code_of_emit (.refl _)
  let s1 : State := { State.start store with store := store.setTree table.root .emptyTable }
  refine .op (h13.begins.trans hend) rfl (t := s1) ?_ ?_
  · have htree : (State.start store).store.tree? table.root = some (.table rows) := htree
    simp only [execute, clearTree, htree, s1, Tree.cleared]
    rfl
  have hgood1 : σ.Lenient ∨ ∀ index ∈ options.indexes table, s1.store.tree? index.root ≠ none := by
    refine hgood.imp_right fun hthere index hin => ?_
    rw [Store.tree?_setTree_of_ne (hne index hin)]
    exact hthere index hin
  refine (emitClear_leads hclear h1.valid hend hgood1).mono ?_
  rintro pc s ⟨rfl, honly, hcleared⟩
  refine ⟨rfl, ?_, ⟨honly.nextRoot, fun root hroot => ?_⟩, fun index hindex _ hmirrors => ?_⟩
  · exact (honly.other _ hout).trans (Store.tree?_setTree_self ..)
  · obtain ⟨hne, hroot⟩ := not_or.mp (mt List.mem_cons.mpr hroot)
    exact (honly.other root hroot).trans (Store.tree?_setTree_of_ne hne)
  · obtain ⟨keys, hkeys, -⟩ := hmirrors
    refine ⟨[], hcleared _ (List.mem_map_of_mem hindex) keys
      ((Store.tree?_setTree_of_ne (hne index hindex)).trans hkeys), ?_⟩
    simp [Rows.entries_eq_map]

theorem emitTruncate_writes {env : Environment} {store' : Store} {execution : Execution}
    (h : (emitTruncate options table).Gives (Builder.fresh reuse) () final) (hcode : env.code = final.code)
    (hrun : Machine.run env store = (.ok execution, store')) (htree : store.tree? table.root = some (.table rows))
    (hout : table.root ∉ (options.indexes table).map (·.root)) :
    store.Written table (options.indexes table) (fun _ => True) rows [] store' := by
  have hfinishes := emitTruncate_leads (σ := .free final env hcode) h rfl (.inl inferInstance) htree hout
  obtain ⟨s, hwritten, -, rfl⟩ := hfinishes.of_run hrun
  exact hwritten

/-- The program of a DELETE. -/
theorem compile_gives {schema : Schema} {d : Deletion} {program : Program}
    (h : d.compile schema options = .ok program) : ∃ table filter final, schema.lookup d.table = .ok table ∧
      (Scope.single table 0).resolvePlain? d.filter = .ok filter ∧ (if d.clears options then emitTruncate options table
        else emitRows options table filter d.effectiveLimit?).Gives
          (Builder.fresh options.reuseTemps) () final ∧ program.code = final.code := by
  obtain ⟨table, hlookup, h⟩ := bind_eq_ok.mp h
  obtain ⟨filter, hfilter, h⟩ := bind_eq_ok.mp h
  obtain ⟨final, hgives, hcode⟩ := Emit.build_of_ok h
  exact ⟨table, filter, final, hlookup, hfilter, hgives, hcode⟩

theorem effectiveLimit?_nonneg {d : Deletion} {n : Int64} (h : d.effectiveLimit? = some n) : 0 ≤ n.toInt := by
  obtain ⟨_, hn⟩ := Option.filter_eq_some_iff.mp h
  exact of_decide_eq_true hn

end Deletion

end QueryMachine
