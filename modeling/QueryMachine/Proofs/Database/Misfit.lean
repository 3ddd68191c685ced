import QueryMachine.Proofs.Database.Update
import QueryMachine.Proofs.Machine.Footprint

/-!
# A table at the root of an index

A table whose root holds an index can be scanned, but nothing can be stored in it. Where the filter of an UPDATE
lets an entry pass the program fails; so a run without a fault has deleted and stored nothing, whatever the keys
are and in whatever order the scan meets them.

* `State.Seated` — a cursor is open on such a tree.
* `Emit.Idles` — code that leaves it there, unless it fails.
* `Change.emit_idles` — an UPDATE without a fault changes nothing.
-/

namespace QueryMachine

open Machine Emit

variable {σ : Setting} {b b' : Builder} {s s' : State} {c root : Int} {table : Table} {source : KeySource}

/-! ## The cursor -/

/-- A cursor is open on a tree that is an index. -/
structure Machine.State.Seated (s : State) (c root : Int) : Prop where
  cursor : ∃ position, s.cursors.get? c = some ⟨.stored root, position⟩
  tree : ∃ keys, s.store.tree? root = some (.index keys)

namespace Machine.State.Seated

theorem congr (h : s.Seated c root) (hcursor : s'.cursors.get? c = s.cursors.get? c)
    (hstore : s'.store = s.store) : s'.Seated c root :=
  ⟨hcursor ▸ h.cursor, hstore ▸ h.tree⟩

theorem quiet {R : Int → Prop} (h : s.Seated c root) (hq : Quiet R (fun _ => True) s s') : s'.Seated c root :=
  h.congr (hq.cursors c trivial) hq.store

theorem setPosition (h : s.Seated c root) (position : Option Position) : (s.setPosition c position).Seated c root := by
  obtain ⟨old, hc⟩ := h.cursor
  rw [setPosition_eq hc]
  exact ⟨⟨position, Slots.get?_set_self ..⟩, h.tree⟩

/-- The tree under any cursor may become another index. -/
theorem setTree (h : s.Seated c root) (d : Int) (keys : List (List Value)) :
    (s.setTree d (.index keys)).Seated c root := by
  unfold State.setTree
  split
  · rename_i root' _ _
    refine ⟨h.cursor, ?_⟩
    by_cases heq : root = root'
    · exact ⟨keys, heq ▸ Store.tree?_setTree_self ..⟩
    · obtain ⟨keys', hkeys'⟩ := h.tree
      exact ⟨keys', (Store.tree?_setTree_of_ne heq).trans hkeys'⟩
  · rename_i tree position hd
    obtain ⟨position', hc⟩ := h.cursor
    have hne : c ≠ d := by
      rintro rfl
      cases hc.symm.trans hd
    exact ⟨⟨position', (Slots.get?_set_of_ne _ _ hne).trans hc⟩, h.tree⟩
  · exact h

theorem tree_eq (h : s.Seated c root) (pc : Nat) (opener : Opcode) :
    ∃ keys, s.tree pc opener c = .ok (.index keys) := by
  obtain ⟨position, hc⟩ := h.cursor
  obtain ⟨keys, hkeys⟩ := h.tree
  exact ⟨keys, State.tree_eq hc hkeys pc opener⟩

end Machine.State.Seated

theorem Setting.Free.reads [σ.Free] (s : State) :
    ∃ read : Place → Value, ∀ p, s.Shows p (read p) ∨ s.Hides σ.Admits p := by
  have hplace : ∀ p, ∃ v, s.Shows p v ∨ s.Hides σ.Admits p := by
    intro p
    rcases s.shows_or_hides (A := σ.Admits) Setting.Free.admits p with ⟨v, hv⟩ | hhides
    · exact ⟨v, .inl hv⟩
    · exact ⟨.null, .inr hhides⟩
  exact Classical.axiomOfChoice hplace

/-! ## Straight code -/

/-- The instruction leaves the cursor where it is and goes on, unless it fails. -/
structure Instruction.Idles (i : Instruction) (c root : Int) : Prop where
  rows : i.opcode.changesRows = false
  next : ∀ {env pc s flow s'}, s.Seated c root → execute env pc i s = .ok (flow, s') →
    flow = .next ∧ s'.Seated c root

theorem Instruction.Idles.leads [σ.Free] {i : Instruction} (h : i.Idles c root) (hend : (b.emit i).Begins σ.final)
    (hs : s.Seated c root) : σ.Leads (fun pc s' => pc = (b.emit i).address ∧ s'.Seated c root) b.address s := by
  rcases hx : execute σ.env b.address i s with f | ⟨flow, s'⟩
  · exact .failed hend hx (Setting.Free.admits f)
  · obtain ⟨rfl, hs'⟩ := h.next hs hx
    exact .op hend h.rows hx (.here ⟨rfl, hs'⟩)

/-- The operations on registers and on the keys of indexes that the code of a row is made of. -/
def Opcode.isStraight : Opcode → Bool
  | .column | .rowid | .null | .shallowCopy | .makeRecord | .idxInsert | .idxDelete => true
  | _ => false

theorem Instruction.idles_of_straight {i : Instruction} (h : i.opcode.isStraight = true) : i.Idles c root := by
  refine ⟨?_, fun {env pc s flow s'} hs hx => ?_⟩
  · cases hcode : i.opcode <;> rw [hcode] at h <;> first | rfl | cases h
  · cases hcode : i.opcode with
    | column | rowid | shallowCopy | makeRecord =>
      simp only [execute, hcode, readField, readRowid, Machine.makeRecord] at hx
      repeat' split at hx
      all_goals cases hx
      all_goals exact ⟨rfl, hs.congr rfl rfl⟩
    | null =>
      simp only [execute, hcode] at hx
      cases hx
      obtain ⟨hstore, hcursors⟩ := setNulls_keeps i.p2 (max i.p3 i.p2 - i.p2 + 1).toNat s
      exact ⟨rfl, hs.congr (congrArg (·.get? c) hcursors) hstore⟩
    | idxInsert | idxDelete =>
      simp only [execute, hcode, changeKeys] at hx
      repeat' split at hx
      all_goals cases hx
      exact ⟨rfl, hs.setTree _ _⟩
    | _ =>
      rw [hcode] at h
      cases h

/-- The code of a step leaves the cursor where it is, unless it fails. -/
structure Emit.Idles {α : Type} (σ : Setting) (c root : Int) (m : Emit α) : Prop where
  begins : ∀ {b a b'}, m.Gives b a b' → b.Begins b'
  leads : ∀ {b a b' s}, m.Gives b a b' → b'.Begins σ.final → s.Seated c root →
    σ.Leads (fun pc s' => pc = b'.address ∧ s'.Seated c root) b.address s

namespace Emit.Idles

variable {α β : Type} {m : Emit α} {f : α → Emit β}

theorem bind (h : m.Idles σ c root) (hf : ∀ a, (f a).Idles σ c root) : (m >>= f).Idles σ c root := by
  refine ⟨fun hgives => ?_, fun hgives hend hs => ?_⟩
  · obtain ⟨a, b1, hm, hrest⟩ := gives_bind.mp hgives
    exact (h.begins hm).trans ((hf a).begins hrest)
  · obtain ⟨a, b1, hm, hrest⟩ := gives_bind.mp hgives
    refine (h.leads hm (((hf a).begins hrest).trans hend) hs).bind ?_
    rintro pc s' ⟨rfl, hs'⟩
    exact (hf a).leads hrest hend hs'

theorem pure (a : α) : (pure a : Emit α).Idles σ c root := by
  refine ⟨fun hgives => ?_, fun hgives _ hs => ?_⟩
  · obtain ⟨-, rfl⟩ := gives_pure.mp hgives
    exact .refl _
  · obtain ⟨-, rfl⟩ := gives_pure.mp hgives
    exact .here ⟨rfl, hs⟩

theorem throw (e : Error) : (throw e : Emit α).Idles σ c root :=
  ⟨fun hgives => (gives_throw hgives).elim, fun hgives => (gives_throw hgives).elim⟩

theorem registers (count : Int) : (registers count).Idles σ c root := by
  refine ⟨fun hgives => ?_, fun hgives _ hs => ?_⟩
  · rw [(gives_modifyGet.mp hgives).2]
    exact ⟨List.prefix_refl _, fun _ _ h => h, Nat.le_refl _⟩
  · rw [(gives_modifyGet.mp hgives).2]
    exact .here ⟨rfl, hs⟩

theorem opWith [σ.Free] {o : Opcode} {p1 p2 p3 : Int} {payload : Payload} (h : o.isStraight = true) :
    (opWith o p1 p2 p3 payload).Idles σ c root := by
  refine ⟨fun hgives => ?_, fun hgives hend hs => ?_⟩
  · obtain rfl := gives_opWith.mp hgives
    exact .emit ..
  · obtain rfl := gives_opWith.mp hgives
    exact (Instruction.idles_of_straight h).leads hend hs

theorem op [σ.Free] {o : Opcode} {p1 p2 p3 : Int} (h : o.isStraight = true) : (op o p1 p2 p3).Idles σ c root :=
  opWith h

end Emit.Idles

theorem emitKey_idles [σ.Free] (columns : List String) : (emitKey table columns source).Idles σ c root := by
  have hrowid : ∀ target, (source.emitRowid target).Idles σ c root := by
    intro target
    cases source <;> exact .op rfl
  have hcolumns : ∀ names target, (emitKeyColumns table source names target).Idles σ c root := by
    intro names
    induction names with
    | nil => exact fun _ => .pure _
    | cons name names ih =>
      intro target
      unfold emitKeyColumns
      split
      · exact .bind (.throw _) fun _ => ih _
      · dsimp only
        split
        · exact .bind (hrowid target) fun _ => ih _
        · refine .bind ?_ fun _ => ih _
          cases source <;> exact .op rfl
  refine .bind (.registers _) fun base => .bind (hcolumns columns base) fun _ => ?_
  refine .bind (hrowid _) fun _ => .bind (.registers 1) fun record => ?_
  exact .bind (.op rfl) fun _ => .pure _

theorem emitKeys_idles [σ.Free] {o : Opcode} (ho : o.isStraight = true) (opened : List OpenIndex) :
    (emitKeys o table source opened).Idles σ c root := by
  induction opened with
  | nil => exact .pure _
  | cons index rest ih => exact .bind (emitKey_idles _) fun _ => .bind (.opWith ho) fun _ => ih

theorem Change.emitOld_idles [σ.Free] (cursor : Int) (columns : List Column) (index : Nat) (target : Int) :
    (emitOld cursor columns index target).Idles σ c root := by
  induction columns generalizing index target with
  | nil => exact .pure _
  | cons column columns ih =>
    unfold emitOld
    split <;> exact .bind (.op rfl) fun _ => ih _ _

namespace Change

/-! ## The loop -/

variable {r : Resolution} {rowid base record : Int} {opened : List OpenIndex} {next top done : Label}
  {b0 b1 b2 b3 b4 : Builder}

/-- A deletion leaves an index, and nothing can be stored in one. -/
theorem delete_stops [σ.Free] {p2 p3 : Int} {payload payload' : Payload}
    (hend : ((b.emit ⟨.delete, c, 0, 0, payload, 0⟩).emit ⟨.insert, c, p2, p3, payload', 0⟩).Begins σ.final)
    (hs : s.Seated c root) : σ.Leads (fun _ _ => False) b.address s := by
  rcases hx : execute σ.env b.address ⟨.delete, c, 0, 0, payload, 0⟩ s with f | ⟨flow, s1⟩
  · exact .failed ((Builder.Begins.emit ..).trans hend) hx (Setting.Free.admits f)
  · obtain ⟨rfl, hs1⟩ : flow = .next ∧ s1.Seated c root := by
      obtain ⟨keys, hkeys⟩ := hs.tree_eq b.address .openWrite
      obtain ⟨position, hc⟩ := hs.cursor
      simp only [execute, deleteRow, State.cursor, hc, hkeys] at hx
      rcases position with _ | (id | key)
      · cases hx
      · cases hx
      · cases hx
        exact ⟨rfl, hs.setTree _ _⟩
    refine .permitted ((Builder.Begins.emit ..).trans hend) (Setting.Free.permits _ _) hx ?_
    rcases hx' : execute σ.env (b.emit ⟨.delete, c, 0, 0, payload, 0⟩).address
      ⟨.insert, c, p2, p3, payload', 0⟩ s1 with f | ⟨flow, s2⟩
    · exact .failed hend hx' (Setting.Free.admits f)
    · obtain ⟨keys, hkeys⟩ := hs1.tree_eq (b.emit ⟨.delete, c, 0, 0, payload, 0⟩).address .openWrite
      simp only [execute, insertRow, hkeys] at hx'
      split at hx' <;> cases hx'

/-- What passes the filter cannot be stored. -/
theorem Round.stops [σ.Free] (h : Round r c rowid base record opened next b b1 b2 b3 b4 b')
    (hb : b1.Valid) (hend : b'.Begins σ.final) (hregisters : RowRegisters b1 r.table rowid base record)
    (hin : ∀ a ∈ r.assignments, a.1 < r.table.columns.length) (hs : s.Seated c root) :
    σ.Leads (fun _ _ => False) b1.address s := by
  have h2 := h.old.grows hb
  have h3 := h.new.grows h2.valid
  have h4 := h.out.grows h3.valid
  have h6 := ((h4.emit ⟨.makeRecord, base, r.table.columns.length, record, .affinity r.table.affinityCodes,
    0⟩).emit ⟨.delete, c, 0, 0, .table r.table.name, 0⟩).emit ⟨.insert, c, record, rowid, .table r.table.name, 0⟩
  have hend6 := (h.into.grows h6.valid).begins.trans hend
  have hend4 := (Builder.Begins.emit ..).trans ((Builder.Begins.emit ..).trans hend6)
  have hend3 := h4.begins.trans ((Builder.Begins.emit ..).trans hend4)
  refine ((emitOld_idles ..).leads h.old (h3.begins.trans hend3) hs).bind ?_
  rintro pc s1 ⟨rfl, hs1⟩
  obtain ⟨read, hread⟩ := Setting.Free.reads (σ := σ) s1
  refine (emitNew_leads h.new h2.valid (h2.holdsBlock hregisters.block_held) hend3 hin hread).bind ?_
  rintro pc s2 ⟨rfl, -, hq2⟩
  refine ((emitKeys_idles rfl opened).leads h.out ((Builder.Begins.emit ..).trans hend4) (hs1.quiet hq2)).bind ?_
  rintro pc s3 ⟨rfl, hs3⟩
  refine ((Instruction.idles_of_straight (by rfl)).leads hend4 hs3).bind ?_
  rintro pc s4 ⟨rfl, hs4⟩
  exact delete_stops hend6 hs4

/-- A round goes on where the filter lets nothing pass. -/
theorem Round.idles [σ.Free] (h : Round r c rowid base record opened next b b1 b2 b3 b4 b') (hb : b.Valid)
    (hend : b'.Begins σ.final) (hskip : next < b.labels.size) (hat : σ.At next b'.address)
    (hregisters : RowRegisters b r.table rowid base record)
    (hin : ∀ a ∈ r.assignments, a.1 < r.table.columns.length) (hs : s.Seated c root) :
    σ.Performs [] (fun pc s' => pc = b'.address ∧ s'.Seated c root ∧ s'.store = s.store) b.address s := by
  have h0 := (Builder.Grows.refl hb).emit (.plain .rowid c rowid 0)
  have h01 := h.filter.grows h0.valid
  have h1 := h0.trans h01
  have hend1 := (h.rest_grows h1.valid).begins.trans hend
  have hrowid : σ.still.Leads (fun pc s' => pc = (b.emit (.plain .rowid c rowid 0)).address ∧
      s'.Seated c root ∧ s'.store = s.store) b.address s := by
    rcases hx : execute σ.env b.address (.plain .rowid c rowid 0) s with f | ⟨flow, s1⟩
    · exact .failed (σ := σ.still) (h01.begins.trans hend1) hx (Setting.Free.admits (σ := σ) f)
    · obtain ⟨rfl, hs1⟩ := (Instruction.idles_of_straight (i := .plain .rowid c rowid 0) rfl).next hs hx
      exact .op (σ := σ.still) (h01.begins.trans hend1) rfl hx (.here ⟨rfl, hs1, (execute_keeps hx rfl).1⟩)
  refine hrowid.performs ?_
  rintro pc s1 ⟨rfl, hs1, hstore1⟩
  obtain ⟨read, hread⟩ := Setting.Free.reads (σ := σ) s1
  refine (emitFilter_leads_of_reads (σ := σ.still) h.filter h0.valid hend1 hskip hat
    fun _ _ p _ => hread p).performs ?_
  rintro pc s2 ⟨hq2, hcase⟩
  have hs2 := hs1.quiet hq2
  split at hcase
  · rw [hcase]
    exact .stops (h.stops h1.valid hend (hregisters.grows h1) hin hs2)
  · exact .here ⟨hcase, hs2, hq2.store.trans hstore1⟩

/-- Going to the first entry or to the next one keeps the cursor on the index, whichever way the program goes. -/
theorem move_steps {o : Opcode} {l : Label} {a : Nat} (ho : o = .rewind ∨ o = .next)
    (hend : (b.emitJump o c 0 l .empty 0).Begins σ.final) (hl : l < b.labels.size) (hat : σ.At l a)
    (hs : s.Seated c root) : ∃ i pc s', σ.env.code[b.address]? = some i ∧ i.opcode = o ∧
      step σ.env b.address i s = .ok (some pc, s') ∧ (pc = a ∨ pc = (b.emitJump o c 0 l .empty 0).address) ∧
      s'.Seated c root ∧ s'.store = s.store := by
  obtain ⟨keys, hkeys⟩ := hs.tree_eq b.address .openRead
  obtain ⟨position, hc⟩ := hs.cursor
  obtain ⟨condition, position', hx⟩ : ∃ condition position', execute σ.env b.address
      ⟨o, c, a, 0, .empty, 0⟩ s = .ok (jumpIf condition a (s.setPosition c position')) := by
    rcases ho with rfl | rfl
    · simp only [execute, moveToEnd, hkeys]
      exact ⟨_, _, rfl⟩
    · simp only [execute, moveOn, State.cursor, hc, hkeys]
      exact ⟨_, _, rfl⟩
  have hcode : σ.env.code[b.address]? = some ⟨o, c, a, 0, .empty, 0⟩ := by
    rw [σ.code_eq]
    exact Builder.code_of_jump hend hl hat.1
  have hfollow : ∃ pc, follow σ.env b.address (jumpIf condition a (s.setPosition c position')).1 = .ok (some pc) ∧
      (pc = a ∨ pc = (b.emitJump o c 0 l .empty 0).address) := by
    have hin := hat.2
    cases condition with
    | true =>
      refine ⟨a, ?_, .inl rfl⟩
      simp only [jumpIf, if_true, follow]
      rw [if_pos (by omega), Int.toNat_natCast]
    | false => exact ⟨_, rfl, .inr (Builder.address_emitJump ..).symm⟩
  obtain ⟨pc, hflow, hpc⟩ := hfollow
  refine ⟨_, pc, s.setPosition c position', hcode, rfl, ?_, hpc, hs.setPosition _, State.store_setPosition ..⟩
  simp only [step, hx, hflow]
  rfl

section Loop

variable [σ.Free] (h : Loop σ r c rowid base record opened next top done b0 b b1 b2 b3 b4 b')
  (hin : ∀ a ∈ r.assignments, a.1 < r.table.columns.length)

include h hin

theorem Loop.idles {pc : Nat}
    (hpc : pc = b.address ∨ pc = ((b'.bindHere next).emitJump .next c 0 top .empty 0).address) (hs : s.Seated c root) :
    σ.Performs [] (fun pc s' => (pc = (b'.bindHere next).address ∧ s'.Seated c root ∧ s'.store = s.store) ∨
      pc = ((b'.bindHere next).emitJump .next c 0 top .empty 0).address ∧ s'.store = s.store) pc s := by
  rcases hpc with rfl | rfl
  · exact (h.round.idles h.valid h.inside h.next_lt h.at_next h.registers hin hs).mono fun _ _ => .inl
  · exact .here (.inr ⟨rfl, rfl⟩)

/-- The loop ends without having changed anything, if it ends without a fault. -/
theorem Loop.rest_of_run (hs : s.Seated c root) {fuel : Nat} {trace : Array Opcode} {e : Execution} {store : Store}
    (hrun : runFrom σ.env fuel b0.address s trace = (.ok e, store)) : ∃ s' fuel' trace', s'.store = s.store ∧
      runFrom σ.env fuel' ((b'.bindHere next).emitJump .next c 0 top .empty 0).address s' trace' = (.ok e, store) ∧
      trace'.toList.filter Opcode.changesRows = trace.toList.filter Opcode.changesRows := by
  obtain ⟨i, pc, s1, hi, hrewind, hstep, hpc, hs1, hstore1⟩ :=
    move_steps (.inl rfl) h.rewinds h.done_lt h.at_done hs
  have hfirst := h.idles hin (by rw [← h.head]; exact hpc.symm) hs1
  rw [hstore1] at hfirst
  have hstart := Machine.Performs.step (R := Opcode.changesRows) hi (Setting.Free.permits i s) hstep hfirst
  obtain ⟨pc2, s2, fuel2, trace2, hends, hrest, htrace, -⟩ := hstart.rest_of_run hrun
  have htrace : trace2.toList.filter Opcode.changesRows = trace.toList.filter Opcode.changesRows := by
    simpa [hrewind, Opcode.changesRows] using htrace
  rcases hends with hJ | ⟨rfl, hstore2⟩
  · have hloop := Machine.Performs.rest_of_loop (A := σ.Admits) (P := σ.Permits) (R := Opcode.changesRows)
      (J := fun pc s' => pc = (b'.bindHere next).address ∧ s'.Seated c root ∧ s'.store = s.store)
      (Q := fun pc s' => pc = ((b'.bindHere next).emitJump .next c 0 top .empty 0).address ∧ s'.store = s.store)
      ?_ hJ hrest
    · obtain ⟨_, s3, fuel3, trace3, ⟨rfl, hstore3⟩, hrest3, htrace3⟩ := hloop
      exact ⟨s3, fuel3, trace3, hstore3, hrest3, htrace3.trans htrace⟩
    · rintro pc s' ⟨rfl, hs', hstore'⟩
      obtain ⟨i, pc, s'', hi, hnext, hstep, hpc, hs'', hstore''⟩ :=
        move_steps (.inr rfl) h.ends h.top_lt h.at_top hs'
      refine ⟨i, hi, by rw [hnext]; rfl, fun _ _ hstep' => ?_⟩
      cases hstep.symm.trans hstep'
      have hround := h.idles hin hpc hs''
      rw [hstore'', hstore'] at hround
      exact ⟨pc, rfl, hround⟩
  · exact ⟨s2, fuel2, trace2, hstore2, hrest, htrace⟩

end Loop

/-- **An UPDATE of such a table changes nothing**, if it ends without a fault. -/
theorem emit_idles {options : Options} {reuse : Bool} {final : Builder} {env : Environment} {store store' : Store}
    {execution : Execution} {keys : List (List Value)} (h : (emit options r).Gives (Builder.fresh reuse) () final)
    (hcode : env.code = final.code) (hrun : Machine.run env store = (.ok execution, store'))
    (hin : ∀ a ∈ r.assignments, a.1 < r.table.columns.length) (htree : store.tree? r.table.root = some (.index keys)) :
    execution.trace.toList.filter Opcode.changesRows = [] ∧ store' = store := by
  obtain ⟨c, rowid, base, record, opened, next, top, done, b0, b, b1, b2, b3, b4, b', last, hloop, -, hhalt,
    hopens, hcloses⟩ := emit_parts (σ := .free final env hcode) h rfl
  have hstill : ∀ (i : Instruction) (s : State), i.opcode.changesRows = false → True ∧ i.opcode.changesRows = false :=
    fun _ _ hother => ⟨trivial, hother⟩
  obtain ⟨pc, s1, fuel1, trace1, ⟨rfl, hc, -, -, -, hstore⟩, hrun1, htrace1, -⟩ :=
    (Machine.Performs.of_leads (hopens store _ htree) hstill).rest_of_run hrun
  obtain ⟨s2, fuel2, trace2, hstore2, hrun2, htrace2⟩ :=
    hloop.rest_of_run hin ⟨⟨none, hc⟩, keys, by rw [hstore]; exact htree⟩ hrun1
  obtain ⟨pc, s3, fuel3, trace3, ⟨rfl, hstore3⟩, hrun3, htrace3, -⟩ :=
    (Machine.Performs.of_leads (hcloses s2) hstill).rest_of_run hrun2
  obtain ⟨-, rfl, htrace⟩ := runFrom_halt hhalt rfl hrun3
  refine ⟨?_, by rw [hstore3, hstore2, hstore]⟩
  rw [htrace, Array.toList_push, List.filter_append, htrace3, htrace2, htrace1]
  rfl

end Change

end QueryMachine
