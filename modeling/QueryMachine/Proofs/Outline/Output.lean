import QueryMachine.Proofs.Compile.Delivery
import QueryMachine.Proofs.Outline.Scan

/-!
# Outlines of the way of a row

Records are made in registers, looked up in an index of duplicates, put into sorters, and stored in
trees that belong to a cursor. The code on the way of a row keeps what is known, as long as its own
registers are free and its own cursors are open.

* `IsRecord`, `Contract.Fair` — what is known of a record, and when making one cannot go wrong.
* `Output.Ready` — registers and cursors of an output are in place.
* `Output.emitRow_outlines`, `Output.emitDrain_outlines` — the two ways of a row.
-/

namespace QueryMachine

open Machine Emit

variable {κ : Contract} {O : Outline} {b b' : Builder} {F F' G H : Facts} {c k r : Int} {l : Label} {t : Sorter}
  {done : Label} {n : Counters}

/-! ## Records -/

/-- A record, as it is made of values. -/
def IsRecord (v : Value) : Prop :=
  ∃ bytes values, v = .blob bytes ∧ Record.decode bytes = .ok values ∧ values ≠ []

/-- That `count` values make no record is a fault that is admitted. -/
def Contract.Encodes (κ : Contract) (count : Int) : Prop :=
  ∀ values : List Value, values.length = count.toNat → ∀ e, Record.encode values = .error e →
    κ.Admits (.rejected e)

/-- A fault that cannot be avoided is admitted: a record that is too long. -/
structure Contract.Fair (κ : Contract) : Prop where
  encodes : ∀ count, 0 < count → κ.Encodes count

/-- That a value is no integer is a fault that is admitted. -/
def Contract.Counts (κ : Contract) : Prop := ∀ className, κ.Admits (.typeMismatch className)

theorem Machine.State.length_getBlock (s : State) (first count : Int) :
    (s.getBlock first count).length = count.toNat := by
  simp [State.getBlock]

/-- Making a record fails, or it writes one. -/
theorem makeRecord_cases (i : Instruction) (s : State) :
    (∃ values e, values.length = i.p2.toNat ∧ Record.encode values = .error e ∧ makeRecord i s = .error (.rejected e)) ∨
    ∃ values bytes, Record.encode values = .ok bytes ∧ makeRecord i s = .ok (.next, s.set i.p3 (.blob bytes)) := by
  unfold makeRecord
  extract_lets codes
  cases hencode : Record.encode (applyAffinities codes (s.getBlock i.p1 i.p2)) with
  | error e =>
    refine .inl ⟨_, e, ?_, hencode, rfl⟩
    rw [Table.length_applyAffinities, State.length_getBlock]
  | ok bytes => exact .inr ⟨_, bytes, hencode, rfl⟩

theorem IsRecord.getFields {v : Value} {s : State} (h : IsRecord v) (hget : s.get r = v) :
    ∃ values, values ≠ [] ∧ ∀ pc opcode, s.getFields pc opcode r = .ok values := by
  obtain ⟨bytes, values, rfl, hdecode, hne⟩ := h
  exact ⟨values, hne, fun pc opcode => getFields_of_get hget hdecode pc opcode⟩

/-! ## Trees of a cursor's own -/

/-- An index of the cursor's own, without empty keys. -/
def OwnIndex (backing : Backing) (tree : Tree) : Prop :=
  backing = .transient tree ∧ ∃ keys, tree = .index keys ∧ [] ∉ keys

/-- A table of the cursor's own, in which every record can be decoded. -/
def OwnTable (backing : Backing) (tree : Tree) : Prop :=
  backing = .transient tree ∧ ∃ rows, tree = .table rows ∧
    ∀ row ∈ rows, ∃ values, Record.decode row.2 = .ok values

theorem Contract.decodes_ownTable (κ : Contract) : κ.Decodes OwnTable := by
  rintro backing rows ⟨-, rows', heq, hrows⟩ row hrow e he
  cases heq
  obtain ⟨values, hvalues⟩ := hrows row hrow
  rw [hvalues] at he
  cases he

theorem Contract.numbers_ownTable (κ : Contract) : κ.Numbers OwnTable := by
  rintro backing keys ⟨-, rows, heq, -⟩
  cases heq

theorem Contract.decodes_ownIndex (κ : Contract) : κ.Decodes OwnIndex := by
  rintro backing rows ⟨-, keys, heq, -⟩
  cases heq

theorem Contract.numbers_ownIndex (κ : Contract) : κ.Numbers OwnIndex := by
  rintro backing keys ⟨-, keys', heq, hne⟩ hin
  cases heq
  exact absurd hin hne

namespace Contract.Outlines

/-! ## Instructions on records -/

/-- A record is made. -/
theorem makeRecord (ho : κ.Outlines O b F) {first count : Int} {payload : Payload} (hr : b.Holds r)
    (hcount : κ.Encodes count) :
    κ.Reaches O b (b.emit ⟨.makeRecord, first, count, r, payload, 0⟩) (F.note r IsRecord) := by
  refine ho.op (ho.within.note hr _) ho.keeps_here fun s hs => ?_
  have hexecute : execute κ.env b.address ⟨.makeRecord, first, count, r, payload, 0⟩ s =
      Machine.makeRecord ⟨.makeRecord, first, count, r, payload, 0⟩ s := rfl
  rw [hexecute]
  rcases makeRecord_cases ⟨.makeRecord, first, count, r, payload, 0⟩ s with
    ⟨values, e, hlength, hencode, heq⟩ | ⟨values, bytes, hencode, heq⟩
  · rw [heq]
    exact hcount values hlength e hencode
  · rw [heq]
    exact hs.note ho.within ⟨bytes, values, rfl, Record.decode_encode hencode, (Record.encode_ok hencode).1⟩

theorem found (ho : κ.Outlines O b F) {K : Backing → Tree → Prop} (hk : F.cursor k = Use.on K)
    (hr : ∀ v, F.register r v → IsRecord v) (hl : O.Marks b l G) (hG : F.Entails G) :
    κ.Reaches O b (b.emitJump .found k r l .empty 0) F := by
  refine ho.branches hl hG fun s hs t => ?_
  obtain ⟨values, -, hfields⟩ := (hr _ (hs.register r)).getFields rfl
  obtain ⟨backing, position, tree, hget, htree, -⟩ := hs.used hk
  simp only [execute, probe, hfields, State.tree_eq hget htree]
  exact jumpIf_leaves

/-- A key is added to an index of the cursor's own. -/
theorem addOwn (ho : κ.Outlines O b F) (hk : F.cursor k = Use.on OwnIndex) (hr : ∀ v, F.register r v → IsRecord v) :
    κ.Reaches O b (b.emit (.plain .idxInsert k r 0)) F := by
  refine ho.op ho.within ho.keeps_here fun s hs => ?_
  obtain ⟨values, hne, hfields⟩ := (hr _ (hs.register r)).getFields rfl
  obtain ⟨backing, position, tree, hget, htree, rfl, keys, rfl, hkeys⟩ := hs.used hk
  simp only [execute, Instruction.plain, changeKeys, hfields, State.tree_eq hget htree, State.setTree,
    hget]
  refine hs.sameCursor ?_
  rw [hk]
  refine ⟨_, _, _, rfl, rfl, rfl, _, rfl, fun hin => ?_⟩
  exact (Keys.mem_of_mem_add hin).elim (fun heq => hne heq.symm) hkeys

/-- A record is stored in a table of the cursor's own. -/
theorem insertOwn (ho : κ.Outlines O b F) {id : Int} (hk : F.cursor k = Use.on OwnTable)
    (hr : ∀ v, F.register r v → IsRecord v) : κ.Reaches O b (b.emit (.plain .insert k r id)) F := by
  refine ho.op ho.within ho.keeps_here fun s hs => ?_
  obtain ⟨bytes, values, hbytes, hdecode, -⟩ := hr _ (hs.register r)
  obtain ⟨backing, position, tree, hget, htree, rfl, rows, rfl, hrows⟩ := hs.used hk
  simp only [execute, Instruction.plain, insertRow, getRecord_of_get hbytes, State.tree_eq hget htree,
    State.setTree, hget, State.setPosition, Slots.get?_set_self]
  have hown : ∀ position, F.cursor k s.store (some
      ⟨.transient (.table (Rows.put (s.get id).toInt64 bytes rows)), position⟩) := by
    intro position
    rw [hk]
    refine ⟨_, _, _, rfl, rfl, rfl, _, rfl, fun row hin => ?_⟩
    rcases Rows.mem_of_mem_put hin with rfl | hin
    · exact ⟨values, hdecode⟩
    · exact hrows row hin
  exact (hs.sameCursor (hown _)).sameCursor (hown _)

theorem newRowid (ho : κ.Outlines O b F) {K : Backing → Tree → Prop} (hk : F.cursor k = Use.on K)
    (hr : F.Free r) : κ.Reaches O b (b.emit (.plain .newRowid k r 0)) F := by
  refine ho.writes hr fun s hs => ?_
  obtain ⟨backing, position, tree, hget, htree, -⟩ := hs.used hk
  simp only [execute, Instruction.plain, Machine.newRowid, State.tree_eq hget htree]
  exact ⟨_, rfl⟩

end Contract.Outlines

/-! ## Destinations -/

/-- The cursor of a destination. -/
def Destination.cursors : Destination → List Int
  | .table k | .set k => [k]
  | _ => []

/-- The destination is open. -/
def Destination.Fits (d : Destination) (F : Facts) : Prop :=
  match d with
  | .output => True
  | .table k => F.cursor k = Use.on OwnTable
  | .set k => F.cursor k = Use.on OwnIndex
  | .registers _ | .coroutine _ _ => False

theorem Destination.Fits.congr {d : Destination} (h : d.Fits F)
    (hcursors : ∀ k ∈ d.cursors, F'.cursor k = F.cursor k) : d.Fits F' := by
  cases d with
  | output => trivial
  | table k | set k => exact (hcursors k List.mem_cons_self).trans h
  | registers | coroutine => exact h

theorem Destination.emit_outlines {d : Destination} {result width : Int} (h : (d.emit result width).Gives b () b')
    (ho : κ.Outlines O b F) (hd : d.Fits F) (hwidth : κ.Encodes width) : κ.Reaches O b b' F := by
  cases d with
  | output =>
    obtain rfl := gives_op.mp h
    exact ho.op ho.within ho.keeps_here fun s hs => ⟨hs.store, hs.cursor, hs.register⟩
  | table k =>
    simp only [Destination.emit, gives_bind, gives_op, gives_giveBack] at h
    obtain ⟨record, b1, hrecord, rowid, b2, hrowid, _, b3, rfl, _, b4, rfl, _, b5, rfl, _, b6, rfl, rfl⟩ :=
      h
    have hrecord := takes_temp hrecord ho.valid
    have hfree : F.Free record := ho.within record (hrecord.new rfl)
    have ho1 := ho.takes hrecord
    have hrowid := takes_temp hrowid ho1.valid
    have hfree' : F.Free rowid := ho1.within rowid (hrowid.new rfl)
    have hne : rowid ≠ record := fun heq => hrowid.new rfl (heq ▸ hrecord.held rfl)
    have hmake : κ.Reaches O b2 (((b2.emit (.plain .makeRecord result width record)).emit
        (.plain .newRowid k rowid 0)).emit (.plain .insert k record rowid)) F := by
      refine .weaken ?_ (Facts.note_entails hfree IsRecord) (ho1.takes hrowid).within ho.keeps_here
      exact ((ho1.takes hrowid).makeRecord (hrowid.grows.holds _ (hrecord.held rfl)) hwidth).bind
        fun O3 _ ho3 => (ho3.newRowid hd (hfree'.note hne _)).bind fun O4 _ ho4 =>
          ho4.insertOwn hd F.of_note
    exact (hmake.borrowing hrowid hfree').borrowing hrecord hfree
  | set k =>
    simp only [Destination.emit, gives_bind, gives_op, gives_giveBack] at h
    obtain ⟨record, b1, hrecord, _, b2, rfl, _, b3, rfl, rfl⟩ := h
    have hrecord := takes_temp hrecord ho.valid
    have hfree : F.Free record := ho.within record (hrecord.new rfl)
    have ho1 := ho.takes hrecord
    have hmake : κ.Reaches O b1 ((b1.emit (.plain .makeRecord result width record)).emit
        (.plain .idxInsert k record 0)) F :=
      .weaken ((ho1.makeRecord (hrecord.held rfl) hwidth).bind fun O2 _ ho2 => ho2.addOwn hd F.of_note)
        (Facts.note_entails hfree _) ho1.within ho.keeps_here
    exact hmake.borrowing hrecord hfree
  | registers base => exact hd.elim
  | coroutine yieldRegister base => exact hd.elim

/-! ## Sorters -/

/-- The cursor is a sorter. -/
def Use.sorter : Store → Option Cursor → Prop := fun _ cursor =>
  ∃ t position, cursor = some ⟨.sorter t, position⟩

/-- The cursor is a sorter at one of its rows. -/
def Use.sorted : Store → Option Cursor → Prop := fun _ cursor =>
  ∃ t position, cursor = some ⟨.sorter t, position⟩ ∧ t.current?.isSome

theorem Use.sorter_of_sorted {st : Store} {cursor : Option Cursor} (h : sorted st cursor) : sorter st cursor := by
  obtain ⟨t, position, rfl, -⟩ := h
  exact ⟨t, position, rfl⟩

theorem Use.on_ne_sorter (K : Backing → Tree → Prop) : on K ≠ sorter := by
  intro heq
  have hsorter : sorter default (some ⟨.sorter (.empty 0 []), none⟩) := ⟨_, _, rfl⟩
  rw [← heq] at hsorter
  obtain ⟨backing, position, tree, hcursor, htree, -⟩ := hsorter
  cases hcursor
  cases htree

theorem Sorter.current_sort (h : t.sort.position.isSome) : t.sort.current?.isSome := by
  unfold Sorter.current? Sorter.sort at *
  dsimp only at *
  split at h
  · cases h
  · rename_i hne
    rw [if_neg hne, Option.bind_some, List.getElem?_toArray, List.getElem?_eq_getElem]
    · rfl
    · exact List.length_pos_iff.mpr (by simpa using hne)

theorem Sorter.current_next (h : t.next.position.isSome) : t.next.current?.isSome := by
  obtain ⟨p, hp⟩ := Option.isSome_iff_exists.mp h
  have hlt : p < t.rows.size := by
    obtain ⟨-, hlt⟩ := Option.filter_eq_some_iff.mp hp
    exact of_decide_eq_true hlt
  rw [Sorter.current?, hp, Option.bind_some]
  show (t.rows[p]?).isSome
  rw [Array.getElem?_eq_getElem hlt]
  rfl

theorem State.sorter_eq {s : State} {position : Option Position} (h : s.cursors.get? k = some ⟨.sorter t, position⟩)
    (pc : Nat) (opcode : Opcode) : s.sorter pc opcode k = .ok t := by
  simp only [State.sorter, State.cursor, h]

namespace Contract.Outlines

section

variable (ho : κ.Outlines O b F) (hk : F.cursor k = Use.sorter)

include ho hk

/-- A record is put into a sorter. -/
theorem sorterInsert (hr : ∀ v, F.register r v → IsRecord v) :
    κ.Reaches O b (b.emit (.plain .sorterInsert k r 0)) F := by
  refine ho.op ho.within ho.keeps_here fun s hs => ?_
  obtain ⟨bytes, values, hbytes, hdecode, -⟩ := hr _ (hs.register r)
  obtain ⟨t, position, hget⟩ := hs.used hk
  simp only [execute, Instruction.plain, Machine.sorterInsert, getRecord_of_get hbytes, hdecode,
    State.sorter_eq hget, State.setSorter]
  refine hs.sameCursor ?_
  rw [hk]
  exact ⟨_, _, rfl⟩

/-- A sorter is sorted, and stands at its first row if there is one. -/
theorem sorterSort (hl : O.Marks b l G) (hG : F.Entails G) :
    κ.Reaches O b (b.emitJump .sorterSort k 0 l .empty 0) (F.put k Use.sorted) := by
  refine ho.jump hl (ho.within.put k _) ho.keeps_here fun s hs t => ?_
  obtain ⟨sorter, position, hget⟩ := hs.used hk
  simp only [execute, Machine.sorterSort, State.sorter_eq hget, State.setSorter, jumpIf]
  cases hposition : sorter.sort.position with
  | none =>
    refine ⟨rfl, hG _ (hs.sameCursor ?_)⟩
    rw [hk]
    exact ⟨_, _, rfl⟩
  | some p => exact hs.setCursor ⟨_, _, rfl, Sorter.current_sort (by rw [hposition]; rfl)⟩

/-- A sorter goes to its next row, if there is one. -/
theorem sorterNext (hl : O.Marks b l (F.put k Use.sorted)) :
    κ.Reaches O b (b.emitJump .sorterNext k 0 l .empty 0) F := by
  refine ho.jump hl ho.within ho.keeps_here fun s hs t => ?_
  obtain ⟨sorter, position, hget⟩ := hs.used hk
  simp only [execute, Machine.sorterNext, State.sorter_eq hget, State.setSorter, jumpIf]
  cases hposition : sorter.next.position with
  | none =>
    refine hs.sameCursor ?_
    rw [hk]
    exact ⟨_, _, rfl⟩
  | some p => exact ⟨rfl, hs.setCursor ⟨_, _, rfl, Sorter.current_next (by rw [hposition]; rfl)⟩⟩

end

theorem sorterData (ho : κ.Outlines O b F) (hk : F.cursor k = Use.sorted) (hr : F.Free r) :
    κ.Reaches O b (b.emit (.plain .sorterData k r 0)) F := by
  refine ho.writes hr fun s hs => ?_
  obtain ⟨sorter, position, hget, hrow⟩ := hs.used hk
  obtain ⟨row, hrow⟩ := Option.isSome_iff_exists.mp hrow
  simp only [execute, Instruction.plain, Machine.sorterData, State.sorter_eq hget, hrow]
  exact ⟨_, rfl⟩

end Contract.Outlines

theorem Output.emitFields_outlines {count : Nat} {field target : Int} :
    (Output.emitFields k count field target).Gives b () b' → κ.Outlines O b F →
    F.cursor k = Use.sorted → (∀ r, target ≤ r → r < target + count → F.Free r) → κ.Reaches O b b' F := by
  induction count generalizing b O field target with
  | zero => exact fun h ho _ _ => ho.pure h
  | succ count ih =>
    intro h ho hk hfree
    simp only [Output.emitFields, gives_bind, gives_op] at h
    obtain ⟨_, b1, rfl, hrest⟩ := h
    refine (ho.writes (hfree target (Int.le_refl _) (by omega)) fun s hs => ?_).bind fun O1 _ ho1 =>
      ih hrest ho1 hk fun r hle hlt => hfree r (by omega) (by omega)
    obtain ⟨sorter, position, hget, hrow⟩ := hs.used hk
    obtain ⟨row, hrow⟩ := Option.isSome_iff_exists.mp hrow
    simp only [execute, Instruction.plain, readField, State.currentRow, State.cursor, hget, hrow]
    exact ⟨_, rfl⟩

theorem Output.emitDiffers_outlines {count : Nat} {current previous : Int} :
    (Output.emitDiffers l count current previous).Gives b () b' → κ.Outlines O b F →
    O.Marks b l G → F.Entails G → κ.Reaches O b b' F := by
  induction count generalizing b O current previous with
  | zero => exact fun h ho _ _ => ho.pure h
  | succ count ih =>
    intro h ho hl hG
    simp only [Output.emitDiffers, gives_bind, gives_jumpFlagged] at h
    obtain ⟨_, b1, rfl, hrest⟩ := h
    refine (ho.branches hl hG fun s hs t => ?_).bind fun O1 g1 ho1 => ih hrest ho1 (g1.marks hl) hG
    have hflag : (Flag.nullEqual &&& Flag.storeResult != 0) = false := by decide
    simp only [execute, compareRegisters, Instruction.has, hflag, Bool.false_eq_true, if_false]
    exact jumpIf_leaves

/-! ## Counters -/

/-- The counters are held, and nothing else is known of them. -/
def Counters.Ready (n : Counters) (F : Facts) (b : Builder) : Prop :=
  ∀ r, n.limit = some r ∨ n.offset = some r → b.Holds r ∧ F.Free r

/-- A register has to hold an integer. -/
theorem Contract.Outlines.mustBeInt (ho : κ.Outlines O b F) (hκ : κ.Counts) (hr : F.Free r) :
    κ.Reaches O b (b.emit (.plain .mustBeInt r 0 0)) F := by
  refine ho.op ho.within ho.keeps_here fun s hs => ?_
  have hexecute : execute κ.env b.address (.plain .mustBeInt r 0 0) s =
      Machine.mustBeInt (.plain .mustBeInt r 0 0) s := rfl
  rw [hexecute]
  unfold Machine.mustBeInt
  split
  · exact hs
  · exact hs.set ho.within hr _
  · exact hκ _

theorem loadCount_outlines {e : Resolved} {b1 : Builder} (he : (emitExpr [] e r).Gives b () b1) (hκ : κ.Counts)
    (ho : κ.Outlines O b F) (hpos : 0 < r) (hr : F.Free r) (hreads : ∀ p ∈ e.places, κ.Reads F p) :
    κ.Reaches O b (b1.emit (.plain .mustBeInt r 0 0)) F := by
  exact (emitExpr_outlines he ho hpos hr fun p hp =>
    hreads p (Expr.needs_sublist_places [] e p hp)).bind fun O1 _ ho1 => ho1.mustBeInt hκ hr

theorem emitLimit_outlines {limit : Option Resolved} {n : Option Int} (h : (emitLimit done limit).Gives b n b')
    (ho : κ.Outlines O b F) (hl : O.Marks b done G) (hG : F.Entails G)
    (hreads : ∀ e, limit = some e → κ.Counts ∧ ∀ p ∈ e.places, κ.Reads F p) :
    κ.Reaches O b b' F ∧ ∀ r, n = some r → b'.Holds r ∧ F.Free r := by
  cases limit with
  | none =>
    obtain ⟨rfl, rfl⟩ := gives_pure.mp h
    exact ⟨ho.reaches, nofun⟩
  | some e =>
    simp only [emitLimit, gives_bind, gives_op, gives_jump, gives_pure] at h
    obtain ⟨r, b1, hr, _, b2, he, _, b3, rfl, _, b4, rfl, rfl, rfl⟩ := h
    have hr := takes_register hr ho.valid
    have hfree : F.Free r := ho.within r (hr.new rfl)
    have hreach : κ.Reaches O b1 ((b2.emit (.plain .mustBeInt r 0 0)).emitJump .ifNot r 0 done .empty 0)
        F :=
      (loadCount_outlines he (hreads e rfl).1 (ho.takes hr) (hr.held rfl).1 hfree (hreads e rfl).2).bind
        fun O1 g1 ho1 => ho1.branches (g1.marks ((Outline.Grows.takes hr O).marks hl)) hG
          fun s _ t => jumpOnTruth_leaves
    refine ⟨hreach.taking hr, ?_⟩
    rintro r' ⟨⟩
    obtain ⟨O', g, -⟩ := hreach
    exact ⟨g.holds r (hr.held rfl), hfree⟩

theorem emitOffset_outlines {offset : Option Resolved} {n : Option Int} (h : (emitOffset offset).Gives b n b')
    (ho : κ.Outlines O b F) (hreads : ∀ e, offset = some e → κ.Counts ∧ ∀ p ∈ e.places, κ.Reads F p) :
    κ.Reaches O b b' F ∧ ∀ r, n = some r → b'.Holds r ∧ F.Free r := by
  cases offset with
  | none =>
    obtain ⟨rfl, rfl⟩ := gives_pure.mp h
    exact ⟨ho.reaches, nofun⟩
  | some e =>
    simp only [emitOffset, gives_bind, gives_op, gives_pure] at h
    obtain ⟨r, b1, hr, _, b2, he, _, b3, rfl, rfl, rfl⟩ := h
    have hr := takes_register hr ho.valid
    have hfree : F.Free r := ho.within r (hr.new rfl)
    have hreach := loadCount_outlines he (hreads e rfl).1 (ho.takes hr) (hr.held rfl).1 hfree
      (hreads e rfl).2
    refine ⟨hreach.taking hr, ?_⟩
    rintro r' ⟨⟩
    obtain ⟨O', g, -⟩ := hreach
    exact ⟨g.holds r (hr.held rfl), hfree⟩

/-- The counters are loaded. -/
theorem emitCounters_outlines {p : Plan} (h : (emitCounters p done).Gives b n b') (ho : κ.Outlines O b F)
    (hl : O.Marks b done G) (hG : F.Entails G)
    (hlimit : ∀ e, p.limit = some e → κ.Counts ∧ ∀ q ∈ e.places, κ.Reads F q)
    (hoffset : ∀ e, p.offset = some e → κ.Counts ∧ ∀ q ∈ e.places, κ.Reads F q) :
    κ.Reaches O b b' F ∧ n.Ready F b' := by
  simp only [emitCounters, gives_bind, gives_pure] at h
  obtain ⟨limit, b1, hlim, offset, b2, hoff, rfl, rfl⟩ := h
  obtain ⟨⟨O1, g1, ho1⟩, hfree1⟩ := emitLimit_outlines hlim ho hl hG hlimit
  obtain ⟨⟨O2, g2, ho2⟩, hfree2⟩ := emitOffset_outlines hoff ho1 hoffset
  refine ⟨⟨O2, g1.trans g2, ho2⟩, ?_⟩
  rintro r (hr | hr)
  · exact ⟨g2.holds r (hfree1 r hr).1, (hfree1 r hr).2⟩
  · exact hfree2 r hr

theorem Counters.Ready.grows (h : n.Ready F b) {O' : Outline} (g : O.Grows b O' b') : n.Ready F b' :=
  fun r hr => ⟨g.holds r (h r hr).1, (h r hr).2⟩

theorem Counters.emitSkip_outlines {skip : Label} (h : (n.emitSkip skip).Gives b () b') (ho : κ.Outlines O b F)
    (hl : O.Marks b skip G) (hG : F.Entails G) (hn : ∀ r, n.offset = some r → F.Free r) : κ.Reaches O b b' F := by
  unfold emitSkip at h
  split at h
  · rename_i r hr
    obtain rfl := gives_jump.mp h
    refine ho.jump hl ho.within ho.keeps_here fun s hs t => ?_
    simp only [execute, ifPos]
    split
    · exact ⟨rfl, hG _ (hs.set ho.within (hn r hr) _)⟩
    · exact hs
  · exact ho.pure h

theorem Counters.emitStop_outlines (h : (n.emitStop done).Gives b () b') (ho : κ.Outlines O b F)
    (hl : O.Marks b done G) (hG : F.Entails G) (hn : ∀ r, n.limit = some r → F.Free r) : κ.Reaches O b b' F := by
  unfold emitStop at h
  split at h
  · rename_i r hr
    obtain rfl := gives_jump.mp h
    refine ho.jump hl ho.within ho.keeps_here fun s hs t => ?_
    simp only [execute, decrJumpZero, jumpIf]
    split
    · exact ⟨rfl, hG _ (hs.set ho.within (hn r hr) _)⟩
    · exact hs.set ho.within (hn r hr) _
  · exact ho.pure h

end QueryMachine
