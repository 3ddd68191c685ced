import QueryMachine.Proofs.Compile.Whole
import QueryMachine.Proofs.Compile.Window
import QueryMachine.Proofs.Database.Writing

/-!
# The rows that a DELETE deletes

A DELETE row by row first collects the rowids of the rows to delete: those that the filter lets pass,
from the first on and as far as the limit goes.

* `Deletion.chosen` — the rowids of the rows to delete.
* `Deletion.Round.loop_leads` — the first pass collects them.
-/

namespace QueryMachine

open Machine Emit

variable {σ : Setting} {b b' : Builder} {s s' : State} {table : Table} {c : Int}
  {opened : List OpenIndex} {rows : List (Int64 × Bytes)} {position : Option Position}

namespace Deletion

/-! ## What is deleted -/

/-- The rowids of the rows to delete. -/
def chosen (filter : Option Resolved) (keep : Option Nat) (rows : List (Int64 × Bytes)) : List Int64 :=
  ((⟨0, keep⟩ : Window).apply (rows.filter fun row => Expr.holds (Rows.entry row).read filter)).map (·.1)

variable {row : Int64 × Bytes} {a : Nat} {before rest : List (Int64 × Bytes)} {filter : Option Resolved}
  {keep : Option Nat} {rowSet : Int} {ids : List Int64} {limit : Option Int} {collected : Label}

theorem chosen_cons_of_not (h : ¬ Expr.holds (Rows.entry row).read filter = true) :
    chosen filter keep (row :: rows) = chosen filter keep rows := by
  simp only [chosen, List.filter_cons, if_neg h]

theorem chosen_cons_of_holds (h : Expr.holds (Rows.entry row).read filter = true) (hkeep : keep ≠ some 0) :
    chosen filter keep (row :: rows) = row.1 :: chosen filter (keep.map (· - 1)) rows := by
  rcases keep with _ | _ | k
  · simp [chosen, h, Window.apply]
  · exact absurd rfl hkeep
  · simp [chosen, h, Window.apply]

theorem chosen_nil (filter : Option Resolved) (keep : Option Nat) : chosen filter keep [] = [] := by
  cases keep <;> simp [chosen, Window.apply]

theorem chosen_zero (filter : Option Resolved) (rows : List (Int64 × Bytes)) : chosen filter (some 0) rows = [] := by
  simp [chosen, Window.apply]

theorem insertRowid_of_forall_lt {id : Int64} (h : ∀ x ∈ ids, x < id) : insertRowid id ids = ids ++ [id] := by
  induction ids with
  | nil => rfl
  | cons x ids ih =>
    have hlt := h x List.mem_cons_self
    have hnlt : ¬ id < x := fun hgt => Int64.lt_irrefl (Int64.lt_trans hlt hgt)
    rw [insertRowid, if_neg hnlt, if_neg (Int64.ne_of_lt hlt).symm,
      ih fun y hy => h y (List.mem_cons_of_mem _ hy)]
    rfl

/-! ## The first pass -/

/-- The rowids collected so far, and how many more are wanted. -/
structure Gathering (s : State) (rowSet : Int) (ids : List Int64) (limit : Option Int)
    (keep : Option Nat) : Prop where
  ids : (s.rowSets.get? rowSet).getD [] = ids
  some : ∀ r, limit = some r → ∃ n : Nat, keep = .some n ∧ 0 < n ∧ s.number r = n
  none : limit = none → keep = .none

theorem Gathering.quiet {R C : Int → Prop} (h : Gathering s rowSet ids limit keep) (hq : Quiet R C s s')
    (hrowSet : R rowSet) (hlimit : ∀ r, limit = .some r → R r) : Gathering s' rowSet ids limit keep where
  ids := by
    rw [hq.rowSets rowSet hrowSet]
    exact h.ids
  some r hr := by
    obtain ⟨n, hkeep, hn, hnumber⟩ := h.some r hr
    refine ⟨n, hkeep, hn, ?_⟩
    rw [State.number, hq.get r (hlimit r hr)]
    exact hnumber
  none := h.none

theorem Gathering.keep_ne_zero (h : Gathering s rowSet ids limit keep) : keep ≠ .some 0 := by
  cases hl : limit with
  | none =>
    rw [h.none hl]
    nofun
  | some r =>
    obtain ⟨n, hkeep, hn, -⟩ := h.some r hl
    rw [hkeep]
    intro h0
    cases h0
    exact Nat.lt_irrefl _ hn

/-- A limit counts down as that of a query does. -/
theorem Gathering.counts (h : Gathering s rowSet ids limit keep) : Counters.Counts ⟨limit, .none⟩ s ⟨0, keep⟩ where
  offset := nofun
  offset_none _ := rfl
  limit r hr n hn := by
    obtain ⟨m, hm, -, hnumber⟩ := h.some r hr
    cases hm.symm.trans hn
    exact hnumber
  limit_all r hr hnone := by
    obtain ⟨m, hm, -⟩ := h.some r hr
    cases hm.symm.trans hnone
  limit_none := h.none

/-- After the last row that is wanted the first pass ends. -/
theorem emitCount_leads (h : (emitCount limit collected).Gives b () b') (hend : b'.Begins σ.final)
    (hl : collected < b.labels.size) (hat : σ.At collected a) (hg : Gathering s rowSet ids limit keep)
    (hrowSet : 0 < rowSet) (hlimit : ∀ r, limit = some r → 0 < r ∧ rowSet ≠ r) :
    σ.Leads (fun pc s' => Quiet (fun q => 0 < q ∧ limit ≠ some q) (fun _ => True) s s' ∧
      (s'.rowSets.get? rowSet).getD [] = ids ∧ if keep = some 1 then pc = a
      else pc = b'.address ∧ Gathering s' rowSet ids limit (keep.map (· - 1))) b.address s := by
  have hstop : (Counters.emitStop ⟨limit, none⟩ collected).Gives b () b' := h
  refine (Counters.emitStop_leads hstop hend hl hat ⟨nofun, fun r hr => (hlimit r hr).1, nofun⟩ hg.counts
    hg.keep_ne_zero).mono ?_
  rintro pc s' ⟨hq, hcase⟩
  have hids : (s'.rowSets.get? rowSet).getD [] = ids := by
    rw [hq.rowSets rowSet ⟨hrowSet, fun heq => (hlimit rowSet heq).2 rfl⟩]
    exact hg.ids
  refine ⟨hq, hids, ?_⟩
  cases keep with
  | none =>
    rw [if_neg nofun]
    refine ⟨hcase.1, hids, fun r hr => ?_, fun _ => rfl⟩
    obtain ⟨n, hn, -⟩ := hg.some r hr
    cases hn
  | some n =>
    have hn : n ≠ 0 := fun h0 => hg.keep_ne_zero (congrArg some h0)
    dsimp only at hcase
    by_cases hone : n = 1
    · rw [if_pos hone] at hcase
      rwa [if_pos (congrArg some hone)]
    · rw [if_neg hone] at hcase
      rw [if_neg fun heq => hone (Option.some.inj heq)]
      exact ⟨hcase.1, hids, fun r hr => ⟨n - 1, rfl, by omega, hcase.2.limit r hr _ rfl⟩, fun hnone => by cases hg.none hnone⟩

/-- The code of a round of the first pass, piece by piece. -/
structure Round (filter : Option Resolved) (c rowSet rowid : Int) (limit : Option Int)
    (collected next : Label) (b b1 b2 b' : Builder) : Prop where
  test : (emitFilter [] next filter).Gives b () b1
  taken : temp.Gives b1 rowid b2
  count : (emitCount limit collected).Gives
    { (b2.emit (.plain .rowid c rowid 0)).emit (.plain .rowSetAdd rowSet rowid 0) with
      pool := b2.pool.giveBack rowid } () b'

variable {rowid : Int} {next top : Label} {b1 b2 : Builder}

section

variable (h : Round filter c rowSet rowid limit collected next b b1 b2 b')

include h

theorem Round.rest_grows (hb : b1.Valid) : b1.Grows b' := by
  have htakes := takes_temp h.taken hb
  have h3 := ((htakes.grows.emit (.plain .rowid c rowid 0)).emit
    (.plain .rowSetAdd rowSet rowid 0)).giveBack (htakes.new rfl) (htakes.held rfl)
  exact h3.trans (h.count.grows h3.valid)

theorem Round.grows (hb : b.Valid) : b.Grows b' := by
  have h1 := h.test.grows hb
  exact h1.trans (h.rest_grows h1.valid)

section

variable (hb : b.Valid) (hend : b'.Begins σ.final) (hgood : σ.Lenient ∨ filter = none)
  (hskip : next < b.labels.size) (hat : σ.At next b'.address) (hl : collected < b.labels.size)
  (hatl : σ.At collected a) (hrowSet : b.Holds rowSet)
  (hlimit : ∀ r, limit = some r → b.Holds r ∧ rowSet ≠ r)
  (hw : Writing s c table opened (before ++ row :: rest) (some (.rowid row.1)))
  (hg : Gathering s rowSet ids limit keep) (hids : ∀ x ∈ ids, x < row.1)

include hb hend hgood hskip hat hl hatl hrowSet hlimit hw hg hids

/-- One round looks at one row. -/
theorem Round.leads : σ.Leads (fun pc s' => Writing s' c table opened (before ++ row :: rest) (some (.rowid row.1)) ∧
      s'.store = s.store ∧ if Expr.holds (Rows.entry row).read filter then
        (s'.rowSets.get? rowSet).getD [] = ids ++ [row.1] ∧ if keep = some 1 then pc = a
        else pc = b'.address ∧ Gathering s' rowSet (ids ++ [row.1]) limit (keep.map (· - 1))
      else pc = b'.address ∧ Gathering s' rowSet ids limit keep) b.address s := by
  have h1 := h.test.grows hb
  have htakes := takes_temp h.taken h1.valid
  have h2 := h1.trans htakes.grows
  have h3 := ((htakes.grows.emit (.plain .rowid c rowid 0)).emit
    (.plain .rowSetAdd rowSet rowid 0)).giveBack (htakes.new rfl) (htakes.held rfl)
  have hend3 := (h.count.grows h3.valid).begins.trans hend
  have hend2 := (Builder.Begins.emit ..).trans hend3.of_pool
  have hend1 := (h.rest_grows h1.valid).begins.trans hend
  have hmem := Rows.entry_mem_middle before row rest
  have hreads : ∀ f, filter = some f → ∀ p ∈ f.places,
      s.Shows p ((Rows.entry row).read p) ∨ s.Hides σ.Admits p := by
    rintro f rfl p -
    rcases hgood with hlenient | hnone
    · exact hw.reads hmem p
    · cases hnone
  refine (emitFilter_leads_of_reads h.test hb hend1 hskip hat hreads).bind ?_
  rintro pc s1 ⟨hq1, hcase⟩
  have hw1 := hw.quiet hq1
  have hg1 := hg.quiet hq1 hrowSet fun r hr => (hlimit r hr).1
  by_cases hholds : Expr.holds (Rows.entry row).read filter = true
  · simp only [if_pos hholds] at hcase ⊢
    rw [hcase, ← htakes.address]
    -- The rowid of the row goes into the set.
    let s2 := s1.set rowid (.int row.1)
    have hrowid : rowSet ≠ rowid := fun heq => htakes.new heq (h1.holds _ hrowSet)
    refine .op hend2 rfl (t := s2) ?_ ?_
    · have hread : s1.currentRowid b2.address c = .ok row.1 := hw1.currentRowid _
      simp only [execute, Instruction.plain, readRowid, hread, s2]
    have hq2 : Quiet (fun q => b.Holds q) (fun _ => True) s1 s2 :=
      .set s1 _ fun q hq => ⟨hq.1, fun heq => htakes.new heq (h1.holds _ hq)⟩
    let s3 : State := { s2 with rowSets := s2.rowSets.set rowSet (ids ++ [row.1]) }
    refine .op hend3.of_pool rfl (t := s3) ?_ ?_
    · have hold : (s2.rowSets.get? rowSet).getD [] = ids := by
        rw [hq2.rowSets rowSet hrowSet]
        exact hg1.ids
      have hget : (s2.get rowid).toInt64 = row.1 := by
        rw [State.get_set_self]
        rfl
      simp only [execute, Instruction.plain, rowSetAdd, hold, hget, insertRowid_of_forall_lt hids, s3]
    have hg3 : Gathering s3 rowSet (ids ++ [row.1]) limit keep := by
      have hg2 := hg1.quiet hq2 hrowSet fun r hr => (hlimit r hr).1
      refine ⟨?_, hg2.some, hg2.none⟩
      show ((s2.rowSets.set rowSet (ids ++ [row.1])).get? rowSet).getD [] = ids ++ [row.1]
      rw [Slots.get?_set_self]
      rfl
    have hk3 : Keeps (fun q => q ≠ rowSet) (fun _ => True) s2 s3 :=
      ⟨fun _ _ => rfl, fun q hq => Slots.get?_set_of_ne _ _ hq, fun _ _ => rfl⟩
    have hw3 := (hw1.quiet hq2).keeps hk3 rfl
    refine (emitCount_leads h.count hend (Nat.lt_of_lt_of_le hl (h1.trans h3).labels_le) hatl hg3
      hrowSet.1 fun r hr => ⟨(hlimit r hr).1.1, (hlimit r hr).2⟩).mono ?_
    rintro pc s' ⟨hq', hset, hrest⟩
    refine ⟨hw3.quiet hq', ?_, hset, hrest⟩
    rw [hq'.store]
    exact hq2.store.trans hq1.store
  · simp only [if_neg hholds] at hcase ⊢
    exact .here ⟨hw1, hq1.store, hcase, hg1⟩

/-- After one round the set is complete, or what is still to come completes it. -/
theorem Round.gathers : σ.Leads (fun pc s' => Writing s' c table opened (before ++ row :: rest) (some (.rowid row.1)) ∧
      s'.store = s.store ∧ ((pc = a ∧ (s'.rowSets.get? rowSet).getD [] = ids ++ chosen filter keep (row :: rest)) ∨
        pc = b'.address ∧ ∃ ids' keep', Gathering s' rowSet ids' limit keep' ∧
          ids' ++ chosen filter keep' rest = ids ++ chosen filter keep (row :: rest) ∧
          ∀ x ∈ ids', x ≤ row.1)) b.address s := by
  refine (h.leads hb hend hgood hskip hat hl hatl hrowSet hlimit hw hg hids).mono ?_
  rintro pc s1 ⟨hw1, hstore1, hcase⟩
  refine ⟨hw1, hstore1, ?_⟩
  by_cases hholds : Expr.holds (Rows.entry row).read filter = true
  · rw [if_pos hholds] at hcase
    rw [chosen_cons_of_holds hholds hg.keep_ne_zero]
    obtain ⟨hset, hcase⟩ := hcase
    by_cases hone : keep = some 1
    · rw [if_pos hone] at hcase
      refine .inl ⟨hcase, ?_⟩
      rw [hone, hset]
      exact congrArg (ids ++ row.1 :: ·) (chosen_zero filter rest).symm
    · rw [if_neg hone] at hcase
      refine .inr ⟨hcase.1, _, _, hcase.2, by simp, fun x hx => ?_⟩
      rcases List.mem_append.mp hx with hx | hx
      · exact Int64.le_of_lt (hids x hx)
      · rw [List.mem_singleton.mp hx]
        exact Int64.le_refl _
  · rw [if_neg hholds] at hcase
    rw [chosen_cons_of_not hholds]
    exact .inr ⟨hcase.1, _, _, hcase.2, rfl, fun x hx => Int64.le_of_lt (hids x hx)⟩

end

/-- The first pass collects the rows that are still to come. -/
theorem Round.loop_leads (hb : b.Valid) (hend : ((b'.bindHere next).emitJump .next c 0 top .empty 0).Begins σ.final)
    (hend' : b'.Begins σ.final) (hgood : σ.Lenient ∨ filter = none) (hskip : next < b.labels.size)
    (hat : σ.At next b'.address) (htop : top < (b'.bindHere next).labels.size) (hattop : σ.At top b.address)
    (hl : collected < b.labels.size)
    (hatl : σ.At collected ((b'.bindHere next).emitJump .next c 0 top .empty 0).address) (hrowSet : b.Holds rowSet)
    (hlimit : ∀ r, limit = some r → b.Holds r ∧ rowSet ≠ r)
    (hw : Writing s c table opened (before ++ row :: rest) (some (.rowid row.1)))
    (hg : Gathering s rowSet ids limit keep) (hids : ∀ x ∈ ids, x < row.1) :
    σ.Leads (fun pc s' => pc = ((b'.bindHere next).emitJump .next c 0 top .empty 0).address ∧
      (∃ position, Writing s' c table opened (before ++ row :: rest) position) ∧ s'.store = s.store ∧
      (s'.rowSets.get? rowSet).getD [] = ids ++ chosen filter keep (row :: rest)) b.address s := by
  induction rest generalizing before row s ids keep with
  | nil =>
    refine (h.gathers hb hend' hgood hskip hat hl hatl hrowSet hlimit hw hg hids).bind ?_
    rintro pc s1 ⟨hw1, hstore1, ⟨rfl, hset⟩ | ⟨rfl, ids', keep', hg1, heq, -⟩⟩
    · exact .here ⟨rfl, ⟨_, hw1⟩, hstore1, hset⟩
    · refine (Writing.next_leads (b := b'.bindHere next) hw1 hend htop hattop).mono ?_
      rintro pc s2 ⟨hw2, hq2, rfl⟩
      refine ⟨rfl, ⟨_, hw2⟩, hq2.store.trans hstore1, ?_⟩
      rw [hq2.rowSets rowSet trivial, hg1.ids, ← heq, chosen_nil, List.append_nil]
  | cons row2 rest ih =>
    have hlt : row.1 < row2.1 := by
      have hsorted := (List.pairwise_append.mp hw.ascending).2.1
      exact (List.pairwise_cons.mp hsorted).1 row2 List.mem_cons_self
    refine (h.gathers hb hend' hgood hskip hat hl hatl hrowSet hlimit hw hg hids).bind ?_
    rintro pc s1 ⟨hw1, hstore1, ⟨rfl, hset⟩ | ⟨rfl, ids', keep', hg1, heq, hids'⟩⟩
    · exact .here ⟨rfl, ⟨_, hw1⟩, hstore1, hset⟩
    · refine (Writing.next_leads (b := b'.bindHere next) hw1 hend htop hattop).bind ?_
      rintro pc s2 ⟨hw2, hq2, rfl⟩
      have hsplit : before ++ row :: row2 :: rest = (before ++ [row]) ++ row2 :: rest := by simp
      have hw2 : Writing s2 c table opened ((before ++ [row]) ++ row2 :: rest)
          (some (.rowid row2.1)) := hsplit ▸ hw2
      refine (ih hw2 (hg1.quiet hq2 trivial fun _ _ => trivial) fun x hx =>
        Int64.lt_of_le_of_lt (hids' x hx) hlt).mono ?_
      rintro pc s' ⟨rfl, hw', hstore', hset⟩
      exact ⟨rfl, hsplit ▸ hw', hstore'.trans (hq2.store.trans hstore1), hset.trans heq⟩

end

/-- **The first pass collects the rows to delete.** -/
theorem emitCollect_leads (h : (emitCollect c rowSet filter limit collected).Gives b () b') (hb : b.Valid)
    (hend : b'.Begins σ.final) (hgood : σ.Lenient ∨ filter = none) (hl : collected < b.labels.size)
    (hatl : σ.At collected b'.address) (hrowSet : b.Holds rowSet)
    (hlimit : ∀ r, limit = some r → b.Holds r ∧ rowSet ≠ r) (hw : Writing s c table opened rows position)
    (hg : Gathering s rowSet [] limit keep) :
    σ.Leads (fun pc s' => pc = b'.address ∧ (∃ position, Writing s' c table opened rows position) ∧
      s'.store = s.store ∧ (s'.rowSets.get? rowSet).getD [] = chosen filter keep rows) b.address s := by
  simp only [emitCollect, gives_bind, gives_jump, gives_labelHere, gives_newLabel, gives_op,
    gives_giveBack, gives_bindHere] at h
  obtain ⟨_, b1, rfl, scan, b2, ⟨rfl, rfl⟩, next, b3, ⟨rfl, rfl⟩, _, b4, hfilter, rowid, b5, htemp, _, b6,
    rfl, _, b7, rfl, _, b8, rfl, _, b9, hcount, _, b10, rfl, rfl⟩ := h
  have hround : Round filter c rowSet rowid limit collected _ _ b4 b5 b9 := ⟨hfilter, htemp, hcount⟩
  have h1 := (Builder.Grows.refl hb).emitJump .rewind c 0 collected .empty 0
  have h2 := h1.newLabel.bindHere h1.labels_le
  have h23 := (Builder.Grows.refl h2.valid).newLabel
  have h3 := h2.trans h23
  have h39 := hround.grows h3.valid
  have h211 := ((h23.trans h39).bindHere (Nat.le_refl _)).emitJump .next c 0
    (b.emitJump .rewind c 0 collected .empty 0).labels.size .empty 0
  have hend10 := (Builder.Begins.emitJump ..).trans hend
  have hend9 := (Builder.Begins.bindHere (h39.unbound (Builder.lt_newLabel _)
    (Builder.target?_newLabel _))).trans hend10
  have hatnext := Setting.at_of_bindHere hend10
    (Nat.lt_of_lt_of_le (Builder.lt_newLabel _) h39.labels_le)
  obtain ⟨hattop, htop, hend1⟩ := Setting.at_of_labelHere h211 hend
  refine (hw.rewind_leads hend1 hl hatl).bind ?_
  rintro pc s1 ⟨hw1, hq1, rfl⟩
  cases rows with
  | nil =>
    refine .here ⟨rfl, ⟨_, hw1⟩, hq1.store, ?_⟩
    rw [hq1.rowSets rowSet trivial, hg.ids, chosen_nil]
  | cons row rest =>
    have hw1 : Writing s1 c table opened ([] ++ row :: rest) (some (.rowid row.1)) := hw1
    rw [List.isEmpty_cons, if_neg Bool.false_ne_true]
    refine (hround.loop_leads h3.valid hend hend9 hgood (Builder.lt_newLabel _) hatnext htop hattop
      (Nat.lt_of_lt_of_le hl h3.labels_le) hatl (h3.holds _ hrowSet)
      (fun r hr => ⟨h3.holds _ (hlimit r hr).1, (hlimit r hr).2⟩) hw1
      (hg.quiet hq1 trivial fun _ _ => trivial) (List.forall_mem_nil _)).mono ?_
    rintro pc s' ⟨rfl, hw', hstore', hset⟩
    exact ⟨rfl, hw', hstore'.trans hq1.store, hset⟩

/-! ## The limit -/

theorem emitLimit_grows {done : Label} {limit : Option Int64} {counter : Option Int}
    (h : (emitLimit done limit).Gives b counter b') (hb : b.Valid) :
    b.Grows b' ∧ ∀ r, counter = some r → b'.Holds r ∧ ¬ b.Holds r := by
  cases limit with
  | none =>
    obtain ⟨rfl, rfl⟩ := gives_pure.mp h
    exact ⟨.refl hb, nofun⟩
  | some n =>
    simp only [emitLimit, gives_bind, gives_jump, gives_pure] at h
    obtain ⟨r, b1, hr, _, b2, hint, _, b3, rfl, rfl, rfl⟩ := h
    have htakes := takes_register hr hb
    obtain ⟨j, rfl, -⟩ := emitInt_stores hint
    refine ⟨(htakes.grows.emit j).emitJump .., ?_⟩
    rintro _ ⟨⟩
    exact ⟨htakes.held rfl, htakes.new rfl⟩

/-- A limit of zero ends the statement at once. -/
theorem emitLimit_leads {done : Label} {limit : Option Int64} {counter : Option Int}
    (h : (emitLimit done limit).Gives b counter b') (hb : b.Valid) (hend : b'.Begins σ.final)
    (hl : done < b.labels.size) (hat : σ.At done a) (hnonneg : ∀ n, limit = some n → 0 ≤ n.toInt)
    (hrowSet : b.Holds rowSet) (hset : (s.rowSets.get? rowSet).getD [] = []) :
    σ.Leads (fun pc s' => Quiet b.Holds (fun _ => True) s s' ∧ ((pc = a ∧ limit = some 0) ∨
        pc = b'.address ∧ Gathering s' rowSet [] counter (limit.map fun n => n.toInt.toNat))) b.address s := by
  cases limit with
  | none =>
    obtain ⟨rfl, rfl⟩ := gives_pure.mp h
    exact .here ⟨.refl s, .inr ⟨rfl, hset, (by simp), fun _ => rfl⟩⟩
  | some n =>
    simp only [emitLimit, gives_bind, gives_jump, gives_pure] at h
    obtain ⟨r, b1, hr, _, b2, hint, _, b3, rfl, rfl, rfl⟩ := h
    have htakes := takes_register hr hb
    obtain ⟨j, rfl, hj⟩ := emitInt_stores hint
    rw [← htakes.address]
    refine ((hj s).leads ((Builder.Begins.emitJump ..).trans hend)).bind ?_
    rintro pc s1 ⟨rfl, rfl⟩
    have hq : Quiet b.Holds (fun _ => True) s (s.set r (.int n)) :=
      .set s _ fun q hq => ⟨hq.1, fun heq => htakes.new heq hq⟩
    have hl' : done < (b1.emit j).labels.size := by
      show done < b1.labels.size
      rwa [htakes.labels]
    have hget : (s.set r (.int n)).get r = .int n := State.get_set_self ..
    by_cases hzero : n = 0
    · refine .taken hend hl' hat rfl (t := s.set r (.int n)) ?_ (.here ⟨hq, .inl ⟨rfl, by rw [hzero]⟩⟩)
      rw [hzero] at hget
      simp [execute, jumpOnTruth, hget, Value.truth?, hzero, jumpIf]
    · refine .passed hend hl' hat rfl (t := s.set r (.int n)) ?_ (.here ⟨hq, .inr ⟨rfl, ?_, ?_, (by simp)⟩⟩)
      · simp [execute, jumpOnTruth, hget, Value.truth?, hzero, jumpIf]
      · rw [hq.rowSets rowSet hrowSet]
        exact hset
      · rintro _ ⟨⟩
        have hpos := hnonneg n rfl
        have hne : n.toInt ≠ 0 := fun h0 => hzero (Int64.toInt_inj.mp h0)
        refine ⟨n.toInt.toNat, rfl, by omega, ?_⟩
        rw [number_set]
        omega

end Deletion

end QueryMachine
