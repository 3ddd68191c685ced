import QueryMachine.Proofs.Compile.Output

/-!
# Giving sorted rows out

The rows that were put aside are sorted and go, one by one, through the window to the destination.
Where they are sorted by all their columns, duplicates stand next to each other and each row is
compared with the one before.

* `Distinct.fresh` — a list without the rows that equal the row before.
* `Output.emitDrain_leads` — the destination receives the window of the sorted rows.
-/

namespace QueryMachine

open Machine Emit

variable {σ : Setting} {b b' : Builder} {s s' : State}

/-! ## Duplicates next to each other -/

/-- Whether a row equals the one before. -/
def Distinct.repeats (d : Distinct) (last : Option (List Value)) (row : List Value) : Bool :=
  match d, last with
  | .ordered _ _, some previous => Value.orderRows previous row == .eq
  | _, _ => false

/-- The rows without those that equal the row before. -/
def Distinct.fresh (d : Distinct) : Option (List Value) → List (List Value) → List (List Value)
  | _, [] => []
  | last, row :: rows =>
    if d.repeats last row then d.fresh last rows else row :: d.fresh (some row) rows

/-- A row comes out of the sorter. -/
def Distinct.emerge (d : Distinct) (x : Option (List Value) × Window × List (List Value))
    (row : List Value) :
    Except (List (List Value)) (Option (List Value) × Window × List (List Value)) :=
  if d.repeats x.1 row then .ok x
  else
    match Window.step x.2 row with
    | .ok y => .ok (some row, y)
    | .error out => .error out

/-- The rows that passed. -/
def Distinct.passed :
    Except (List (List Value)) (Option (List Value) × Window × List (List Value)) →
      List (List Value)
  | .ok x => x.2.2
  | .error out => out

/-- One by one, the window of the fresh rows passes. -/
theorem Distinct.foldlM_emerge (d : Distinct) (rows : List (List Value)) (last : Option (List Value))
    (x : Window × List (List Value)) : Distinct.passed (rows.foldlM d.emerge (last, x)) =
      Window.passed ((d.fresh last rows).foldlM Window.step x) := by
  induction rows generalizing last x with
  | nil => rfl
  | cons row rows ih =>
    rw [List.foldlM_cons]
    by_cases hrepeats : d.repeats last row = true
    · have hstep : d.emerge (last, x) row = .ok (last, x) := if_pos hrepeats
      rw [hstep, Distinct.fresh, if_pos hrepeats]
      exact ih last x
    · rw [Distinct.fresh, if_neg hrepeats, List.foldlM_cons]
      cases hwindow : Window.step x row with
      | error out =>
        have hstep : d.emerge (last, x) row = .error out := by
          simp [Distinct.emerge, hrepeats, hwindow]
        rw [hstep]
        rfl
      | ok y =>
        have hstep : d.emerge (last, x) row = .ok (some row, y) := by
          simp [Distinct.emerge, hrepeats, hwindow]
        rw [hstep]
        exact ih (some row) y

theorem Distinct.fresh_of_not_ordered {d : Distinct} (h : ∀ first previous, d ≠ .ordered first previous)
    (last : Option (List Value)) : ∀ rows, d.fresh last rows = rows := by
  intro rows
  induction rows generalizing last with
  | nil => rfl
  | cons row rows ih =>
    have hrepeats : d.repeats last row = false := by
      cases d with
      | none | unordered k => rfl
      | ordered first previous => exact absurd rfl (h first previous)
    simp only [Distinct.fresh, hrepeats, Bool.false_eq_true, if_false, ih]

namespace Output

variable {o : Output} {c : Counters} {d : Destination} {sink : Sink σ d} {a : Nat} {skip done : Label} {t : Sorting}
  {y : Option (List Value) × Window × List (List Value)} {last : Option (List Value)} {R C : Int → Prop}
  {b2 b3 b4 b5 : Builder}

/-- The registers hold the row that came last. -/
def Remembers (o : Output) (s : State) (last : Option (List Value)) : Prop :=
  ∀ first previous, o.distinct = .ordered first previous →
    match last with
    | none => s.number first = 1
    | some row => s.number first ≤ 0 ∧ s.getBlock previous o.width = row

/-- The current row is copied to where the next one will be compared with it. -/
theorem remember_leads {first previous : Int}
    (hend : (b.emit (.plain .copy o.result previous (o.width - 1))).Begins σ.final) {b0 : Builder}
    (hlaid : o.Laid c sink b0) (hd : o.distinct = .ordered first previous) (hnumber : s.number first ≤ 0) :
    σ.Leads (fun pc s' => pc = (b.emit (.plain .copy o.result previous (o.width - 1))).address ∧
      o.Remembers s' (some (s.getBlock o.result o.width)) ∧ s'.getBlock o.result o.width = s.getBlock o.result o.width ∧
      Quiet (fun r => 0 < r ∧ ¬ o.Compares r) (fun _ => True) s s') b.address s := by
  obtain ⟨width, hwidth⟩ := Int.eq_ofNat_of_zero_le hlaid.width_nonneg
  obtain ⟨hfirst, hprevious⟩ := hlaid.ordered hd
  have hpos := hlaid.result_pos
  -- One register is copied even where there are no columns.
  obtain ⟨hblock, hq⟩ := @copyBlock_spec s previous ((o.width - 1).toNat + 1) o.result hpos
    (by omega)
  refine .op hend rfl (t := copyBlock o.result previous ((o.width - 1).toNat + 1) s) rfl
    (.here ⟨rfl, ?_, ?_, ?_⟩)
  · intro first' previous' hd'
    rw [hd] at hd'
    cases hd'
    refine ⟨?_, ?_⟩
    · rw [State.number, hq.get first ⟨by omega, by omega⟩]
      exact hnumber
    · cases width with
      | zero =>
        rw [hwidth]
        rfl
      | succ width =>
        have hcount : (((o.width - 1).toNat + 1 : Nat) : Int) = o.width := by omega
        rw [hcount] at hblock
        exact hblock
  · exact hq.toFrame.getBlock fun r hle hlt => ⟨by omega, by omega⟩
  · refine hq.mono (fun r hr => ⟨hr.1, ?_⟩) fun _ h => h
    have hne : ¬ (r = first ∨ r = previous ∨ previous ≤ r ∧ r < previous + o.width) :=
      fun hin => hr.2 ⟨first, previous, hd, hin⟩
    omega

/-- **A row that equals the one before is skipped**; another one is remembered. -/
theorem emitCompare_leads (h : (o.emitCompare skip).Gives b () b') (hb : b.Valid) (hend : b'.Begins σ.final)
    (hl : skip < b.labels.size) (hat : σ.At skip a) (hlaid : o.Laid c sink b) (hlast : o.Remembers s last) :
    σ.Leads (fun pc s' => Quiet (fun r => b.Holds r ∧ ¬ o.Compares r) (fun _ => True) s s' ∧
      if o.distinct.repeats last (s.getBlock o.result o.width) then pc = a ∧ s' = s
      else pc = b'.address ∧ o.Remembers s' (some (s.getBlock o.result o.width)) ∧
        s'.getBlock o.result o.width = s.getBlock o.result o.width) b.address s := by
  obtain ⟨width, hwidth⟩ := Int.eq_ofNat_of_zero_le hlaid.width_nonneg
  unfold emitCompare at h
  split at h
  · rename_i first previous hd
    simp only [gives_bind, gives_newLabel, gives_jump, gives_bindHere, gives_op] at h
    obtain ⟨fresh, b1, ⟨rfl, rfl⟩, _, b2, rfl, _, b3, hdiffers, _, b4, rfl, _, b5, rfl, rfl⟩ := h
    have h1 := (Builder.Grows.refl hb).newLabel
    have h2 := h1.emitJump .ifPos first 1 b.labels.size .empty 0
    have h23 := hdiffers.grows h2.valid
    have h14 := (((Builder.Grows.refl h1.valid).emitJump .ifPos first 1 b.labels.size .empty
      0).trans h23).emitJump .goto 0 0 skip .empty 0
    have hend5 := (Builder.Begins.emit ..).trans hend
    have hend4 := (Builder.Begins.bindHere (h14.unbound (Builder.lt_newLabel b)
      (Builder.target?_newLabel b))).trans hend5
    have hend3 := (Builder.Begins.emitJump ..).trans hend4
    have hend2 := h23.begins.trans hend3
    have hatFresh := Setting.at_of_bindHere hend5
      (Nat.lt_of_lt_of_le (Builder.lt_newLabel b) h14.labels_le)
    have hlSkip : skip < b3.labels.size := Nat.lt_of_lt_of_le hl (h2.trans h23).labels_le
    have hfirst : b.Holds first :=
      hlaid.held first (.inr (.inr (.inr (.inl ⟨first, previous, hd, .inl rfl⟩))))
    have hremember : ∀ s1 : State, s1.number first ≤ 0 → Quiet (fun r => b.Holds r ∧ ¬ o.Compares r)
        (fun _ => True) s s1 → s1.getBlock o.result o.width = s.getBlock o.result o.width →
        σ.Leads (fun pc s' => Quiet (fun r => b.Holds r ∧ ¬ o.Compares r) (fun _ => True) s s' ∧
          pc = ((Builder.bindHere b.labels.size (b3.emitJump .goto 0 0 skip .empty 0)).emit
            (.plain .copy o.result previous (o.width - 1))).address ∧
          o.Remembers s' (some (s.getBlock o.result o.width)) ∧
          s'.getBlock o.result o.width = s.getBlock o.result o.width)
          (b3.emitJump .goto 0 0 skip .empty 0).address s1 := by
      intro s1 hnumber hq hblock
      refine (remember_leads hend hlaid hd hnumber).mono ?_
      rintro pc s' ⟨rfl, hlast', hblock', hq'⟩
      rw [hblock] at hlast' hblock'
      exact ⟨hq.trans (hq'.mono (fun r hr => ⟨hr.1.1, hr.2⟩) fun _ h => h), rfl, hlast', hblock'⟩
    have hl1 : b.labels.size < b.newLabel.2.labels.size := Builder.lt_newLabel b
    cases last with
    | none =>
      -- The first row is always new.
      have hone : 0 < (s.get first).toInt64.toInt := by
        have : s.number first = 1 := hlast _ _ hd
        show 0 < s.number first
        omega
      have hrepeats : o.distinct.repeats none (s.getBlock o.result o.width) = false := by
        rw [hd]
        rfl
      simp only [hrepeats, Bool.false_eq_true, if_false]
      refine .taken (b := b.newLabel.2) hend2 hl1 hatFresh rfl
        (t := s.set first (.int (Integer.clamp ((s.get first).toInt64.toInt - 1)))) ?_
        (hremember _ ?_ ?_ ?_)
      · simp only [execute, ifPos, if_pos hone]
      · have hzero : (s.get first).toInt64.toInt = 1 := hlast _ _ hd
        rw [number_set, hzero]
        decide
      · exact .set s _ fun q hq => ⟨hq.1.1, fun hqf => hq.2 ⟨first, previous, hd, .inl hqf⟩⟩
      · have hset : Quiet (fun r => 0 < r ∧ r ≠ first) (fun _ => True) s
            (s.set first (.int (Integer.clamp ((s.get first).toInt64.toInt - 1)))) :=
          .set s _ fun q hq => hq
        have hpos := hlaid.result_pos
        have hafter := (hlaid.ordered hd).1
        exact hset.toFrame.getBlock fun r hle hlt => ⟨by omega, by omega⟩
    | some row =>
      obtain ⟨hnumber, hprevious⟩ := hlast _ _ hd
      have hnot : ¬ 0 < (s.get first).toInt64.toInt := by
        show ¬ 0 < s.number first
        omega
      have hrepeats : o.distinct.repeats (some row) (s.getBlock o.result o.width) =
          (Value.orderRows row (s.getBlock o.result o.width) == .eq) := by
        rw [hd]
        rfl
      refine .passed (b := b.newLabel.2) hend2 hl1 hatFresh rfl (t := s) ?_ ?_
      · simp only [execute, ifPos, if_neg hnot]
      refine (emitDiffers_leads hdiffers h2.valid hend3 (Builder.lt_newLabel b) hatFresh).bind ?_
      rintro pc s1 ⟨rfl, hcase⟩
      rw [Int.toNat_of_nonneg hlaid.width_nonneg, hprevious] at hcase
      by_cases hsame : Value.orderRows row (s1.getBlock o.result o.width) = .eq
      · have htrue : o.distinct.repeats (some row) (s1.getBlock o.result o.width) = true := by
          rw [hrepeats, hsame]
          rfl
        simp only [htrue, if_true]
        rw [if_pos hsame] at hcase
        rw [hcase]
        exact .taken hend4 hlSkip hat rfl (t := s1) rfl (.here ⟨.refl s1, rfl, rfl⟩)
      · have hfalse : o.distinct.repeats (some row) (s1.getBlock o.result o.width) = false := by
          rw [hrepeats, beq_eq_false_iff_ne]
          exact hsame
        simp only [hfalse, Bool.false_eq_true, if_false]
        rw [if_neg hsame] at hcase
        rw [hcase]
        exact hremember s1 hnumber (.refl s1) rfl
  · rename_i hd
    obtain ⟨-, rfl⟩ := gives_pure.mp h
    have hrepeats : o.distinct.repeats last (s.getBlock o.result o.width) = false := by
      cases ho : o.distinct with
      | none | unordered k => rfl
      | ordered first previous => exact absurd ho (hd first previous)
    simp only [hrepeats, Bool.false_eq_true, if_false]
    exact .here ⟨.refl s, rfl, fun _ _ ho => absurd ho (hd _ _), rfl⟩

/-! ## The loop over the sorted rows -/

/-- What the rows given out so far have come to stands in the registers and in the sink. -/
structure Yields (o : Output) (c : Counters) {d : Destination} (sink : Sink σ d) (s : State)
    (y : Option (List Value) × Window × List (List Value)) : Prop where
  last : o.Remembers s y.1
  counts : c.Counts s y.2.1
  keep : y.2.1.keep ≠ some 0
  received : sink.Received y.2.2 s

theorem Remembers.frame (h : o.Remembers s last) (hf : Frame R C s s')
    (hR : ∀ {r first previous}, o.distinct = .ordered first previous →
      (r = first ∨ previous ≤ r ∧ r < previous + o.width) → R r) : o.Remembers s' last := by
  intro first previous ho
  have hnumber : s'.number first = s.number first := by
    rw [State.number, hf.get first (hR ho (.inl rfl))]
    rfl
  cases last with
  | none =>
    show s'.number first = 1
    rw [hnumber]
    exact h first previous ho
  | some row =>
    obtain ⟨hle, hblock⟩ := h first previous ho
    refine ⟨?_, ?_⟩
    · rw [hnumber]
      exact hle
    · rw [hf.getBlock fun r hle hlt => hR ho (.inr ⟨hle, hlt⟩)]
      exact hblock

theorem Yields.quiet (h : o.Yields c sink s y) (hq : Quiet R C s s')
    (hR : ∀ r, o.Lasting c sink r → R r) (hC : ∀ k, sink.cursors k → C k) : o.Yields c sink s' y where
  last := h.last.frame hq.toFrame fun ho hr => hR _ (.inr (.inr (.inr ⟨_, _, ho, hr⟩)))
  counts := h.counts.congr (fun r hr => hq.get r (hR r (.inr (.inl hr))))
    fun r hr => hq.get r (hR r (.inl hr))
  keep := h.keep
  received := sink.stable h.received (hq.mono (fun r hr => hR r (.inr (.inr (.inl hr)))) hC)

/-- **One sorted row is given out**: unless it equals the one before, it goes through the window. -/
theorem drainRow_leads {a' : Nat} {keys columns : List Value} {rest : List (List Value)}
    (hfields : (emitFields t.cursor o.width.toNat t.keys.length o.result).Gives
      (b.emit (.plain .sorterData t.cursor t.record 0)) () b2)
    (hcompare : (o.emitCompare skip).Gives b2 () b3) (hskip : (c.emitSkip skip).Gives b3 () b4)
    (hemit : (d.emit o.result o.width).Gives b4 () b5) (hstop : (c.emitStop done).Gives b5 () b') (hb : b.Valid)
    (hend : b'.Begins σ.final) (hl : skip < b.labels.size) (hat : σ.At skip a) (hl' : done < b.labels.size)
    (hat' : σ.At done a') (hlaid : o.Laid c sink b) (ht : o.sorting = some t) (hkeys : keys.length = t.keys.length)
    (hcolumns : (columns.length : Int) = o.width) (hdrains : s.Drains t.cursor ((keys ++ columns) :: rest))
    (hy : o.Yields c sink s y) :
    σ.Leads (Ends (fun y' s' => o.Yields c sink s' y' ∧
        s'.Drains t.cursor ((keys ++ columns) :: rest) ∧
        Frame (o.Outside c sink b) (o.OutsideCursor sink) s s')
      (fun out s' => sink.Received out s' ∧ Frame (o.Outside c sink b) (o.OutsideCursor sink) s s')
      (fun pc => pc = b'.address ∨ pc = a) a' (o.distinct.emerge y columns)) b.address s := by
  have h1 := (Builder.Grows.refl hb).emit (.plain .sorterData t.cursor t.record 0)
  have h2 := h1.trans (hfields.grows h1.valid)
  have h3 := h2.trans (hcompare.grows h2.valid)
  have h34 := hskip.grows h3.valid
  have h45 := sink.grows hemit h34.valid
  have h5' := hstop.grows h45.valid
  have hend3 := ((h34.trans h45).trans h5').begins.trans hend
  have hend2 := (hcompare.grows h2.valid).begins.trans hend3
  have hend1 := (hfields.grows h1.valid).begins.trans hend2
  have hsinkCursor : ¬ sink.cursors t.cursor := fun hk =>
    hlaid.sink_cursors _ hk (.inr ⟨t, ht, rfl⟩)
  -- The fields of the row are read into the result columns.
  refine (sorterData_leads hend1 hdrains).bind ?_
  rintro pc s1 ⟨rfl, hq1⟩
  have hdrains1 := hdrains.congr (hq1.cursors t.cursor trivial)
  refine (emitFields_leads hfields hend2 h1.valid hlaid.result_pos hdrains1.currentRow).bind ?_
  rintro pc s2 ⟨rfl, hblock, hq2⟩
  have hwidth : o.width.toNat = columns.length := by omega
  have hcolumns2 : s2.getBlock o.result o.width = columns := by
    have hfieldsAt := fieldsAt_append keys columns []
    rw [List.append_nil, hkeys] at hfieldsAt
    rw [hwidth, hcolumns, hfieldsAt] at hblock
    exact hblock
  have hq12 : Quiet (o.Clear b) (fun _ => True) s s2 := by
    refine .trans (hq1.mono (fun r hr => ⟨hr.held.1, hr.record ht⟩) fun _ h => h)
      (hq2.mono (fun r hr => ?_) fun _ h => h)
    have := hr.result
    exact ⟨hr.held.1, by omega⟩
  have hy2 : o.Yields c sink s2 y :=
    hy.quiet hq12 (fun r hr => hlaid.clear hr) fun _ _ => trivial
  -- The row is compared with the one before.
  have hlaid2 := hlaid.grows h2
  refine (emitCompare_leads hcompare h2.valid hend3 (Nat.lt_of_lt_of_le hl h2.labels_le) hat hlaid2
    hy2.last).bind ?_
  rintro pc s3 ⟨hq3, hcase⟩
  rw [hcolumns2] at hcase
  have hf3 : Frame (o.Outside c sink b) (o.OutsideCursor sink) s s3 :=
    .trans (hq12.toFrame.mono (fun r hr => hr.clear) fun _ _ => trivial) (hq3.toFrame.mono (fun r hr =>
      ⟨h2.holds r hr.1, fun hin => hr.2.1 (.inr (.inr (.inr (.inl hin))))⟩) fun _ _ => trivial)
  have hdrains3 : s3.Drains t.cursor ((keys ++ columns) :: rest) :=
    hdrains.congr ((hq3.cursors _ trivial).trans (hq12.cursors _ trivial))
  unfold Distinct.emerge
  by_cases hrepeats : o.distinct.repeats y.1 columns = true
  · simp only [hrepeats, if_true] at hcase ⊢
    obtain ⟨rfl, rfl⟩ := hcase
    exact .here ⟨⟨hy2, hdrains3, hf3⟩, .inr rfl⟩
  · simp only [hrepeats, Bool.false_eq_true, if_false] at hcase ⊢
    obtain ⟨rfl, hlast, hsame⟩ := hcase
    have hcounts3 : c.Counts s3 y.2.1 := hy2.counts.congr
      (fun r hr => hq3.get r ⟨hlaid2.held r (.inr (.inr (.inl hr))), hlaid.not_compares (.inr hr)⟩)
      fun r hr => hq3.get r ⟨hlaid2.held r (.inr (.inl hr)), hlaid.not_compares (.inl hr)⟩
    have hreceived3 : sink.Received y.2.2 s3 :=
      sink.stable hy2.received (hq3.mono (fun r hr => ⟨hlaid2.sink_held r hr, fun hin =>
        hlaid.sink_apart r hr (.inr (.inr (.inr (.inl hin))))⟩) fun _ _ => trivial)
    refine (hlaid.pass_leads h3 hskip hemit hstop hend hl hat hl' hat' hcounts3 hy2.keep hreceived3).mono ?_
    rintro pc s4 ⟨hf4, hcase⟩
    have hf : Frame (o.Outside c sink b) (o.OutsideCursor sink) s s4 :=
      hf3.trans (hf4.mono (fun _ hr => .inl hr) fun k hk => hk.2)
    have hlast4 : o.Remembers s4 (some columns) :=
      hlast.frame hf4 fun ho hr => .inr ⟨_, _, ho, hr.imp id .inr⟩
    rw [hsame] at hcase
    revert hcase
    cases Window.step y.2 columns with
    | error out =>
      rintro ⟨hout, rfl⟩
      exact ⟨⟨hout, hf⟩, rfl⟩
    | ok z =>
      rintro ⟨hreceived, hcounts, hkeep, hpc⟩
      exact ⟨⟨⟨hlast4, hcounts, hkeep, hreceived⟩,
        hdrains3.congr (hf4.cursors _ hsinkCursor), hf⟩, hpc⟩

/-- The rows in the order in which they leave the sorter, without their keys. -/
def sorted (t : Sorting) (descending : List Bool) (pending : List (List Value)) :
    List (List Value) :=
  (sortRows t.keys.length descending pending).map (·.drop t.keys.length)

/-- The loop over the sorted rows, from its head on. -/
theorem drainRows_leads {head : Label} {b6 : Builder} {row : List Value} {rows : List (List Value)}
    (hfields : (emitFields t.cursor o.width.toNat t.keys.length o.result).Gives
      (b.emit (.plain .sorterData t.cursor t.record 0)) () b2)
    (hcompare : (o.emitCompare skip).Gives b2 () b3) (hskip : (c.emitSkip skip).Gives b3 () b4)
    (hemit : (d.emit o.result o.width).Gives b4 () b5) (hstop : (c.emitStop done).Gives b5 () b6) (hb : b.Valid)
    (hend : ((b6.bindHere skip).emitJump .sorterNext t.cursor 0 head .empty 0).Begins σ.final) (hg : b.Grows b6)
    (hl : skip < b.labels.size) (hnone : b.target? skip = none) (hhead : head < b.labels.size)
    (hatHead : σ.At head b.address) (hl' : done < b.labels.size) (hat : σ.At done a) (hlaid : o.Laid c sink b)
    (ht : o.sorting = some t) (hlength : ∀ r ∈ row :: rows, (r.length : Int) = t.keys.length + o.width)
    (hdrains : s.Drains t.cursor (row :: rows)) (hy : o.Yields c sink s y) :
    σ.Leads (fun pc s' => (pc = (b6.bindHere skip).address + 1 ∨ pc = a) ∧
      sink.Received (Distinct.passed ((row :: rows).foldlM
        (fun y row => o.distinct.emerge y (row.drop t.keys.length)) y)) s' ∧
      Frame (o.Outside c sink b) (o.OutsideCursor sink) s s') b.address s := by
  have hend6 := (Builder.Begins.emitJump ..).trans hend
  have hatSkip := Setting.at_of_bindHere hend6 (Nat.lt_of_lt_of_le hl hg.labels_le)
  have hlHead : head < (b6.bindHere skip).labels.size := by
    rw [Builder.labels_size_bindHere]
    exact Nat.lt_of_lt_of_le hhead hg.labels_le
  have hsinkCursor : ∀ k, sink.cursors k → k ≠ t.cursor := fun k hk hkt =>
    hlaid.sink_cursors k hk (.inr ⟨t, ht, hkt.symm⟩)
  -- At the head of a round the sorter stands on the first of the rows still to come.
  refine Setting.Leads.foldlM (I := fun remaining y s' => s'.Drains t.cursor remaining ∧
    o.Yields c sink s' y ∧ Frame (o.Outside c sink b) (o.OutsideCursor sink) s s' ∧
    ∀ row ∈ remaining, (row.length : Int) = t.keys.length + o.width)
    (Q := fun r pc s' => (pc = (b6.bindHere skip).address + 1 ∨ pc = a) ∧
      sink.Received (Distinct.passed r) s' ∧ Frame (o.Outside c sink b) (o.OutsideCursor sink) s s')
    ?_ ⟨hdrains, hy, .refl s, hlength⟩
  rintro row rest y s1 ⟨hdrains, hy, hf, hlength⟩
  have hrow := hlength row List.mem_cons_self
  have hwidth := hlaid.width_nonneg
  have hsplit : row.take t.keys.length ++ row.drop t.keys.length = row :=
    List.take_append_drop ..
  have hkeys : (row.take t.keys.length).length = t.keys.length := by
    rw [List.length_take]
    omega
  have hcolumns : ((row.drop t.keys.length).length : Int) = o.width := by
    rw [List.length_drop]
    omega
  rw [← hsplit] at hdrains
  refine (drainRow_leads hfields hcompare hskip hemit hstop hb
    ((Builder.Begins.bindHere (hg.unbound hl hnone)).trans hend6) hl hatSkip hl' hat hlaid ht hkeys
    hcolumns hdrains hy).bind ?_
  intro pc s2 hround
  revert hround
  cases o.distinct.emerge y (row.drop t.keys.length) with
  | error out =>
    rintro ⟨⟨hout, hf2⟩, rfl⟩
    exact .here ⟨.inr rfl, hout, hf.trans hf2⟩
  | ok y' =>
    rintro ⟨⟨hy', hdrains2, hf2⟩, hpc⟩
    have hpc : pc = (b6.bindHere skip).address := by
      rcases hpc with hpc | hpc <;> exact hpc
    rw [hpc]
    refine (sorterNext_leads hend hlHead hatHead hdrains2).mono ?_
    rintro pc s3 ⟨hq3, hnext⟩
    have hy3 : o.Yields c sink s3 y' := hy'.quiet hq3 (fun _ _ => trivial) hsinkCursor
    have hf3 : Frame (o.Outside c sink b) (o.OutsideCursor sink) s s3 :=
      (hf.trans hf2).trans (hq3.toFrame.mono (fun _ _ => trivial) fun k hk hkt =>
        hk.1 (.inr ⟨t, ht, hkt.symm⟩))
    cases rest with
    | nil => exact ⟨.inl hnext, hy3.received, hf3⟩
    | cons next rest =>
      obtain ⟨rfl, hdrains3⟩ := hnext
      exact ⟨rfl, hdrains3, hy3, hf3, fun r hr => hlength r (List.mem_cons_of_mem _ hr)⟩

/-- **The destination receives the window of the sorted rows.** -/
theorem emitDrain_leads {descending : List Bool} {x : Progress} (h : (o.emitDrain c d done).Gives b () b')
    (hb : b.Valid) (hend : b'.Begins σ.final) (hl : done < b.labels.size) (hat : σ.At done a)
    (hlaid : o.Laid c sink b) (ht : o.sorting = some t) (hx : o.Carries c sink descending s x)
    (hlength : ∀ row ∈ x.pending, (row.length : Int) = t.keys.length + o.width) :
    σ.Leads (fun pc s' => (pc = b'.address ∨ pc = a) ∧ sink.Received (x.out ++ x.window.apply
        (o.distinct.fresh none (sorted t descending x.pending))) s' ∧
      Frame (o.Outside c sink b) (o.OutsideCursor sink) s s') b.address s := by
  unfold emitDrain at h
  simp only [ht, gives_bind, gives_jump, gives_labelHere, gives_newLabel, gives_op,
    gives_bindHere] at h
  obtain ⟨_, b1, hb1, head, b2, ⟨rfl, hb2⟩, skip, b3, ⟨rfl, rfl⟩, _, b4, rfl, _, b5, hfields, _,
    b6, hcompare, _, b7, hskip, _, b8, hemit, _, b9, hstop, _, b10, rfl, rfl⟩ := h
  have h1 : b.Grows b1 := hb1 ▸ (Builder.Grows.refl hb).emitJump ..
  have h12 : b1.Grows b2 := hb2 ▸ (Builder.Grows.refl h1.valid).newLabel.bindHere (Nat.le_refl _)
  have h23 := (Builder.Grows.refl h12.valid).newLabel
  have h4 := (Builder.Grows.refl h23.valid).emit (.plain .sorterData t.cursor t.record 0)
  have h5 := h4.trans (hfields.grows h4.valid)
  have h6 := h5.trans (hcompare.grows h5.valid)
  have h7 := h6.trans (hskip.grows h6.valid)
  have h8 := h7.trans (sink.grows hemit h7.valid)
  have h9 := h8.trans (hstop.grows h8.valid)
  have hend9 := (Builder.Begins.bindHere (h9.unbound (Builder.lt_newLabel _)
    (Builder.target?_newLabel _))).trans ((Builder.Begins.emitJump ..).trans hend)
  have hend2 := (h23.trans h9).begins.trans hend9
  have hhead : b1.labels.size < b2.labels.size := by
    rw [hb2, Builder.labels_size_bindHere]
    exact Builder.lt_newLabel b1
  have hatHead : σ.At b1.labels.size b2.address := by
    have hbind := hend2
    rw [hb2] at hbind
    have hat1 := Setting.at_of_bindHere hbind (Builder.lt_newLabel b1)
    rw [hb2]
    exact hat1
  have hlaid3 := hlaid.grows ((h1.trans h12).trans h23)
  have hf3 : ∀ {s s' : State}, Frame (o.Outside c sink b2.newLabel.2) (o.OutsideCursor sink) s s' →
      Frame (o.Outside c sink b) (o.OutsideCursor sink) s s' := fun hf =>
    hf.mono (fun r hr => ⟨((h1.trans h12).trans h23).holds r hr.1, hr.2⟩) fun _ h => h
  have hend1 : (b.emitJump .sorterSort t.cursor 0 done .empty 0).Begins σ.final :=
    hb1 ▸ h12.begins.trans hend2
  refine (sorterSort_leads hend1 hl hat (hx.pending ht)).bind ?_
  rintro pc s1 ⟨hq1, hcase⟩
  have hf1 : Frame (o.Outside c sink b) (o.OutsideCursor sink) s s1 :=
    hq1.toFrame.mono (fun _ _ => trivial) fun k hk hkt => hk.1 (.inr ⟨t, ht, hkt.symm⟩)
  have hyields : o.Yields c sink s1 (none, x.window, x.out) := by
    refine ⟨fun first previous ho => ?_, hx.counts.congr (fun r _ => hq1.get r trivial)
      fun r _ => hq1.get r trivial, hx.keep, ?_⟩
    · show s1.number first = 1
      rw [State.number, hq1.get first trivial]
      exact hx.first ho
    · exact sink.stable hx.received (hq1.mono (fun _ _ => trivial) fun k hk hkt =>
        hlaid.sink_cursors k hk (.inr ⟨t, ht, hkt.symm⟩))
  have hwindow : x.out ++ x.window.apply (o.distinct.fresh none (sorted t descending x.pending)) =
      Distinct.passed ((sortRows t.keys.length descending x.pending).foldlM
        (fun y row => o.distinct.emerge y (row.drop t.keys.length)) (none, x.window, x.out)) := by
    rw [← Window.foldlM_step _ _ _ hx.keep, ← Distinct.foldlM_emerge, sorted, List.foldlM_map]
  have hrows : ∀ row ∈ sortRows t.keys.length descending x.pending,
      (row.length : Int) = t.keys.length + o.width := fun row hrow =>
    hlength row (List.mem_mergeSort.mp hrow)
  rw [hwindow]
  cases hsorted : sortRows t.keys.length descending x.pending with
  | nil =>
    rw [if_pos (sortRows_eq_nil.mp hsorted)] at hcase
    exact .here ⟨.inr hcase, hyields.received, hf1⟩
  | cons row rows =>
    have hsome : x.pending ≠ [] := by
      intro hempty
      rw [sortRows_eq_nil.mpr hempty] at hsorted
      cases hsorted
    rw [if_neg hsome, hsorted] at hcase
    rw [hsorted] at hrows
    obtain ⟨hpc, hdrains⟩ := hcase
    have hpc : pc = b2.newLabel.2.address := by
      rw [hpc, hb2, hb1]
      exact (Builder.address_emitJump ..).symm
    rw [hpc]
    refine (drainRows_leads hfields hcompare hskip hemit hstop h23.valid hend h9
      (Builder.lt_newLabel _) (Builder.target?_newLabel _)
      (Nat.lt_trans hhead (Builder.lt_newLabel _)) hatHead
      (Nat.lt_of_lt_of_le hl ((h1.trans h12).trans h23).labels_le) hat hlaid3 ht hrows hdrains
      hyields).mono ?_
    rintro pc s2 ⟨hpc, hreceived, hf2⟩
    rw [Builder.address_emitJump]
    exact ⟨hpc, hreceived, hf1.trans (hf3 hf2)⟩

end Output

end QueryMachine
