import QueryMachine.Proofs.Compile.Delivery

/-!
# Queries without grouping

A scan with a filter sends each row on to the output.

* `emitPlain_leads` — the destination receives the window of the rows that the output delivers.
-/

namespace QueryMachine

open Machine Emit

variable {σ : Setting} {b b' : Builder} {s s' : State} {p : Plan} {d : Destination}
  {sink : Sink σ d}

/-- The parts of the code of a plan without grouping. -/
theorem emitPlain_gives (h : (emitPlain p d).Gives b () b') :
    ∃ b1 c b3 o b4 scanEnd b5 b6 b7 b8, (emitOpenSources p.sources).Gives b () b1 ∧
      (emitCounters p b1.labels.size).Gives b1.newLabel.2 c b3 ∧
      (Output.prepare p (!p.orderBy.isEmpty)).Gives b3 o b4 ∧
      (if o.sorting.isSome then scanEnd = b4.labels.size ∧ b5 = b4.newLabel.2
        else scanEnd = b1.labels.size ∧ b5 = b4) ∧
      (emitScan p.sources scanEnd fun skip => do
        emitFilter [] skip p.filter
        o.emitRow p.projection [] c d skip b1.labels.size).Gives b5 () b6 ∧
      (if o.sorting.isSome then (o.emitDrain c d b1.labels.size).Gives (b6.bindHere scanEnd) () b7
        else b7 = b6) ∧
      (emitClose o.ownCursors).Gives (b7.bindHere b1.labels.size) () b8 ∧
      (emitCloseSources p.sources).Gives b8 () b' := by
  simp only [emitPlain, gives_bind, gives_newLabel] at h
  obtain ⟨_, b1, hopen, done, b2, ⟨rfl, rfl⟩, c, b3, hcounters, o, b4, hprepare, h⟩ := h
  cases hs : o.sorting.isSome with
  | false =>
    simp only [hs, Bool.false_eq_true, if_false, gives_bind, gives_pure, gives_bindHere,
      Output.emitCloseAll_eq] at h
    obtain ⟨scanEnd, b5, hscanEnd, _, b6, hscan, _, b7, rfl, _, b8, hclose, hcloseSources⟩ := h
    refine ⟨b1, c, b3, o, b4, scanEnd, b5, b6, b6, b8, hopen, hcounters, hprepare, ?_, hscan, ?_,
      hclose, hcloseSources⟩
    · rwa [hs]
    · simp [hs]
  | true =>
    simp only [hs, if_true, gives_bind, gives_newLabel, gives_bindHere, Output.emitCloseAll_eq] at h
    obtain ⟨scanEnd, b5, hscanEnd, _, b6, hscan, _, b6', rfl, _, b7, hdrain, _, b7', rfl, _, b8,
      hclose, hcloseSources⟩ := h
    refine ⟨b1, c, b3, o, b4, scanEnd, b5, b6, b7, b8, hopen, hcounters, hprepare, ?_, hscan, ?_,
      hclose, hcloseSources⟩
    · rwa [hs]
    · rwa [hs]

variable {o : Output} {c : Counters} {descending : List Bool} {x : Progress}
  {walks : List (List (Position × Entry))}

/-- The state of a scan that began in `s0`: what came of the rows so far, and what is left alone. -/
structure Underway (p : Plan) (o : Output) (c : Counters) {d : Destination} (sink : Sink σ d)
    (descending : List Bool) (b : Builder) (walks : List (List (Position × Entry))) (s0 : State)
    (y : Progress) (s : State) : Prop where
  carries : o.Carries c sink descending s y
  frame : Frame (o.Outside c sink b) (fun k => o.OutsideCursor sink k ∧ k ∉ p.cursors) s0 s
  walks : List.Forall₂ (fun source walk => s.Walks source.cursor walk) p.sources walks

namespace Underway

variable {s0 : State}

/-- Moving a cursor of the scan. -/
theorem move (h : Underway p o c sink descending b walks s0 x s) (hcursors : ∀ k ∈ p.cursors, o.OutsideCursor sink k)
    {k : Int} (hk : k ∈ p.cursors) (position : Option Position) :
    Underway p o c sink descending b walks s0 x (s.setPosition k position) := by
  have hq := State.quiet_setPosition s k position
  have hne : ∀ j, sink.cursors j ∨ o.OwnsCursor j → j ≠ k := by
    rintro j hj rfl
    exact hj.elim (hcursors j hk).2 (hcursors j hk).1
  refine ⟨?_, h.frame.trans (hq.toFrame.mono (fun _ _ => trivial) fun j hj hjk => ?_), ?_⟩
  · refine h.carries.after hq (fun _ _ => trivial) (fun j hj => hne j (.inl hj)) (fun ho => ?_) fun ht => ?_
    · exact (hq.cursors _ (hne _ (.inr (.inl ho)))).trans (h.carries.seen ho)
    · exact (h.carries.pending ht).congr (hq.cursors _ (hne _ (.inr (.inr ⟨_, ht, rfl⟩))))
  · exact hj.2 (hjk ▸ hk)
  · exact h.walks.imp fun source walk hwalk => hwalk.setPosition k position

theorem quiet (h : Underway p o c sink descending b walks s0 x s) (hlaid : o.Laid c sink b)
    (hq : Quiet b.Holds (fun _ => True) s s') : Underway p o c sink descending b walks s0 x s' := by
  refine ⟨?_, h.frame.trans (hq.toFrame.mono (fun r hr => hr.1) fun _ _ => trivial), ?_⟩
  · refine h.carries.after hq (fun r hr => (hlaid.clear hr).held) (fun _ _ => trivial) (fun ho => ?_) fun ht => ?_
    · exact (hq.cursors _ trivial).trans (h.carries.seen ho)
    · exact (h.carries.pending ht).congr (hq.cursors _ trivial)
  · exact h.walks.imp fun source walk hwalk => hwalk.congr hq.store (hq.cursors _ trivial)

/-- A row that passes the filter goes to the output. -/
theorem row_leads [σ.Lenient] {skip done : Label} {b1 b2 : Builder} {a a' : Nat} {read : Place → Value}
    (h : Underway p o c sink descending b walks s0 x s)
    (hrow : (o.emitRow p.projection [] c d skip done).Gives b1 () b2) (hg : b.Grows b1) (hend : b2.Begins σ.final)
    (hl : skip < b1.labels.size) (hat : σ.At skip a) (hl' : done < b.labels.size) (hat' : σ.At done a')
    (hp : p.Scoped) (hlaid : o.Laid c sink b) (hwidth : o.width = p.width)
    (hkeys : ∀ {t}, o.sorting = some t → t.keys = p.orderBy.map (·.1))
    (hcursors : ∀ k ∈ p.cursors, o.OutsideCursor sink k)
    (hreads : ∀ q : Place, q.cursor ∈ p.cursors → s.Shows q (read q) ∨ s.Hides σ.Admits q) :
    σ.Leads (Ends (fun y s' => Underway p o c sink descending b walks s0 y s' ∧
        ∀ source ∈ p.sources, s'.cursors.get? source.cursor = s.cursors.get? source.cursor)
      (fun out s' => sink.Received out s' ∧
        Frame (o.Outside c sink b) (fun k => o.OutsideCursor sink k ∧ k ∉ p.cursors) s0 s')
      (fun pc => pc = b2.address ∨ pc = a) a' (o.arrive (p.keyed read).1 (p.keyed read).2 x)) b1.address s := by
  have hcolumns : List.Forall₂ (Denotes σ.Admits [] s) p.projection (p.keyed read).2 := by
    rw [Plan.keyed, List.forall₂_map_right_iff, List.forall₂_same]
    exact fun e he => denotes_eval e fun q hq => hreads q (hp.projection e he q hq)
  have hvalues : ∀ t, o.sorting = some t →
      List.Forall₂ (Denotes σ.Admits [] s) t.keys (p.keyed read).1 := by
    intro t ht
    rw [hkeys ht]
    have hmap : (p.keyed read).1 = (p.orderBy.map (·.1)).map (·.eval read) := by
      simp [Plan.keyed]
    rw [hmap, List.forall₂_map_right_iff, List.forall₂_same]
    exact fun e he => denotes_eval e fun q hq => hreads q (hp.orderBy e he q hq)
  have hplaces : ∀ t, o.sorting = some t → ∀ e ∈ t.keys, ∀ q ∈ e.places,
      o.OutsideCursor sink q.cursor := by
    intro t ht e he q hq
    rw [hkeys ht] at he
    exact hcursors _ (hp.orderBy e he q hq)
  have hframe : ∀ {s'}, Frame (o.Outside c sink b1) (o.OutsideCursor sink) s s' →
      Frame (o.Outside c sink b) (fun k => o.OutsideCursor sink k ∧ k ∉ p.cursors) s0 s' :=
    fun hf => h.frame.trans (hf.mono (fun r hr => ⟨hg.holds r hr.1, hr.2⟩) fun _ hk => hk.1)
  refine (Output.emitRow_leads hrow hg.valid hend hl hat (Nat.lt_of_lt_of_le hl' hg.labels_le) hat'
    (hlaid.grows hg) hwidth (fun q hq => (List.not_mem_nil hq).elim) hplaces h.carries hcolumns
    hvalues).mono ?_
  intro pc s' hends
  revert hends
  cases o.arrive (p.keyed read).1 (p.keyed read).2 x with
  | error out =>
    rintro ⟨⟨hout, hf⟩, hpc⟩
    exact ⟨⟨hout, hframe hf⟩, hpc⟩
  | ok y =>
    rintro ⟨⟨hy, hf⟩, hpc⟩
    have hsame : ∀ source ∈ p.sources,
        s'.cursors.get? source.cursor = s.cursors.get? source.cursor := fun source hin =>
      hf.cursors _ (hcursors _ (List.mem_map_of_mem hin))
    have hwalks := (List.forall₂_and_left _ _).mpr ⟨hsame, h.walks⟩
    exact ⟨⟨⟨hy, hframe hf, hwalks.imp fun _ _ hboth => hboth.2.congr hf.store hboth.1⟩, hsame⟩, hpc⟩

end Underway

variable {w : Window} {out : List (List Value)} {scanEnd done : Label}

/-- The rows of a plan go to the output: code for each row of a scan. -/
abbrev emitPlainScan (p : Plan) (o : Output) (c : Counters) (d : Destination) (scanEnd done : Label) : Emit Unit :=
  emitScan p.sources scanEnd fun skip => do
    emitFilter [] skip p.filter
    o.emitRow p.projection [] c d skip done

/-- The destination received the window of the rows, and what is not the output's own was left alone. -/
def Delivered (p : Plan) (o : Output) (c : Counters) {d : Destination} (sink : Sink σ d) (descending : List Bool)
    (b : Builder) (walks : List (List (Position × Entry))) (w : Window) (out : List (List Value)) (s s' : State) :
    Prop :=
  sink.Received (out ++ w.apply (o.deliver descending ((p.found (walks.map (·.map (·.2)))).map p.keyed))) s' ∧
    Frame (o.Outside c sink b) (fun k => o.OutsideCursor sink k ∧ k ∉ p.cursors) s s'

section

variable [σ.Lenient] (hb : b.Valid) (hend : b'.Begins σ.final) (hp : p.Scoped) (hlaid : o.Laid c sink b)
  (hwidth : o.width = p.width) (hcursors : ∀ k ∈ p.cursors, o.OutsideCursor sink k)
  (hwalks : List.Forall₂ (fun source walk => s.Walks source.cursor walk) p.sources walks)
  (hparked : Parked s p.sources)

include hb hend hp hlaid hwidth hcursors hwalks hparked

/-- The scan brings every row that the filter lets pass to the output. -/
theorem plainScan_leads {a a' : Nat} (h : (emitPlainScan p o c d scanEnd done).Gives b () b')
    (hl : scanEnd < b.labels.size) (hat : σ.At scanEnd a) (hl' : done < b.labels.size) (hat' : σ.At done a')
    (hkeys : ∀ {t}, o.sorting = some t → t.keys = p.orderBy.map (·.1)) (hx : o.Carries c sink descending s x) :
    σ.Leads (Ends (fun y s' => Underway p o c sink descending b walks s y s' ∧ Parked s' p.sources)
      (fun out s' => sink.Received out s' ∧
        Frame (o.Outside c sink b) (fun k => o.OutsideCursor sink k ∧ k ∉ p.cursors) s s')
      (fun pc => pc = b'.address ∨ pc = a) a' (((p.found (walks.map (·.map (·.2)))).map p.keyed).foldlM
        (fun x row => o.arrive row.1 row.2 x) x)) b.address s := by
  unfold Plan.found
  rw [List.map_map, List.foldlM_map]
  refine emitFilteredScan_leads h hb hend hl hat hp.nodup hp.filter ?_ ?_ ?_ ?_
    ⟨hx, .refl s, hwalks⟩ hparked
  · exact fun y s1 hinv => hinv.walks
  · exact fun y s1 k position hinv hk => hinv.move hcursors hk position
  · exact fun y s1 s2 hinv hq => hinv.quiet hlaid hq
  · intro skip b1 b2 a1 hrow hg hend2 hl1 hat1 y s1 combination hinv hreads
    exact hinv.row_leads hrow hg hend2 hl1 hat1 hl' hat' hp hlaid hwidth hkeys hcursors hreads

/-- Without ORDER BY the rows go straight to the destination. -/
theorem plainRows_unsorted (h : (emitPlainScan p o c d done done).Gives b () b') (hl : done < b.labels.size)
    (hat : σ.At done b'.address) (hsorting : o.sorting = none) (hx : o.Carries c sink descending s ⟨[], [], w, out⟩) :
    σ.Leads (fun pc s' => pc = b'.address ∧ Delivered p o c sink descending b walks w out s s') b.address s := by
  have hkeys : ∀ {t}, o.sorting = some t → t.keys = p.orderBy.map (·.1) := by
    intro t ht
    rw [hsorting] at ht
    cases ht
  have hresult := Output.foldlM_arrive_unsorted hsorting
    ((p.found (walks.map (·.map (·.2)))).map p.keyed) ⟨[], [], w, out⟩
  rw [Window.foldlM_step _ _ _ hx.keep] at hresult
  have hdeliver : o.deliver descending ((p.found (walks.map (·.map (·.2)))).map p.keyed) =
      (o.distinct.admitted (·.2) [] ((p.found (walks.map (·.map (·.2)))).map p.keyed)).map (·.2) := by
    simp only [Output.deliver, hsorting]
  unfold Delivered
  rw [hdeliver, ← hresult]
  refine (plainScan_leads hb hend hp hlaid hwidth hcursors hwalks hparked h hl hat hl hat hkeys hx).mono ?_
  intro pc s' hends
  revert hends
  cases List.foldlM (fun x row => o.arrive row.1 row.2 x) ⟨[], [], w, out⟩
      ((p.found (walks.map (·.map (·.2)))).map p.keyed) with
  | error out' =>
    rintro ⟨⟨hout, hf⟩, hpc⟩
    exact ⟨hpc, hout, hf⟩
  | ok y =>
    rintro ⟨⟨hy, -⟩, hpc⟩
    exact ⟨hpc.elim id id, hy.carries.received, hy.frame⟩

/-- With ORDER BY the rows are put aside first, and then drained. -/
theorem plainRows_sorted {b1 : Builder} {t : Sorting} (h : (emitPlainScan p o c d scanEnd done).Gives b () b1)
    (hdrain : (o.emitDrain c d done).Gives (b1.bindHere scanEnd) () b') (hl : scanEnd < b.labels.size)
    (hnone : b.target? scanEnd = none) (hl' : done < b.labels.size) (hat : σ.At done b'.address)
    (hsorting : o.sorting = some t) (hkeys : t.keys = p.orderBy.map (·.1))
    (hx : o.Carries c sink descending s ⟨[], [], w, out⟩) :
    σ.Leads (fun pc s' => pc = b'.address ∧ Delivered p o c sink descending b walks w out s s') b.address s := by
  have h1 := h.grows hb
  have hvalid : (b1.bindHere scanEnd).Valid := h1.valid
  have hend1 := (hdrain.grows hvalid).begins.trans hend
  have hatEnd := Setting.at_of_bindHere hend1 (Nat.lt_of_lt_of_le hl h1.labels_le)
  have hend0 := (Builder.Begins.bindHere (h1.unbound hl hnone)).trans hend1
  have hkeys' : ∀ {t}, o.sorting = some t → t.keys = p.orderBy.map (·.1) := by
    intro t' ht
    rw [hsorting] at ht
    cases ht
    exact hkeys
  obtain ⟨seen, hfold⟩ := Output.foldlM_arrive_sorted (by rw [hsorting]; rfl)
    ((p.found (walks.map (·.map (·.2)))).map p.keyed) ⟨[], [], w, out⟩
  have hscan := plainScan_leads hb hend0 hp hlaid hwidth hcursors hwalks hparked h hl hatEnd hl' hat hkeys' hx
  rw [hfold] at hscan
  refine hscan.bind ?_
  rintro pc s1 ⟨⟨hy, -⟩, hpc⟩
  have hpc : pc = (b1.bindHere scanEnd).address := hpc.elim id id
  have hlaid1 : o.Laid c sink (b1.bindHere scanEnd) :=
    { hlaid with
      held := fun r hr => h1.holds r (hlaid.held r hr)
      sink_held := fun r hr => h1.holds r (hlaid.sink_held r hr) }
  have hlDone : done < (b1.bindHere scanEnd).labels.size := by
    rw [Builder.labels_size_bindHere]
    exact Nat.lt_of_lt_of_le hl' h1.labels_le
  rw [hpc]
  refine (Output.emitDrain_leads hdrain hvalid hend hlDone hat hlaid1 hsorting hy.carries ?_).mono ?_
  · intro row hrow
    obtain ⟨keyed, hin, rfl⟩ := List.mem_map.mp hrow
    obtain ⟨read, -, rfl⟩ := List.mem_map.mp ((Distinct.admitted_sublist ..).subset hin)
    simp [Plan.keyed, hkeys, hwidth, Plan.width]
  · rintro pc s2 ⟨hpc, hreceived, hf⟩
    refine ⟨hpc.elim id id, ?_, hy.frame.trans (hf.mono (fun r hr => ⟨h1.holds r hr.1, hr.2⟩)
      fun _ hk => hk.1)⟩
    simp only [Output.deliver, hsorting]
    exact hreceived

end

/-! ## The whole code -/

section

variable {b1 b2 b3 b4 : Builder} (hprepare : (Output.prepare p (!p.orderBy.isEmpty)).Gives b o b1)
  (hscanEnd : if o.sorting.isSome then scanEnd = b1.labels.size ∧ b2 = b1.newLabel.2 else scanEnd = done ∧ b2 = b1)
  (hscan : (emitPlainScan p o c d scanEnd done).Gives b2 () b3)
  (hdrain : if o.sorting.isSome then (o.emitDrain c d done).Gives (b3.bindHere scanEnd) () b4 else b4 = b3)
  (hb : b.Valid)

include hprepare hscanEnd hscan hdrain hb

theorem plainRows_grows : b1.Grows b2 ∧ b2.Begins b4 ∧ b.Grows b4 := by
  have h1 := (Output.prepare_spec hprepare hb).grows
  cases hs : o.sorting.isSome with
  | false =>
    simp only [hs, Bool.false_eq_true, if_false] at hscanEnd hdrain
    obtain ⟨rfl, rfl⟩ := hscanEnd
    have h3 := hscan.grows h1.valid
    rw [hdrain]
    exact ⟨.refl h1.valid, h3.begins, h1.trans h3⟩
  | true =>
    simp only [hs, if_true] at hscanEnd hdrain
    obtain ⟨rfl, rfl⟩ := hscanEnd
    have h2 := (Builder.Grows.refl h1.valid).newLabel
    have h3 := hscan.grows h2.valid
    have hbound := ((h1.trans h2).trans h3).bindHere h1.labels_le
    have h4 := hdrain.grows hbound.valid
    have hunbound := h3.unbound (Builder.lt_newLabel b1) (Builder.target?_newLabel b1)
    exact ⟨h2, h3.begins.trans ((Builder.Begins.bindHere hunbound).trans h4.begins), hbound.trans h4⟩

/-- Once the counters are loaded, the destination receives the rows. -/
theorem plainRows_leads [σ.Lenient] (hend : b4.Begins σ.final) (hl : done < b.labels.size)
    (hat : σ.At done b4.address) (hp : p.Scoped) (hbelow : ∀ k ∈ p.cursors, k < b.cursors) (hapart : c.Apart)
    (hcounters : ∀ r, c.limit = some r ∨ c.offset = some r → b.Holds r ∧ ¬ sink.registers r)
    (hsink : ∀ r, sink.registers r → b.Holds r) (hcursors : ∀ k, sink.cursors k → k < b.cursors ∧ k ∉ p.cursors)
    (hw : c.Counts s w) (hkeep : w.keep ≠ some 0) (hout : sink.Received out s)
    (hwalks : List.Forall₂ (fun source walk => s.Walks source.cursor walk) p.sources walks)
    (hparked : Parked s p.sources) : σ.Leads (fun pc s' => pc = b4.address ∧
      sink.Received (out ++ w.apply (o.deliver p.descending ((p.found (walks.map (·.map (·.2)))).map p.keyed))) s')
      b.address s := by
  have hprepared := Output.prepare_spec hprepare hb
  have h1 := hprepared.grows
  have hlaid := hprepared.laid hb hapart hcounters hsink fun k hk => (hcursors k hk).1
  have hoc : ∀ k, k < b.cursors → ¬ o.OwnsCursor k := by
    intro k hk howns
    have hle := hprepared.owns_cursor k howns
    omega
  have houtside : ∀ k ∈ p.cursors, o.OutsideCursor sink k := fun k hk =>
    ⟨hoc k (hbelow k hk), fun hs => (hcursors k hs).2 hk⟩
  have hrest : ∀ {s1 : State}, Quiet b.Holds (· < b.cursors) s s1 →
      o.Carries c sink p.descending s1 ⟨[], [], w, out⟩ →
      σ.Leads (fun pc s' => pc = b4.address ∧ Delivered p o c sink p.descending b2 walks w out s1 s') b1.address s1 := by
    intro s1 hq hx
    have hkept : ∀ source ∈ p.sources,
        s1.cursors.get? source.cursor = s.cursors.get? source.cursor := fun source hin =>
      hq.cursors _ (hbelow _ (List.mem_map_of_mem hin))
    have hwalks1 := ((List.forall₂_and_left _ _).mpr ⟨hkept, hwalks⟩).imp
      fun source walk hboth => hboth.2.congr hq.store hboth.1
    have hparked1 : Parked s1 p.sources := fun source hin => by
      rw [hkept source hin]
      exact hparked source hin
    cases ho : o.sorting with
    | none =>
      simp only [ho, Option.isSome_none, Bool.false_eq_true, if_false] at hscanEnd hdrain
      obtain ⟨rfl, rfl⟩ := hscanEnd
      subst hdrain
      exact plainRows_unsorted h1.valid hend hp hlaid hprepared.width houtside hwalks1 hparked1 hscan
        (Nat.lt_of_lt_of_le hl h1.labels_le) hat ho hx
    | some t =>
      simp only [ho, Option.isSome_some, if_true] at hscanEnd hdrain
      obtain ⟨rfl, rfl⟩ := hscanEnd
      have h2 := (Builder.Grows.refl h1.valid).newLabel
      exact plainRows_sorted h2.valid hend hp (hlaid.grows h2) hprepared.width houtside hwalks1 hparked1 hscan hdrain
        (Builder.lt_newLabel b1) (Builder.target?_newLabel b1) (Nat.lt_of_lt_of_le hl (h1.trans h2).labels_le) hat ho
        (hprepared.keys ho) hx
  obtain ⟨h2, hbegins, -⟩ := plainRows_grows hprepare hscanEnd hscan hdrain hb
  refine (Output.prepare_leads hprepare hb ((h2.begins.trans hbegins).trans hend)
    (fun r hr => (hcounters r hr).1) hsink (fun k hk => (hcursors k hk).1) hw hkeep hout).bind ?_
  rintro pc s1 ⟨rfl, hq, hx⟩
  refine (hrest hq hx).mono ?_
  rintro pc s2 ⟨hpc, hreceived, -⟩
  exact ⟨hpc, hreceived⟩

end

/-- **The destination receives the window of the rows that the output delivers.** -/
theorem emitPlain_leads [σ.Lenient] (h : (emitPlain p d).Gives b () b') (hb : b.Valid) (hend : b'.Begins σ.final)
    (hp : p.Scoped) (hbelow : ∀ k ∈ p.cursors, k < b.cursors) (hsink : ∀ r, sink.registers r → b.Holds r)
    (hcursors : ∀ k, sink.cursors k → k < b.cursors ∧ k ∉ p.cursors)
    (hready : List.Forall₂ (Source.Ready s) p.sources walks) (hout : sink.Received out s) :
    ∃ o b1 b2, Output.Prepared p (!p.orderBy.isEmpty) o b1 b2 ∧ σ.Leads (fun pc s' => pc = b'.address ∧
        sink.Received (out ++ p.window.apply (o.deliver p.descending
          ((p.found (walks.map (·.map (·.2)))).map p.keyed))) s') b.address s := by
  obtain ⟨b1, c, b3, o, b4, scanEnd, b5, b6, b7, b8, hopen, hcounters, hprepare, hscanEnd, hscan,
    hdrain, hclose, hcloseSources⟩ := emitPlain_gives h
  have h1 := hopen.grows hb
  have h2 := h1.newLabel
  have h23 := hcounters.grows h2.valid
  obtain ⟨hapart, hcounterRegisters⟩ := emitCounters_new hcounters h2.valid
  have h3 := h2.trans h23
  have hprepared := Output.prepare_spec hprepare h3.valid
  have h37 := (plainRows_grows hprepare hscanEnd hscan hdrain h3.valid).2.2
  have h27 := h23.trans h37
  have hbound := (h1.newLabel.trans h27).bindHere h1.labels_le
  have h8 := hclose.grows hbound.valid
  have h9 := hcloseSources.grows h8.valid
  have hend8 := h9.begins.trans hend
  have hendDone := h8.begins.trans hend8
  have hend7 := (Builder.Begins.bindHere (h27.unbound (Builder.lt_newLabel b1)
    (Builder.target?_newLabel b1))).trans hendDone
  have hat : σ.At b1.labels.size b7.address :=
    Setting.at_of_bindHere hendDone (Nat.lt_of_lt_of_le (Builder.lt_newLabel b1) h27.labels_le)
  have hbelow3 : ∀ k ∈ p.cursors, k < b3.cursors := fun k hk =>
    Int.lt_of_lt_of_le (hbelow k hk) h3.cursors
  have hcursors3 : ∀ k, sink.cursors k → k < b3.cursors ∧ k ∉ p.cursors := fun k hk =>
    ⟨Int.lt_of_lt_of_le (hcursors k hk).1 h3.cursors, (hcursors k hk).2⟩
  have hsink3 : ∀ r, sink.registers r → b3.Holds r := fun r hr => h3.holds r (hsink r hr)
  have hend3 := h37.begins.trans hend7
  have hend1 := (Builder.Begins.newLabel b1).trans (h23.begins.trans hend3)
  have hoc : ∀ k, k < b.cursors → k ∉ o.ownCursors := by
    intro k hk howns
    have hle := hprepared.owns_cursor k (Output.mem_ownCursors.mp howns)
    have hcur := h3.cursors
    omega
  refine ⟨o, b3, b4, hprepared, ?_⟩
  -- Whatever was received, the cursors are closed in the end.
  have hclosing : ∀ {s3 : State} {rows : List (List Value)}, sink.Received rows s3 →
      σ.Leads (fun pc s' => pc = b'.address ∧ sink.Received rows s') b7.address s3 := by
    intro s3 rows hreceived
    refine (emitClose_leads hclose hbound.valid hend8).bind ?_
    rintro pc s4 ⟨rfl, hq4⟩
    refine (emitClose_leads hcloseSources h8.valid hend).mono ?_
    rintro pc s5 ⟨rfl, hq5⟩
    have hsources : ∀ k, k ∉ p.cursors →
        k ∉ (p.sources.filter fun source => source.table.isSome).map (·.cursor) := fun k hk hin =>
      hk (List.map_subset _ (List.filter_subset_self _) hin)
    have hq : Quiet (fun _ => True) (fun k => k < b.cursors ∧ k ∉ p.cursors) s3 s5 :=
      .trans (hq4.mono (fun _ h => h) fun k hk => hoc k hk.1)
        (hq5.mono (fun _ h => h) fun k hk => hsources k hk.2)
    exact ⟨rfl, sink.stable hreceived (hq.mono (fun _ _ => trivial) hcursors)⟩
  refine (emitOpenSources_leads hopen hb hend1 hp.nodup hready).bind ?_
  rintro pc s1 ⟨rfl, hq1, hparked1, hwalks1⟩
  refine (emitCounters_leads hcounters h2.valid hend3 (Builder.lt_newLabel b1) hat
    (fun e he => Expr.places_of_refs (hp.limit e he))
    fun e he => Expr.places_of_refs (hp.offset e he)).bind ?_
  rintro pc s2 ⟨hq2, hcase⟩
  have hq : Quiet b.Holds (fun k => k ∉ p.cursors) s s2 :=
    .trans (hq1.mono (fun _ _ => trivial) fun _ h => h)
      (hq2.mono (fun r hr => h2.holds r hr) fun _ _ => trivial)
  have hreceived2 : sink.Received out s2 :=
    sink.stable hout (hq.mono hsink fun k hk => (hcursors k hk).2)
  by_cases hzero : p.window.keep = some 0
  · -- A LIMIT of zero: no row is looked at.
    rw [if_pos hzero] at hcase
    rw [hcase]
    have hnone : ∀ rows : List (List Value), p.window.apply rows = [] := by
      intro rows
      simp [Window.apply, hzero]
    rw [hnone, List.append_nil]
    exact hclosing hreceived2
  · rw [if_neg hzero] at hcase
    obtain ⟨rfl, hcounts⟩ := hcase
    have hwalks2 := hwalks1.imp fun source walk hwalk => hwalk.congr hq2.store (hq2.cursors _ trivial)
    have hparked2 : Parked s2 p.sources := fun source hin => by
      rw [hq2.cursors _ trivial]
      exact hparked1 source hin
    have hnew : ∀ r, c.limit = some r ∨ c.offset = some r → b3.Holds r ∧ ¬ b.Holds r := fun r hr =>
      ⟨(hcounterRegisters r hr).1, fun hheld => (hcounterRegisters r hr).2 (h2.holds r hheld)⟩
    refine (plainRows_leads hprepare hscanEnd hscan hdrain h3.valid hend7
      (Nat.lt_of_lt_of_le (Builder.lt_newLabel b1) h23.labels_le) hat hp hbelow3 hapart
      (fun r hr => ⟨(hnew r hr).1, fun hs => (hnew r hr).2 (hsink r hs)⟩) hsink3 hcursors3 hcounts
      hzero hreceived2 hwalks2 hparked2).bind ?_
    rintro pc s3 ⟨rfl, hreceived3⟩
    exact hclosing hreceived3

end QueryMachine
