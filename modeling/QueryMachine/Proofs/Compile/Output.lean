import QueryMachine.Proofs.Compile.Scan
import QueryMachine.Proofs.Compile.Sorter
import QueryMachine.Proofs.Compile.Window
import QueryMachine.Proofs.Record

/-!
# The way of a row to its destination

After the filter a row is dropped if it came before and the query is DISTINCT; then it is put aside
in a sorter, or it goes through the window of OFFSET and LIMIT to its destination.

* `Sink` — a destination, with what it has received so far.
* `Progress`, `Output.arrive` — what has happened to the rows so far, and what one more row does.
* `Output.Carries` — registers and cursors hold that state.
* `Output.emitRow_leads` — the code for one row does what `arrive` says.
-/

namespace QueryMachine

open Machine Emit

variable {σ : Setting} {b b' : Builder} {s s' : State}

/-! ## Records -/

theorem applyAffinities_nil (values : List Value) : applyAffinities [] values = values := by
  cases values <;> rfl

/-- A record of a block is made, unless the values do not fit into one. -/
theorem makeRecord_leads [σ.Lenient] {first count target : Int}
    (hend : (b.emit (.plain .makeRecord first count target)).Begins σ.final) :
    σ.Leads (fun pc s' => pc = (b.emit (.plain .makeRecord first count target)).address ∧
      ∃ bytes, Record.decode bytes = .ok (s.getBlock first count) ∧ s' = s.set target (.blob bytes)) b.address s := by
  cases hencode : Record.encode (s.getBlock first count) with
  | error e =>
    refine .failed hend ?_ (σ.admits_rejected e)
    simp only [execute, Instruction.plain, makeRecord, applyAffinities_nil, hencode]
  | ok bytes =>
    refine .op hend rfl (t := s.set target (.blob bytes)) ?_
      (.here ⟨rfl, bytes, Record.decode_encode hencode, rfl⟩)
    simp only [execute, Instruction.plain, makeRecord, applyAffinities_nil, hencode]

theorem getRecord_of_get {r : Int} {bytes : Bytes} (h : s.get r = .blob bytes) (pc : Nat)
    (opcode : Opcode) : s.getRecord pc opcode r = .ok bytes := by
  simp only [State.getRecord, h]

theorem getFields_of_get {r : Int} {bytes : Bytes} {values : List Value} (h : s.get r = .blob bytes)
    (hdecode : Record.decode bytes = .ok values) (pc : Nat) (opcode : Opcode) :
    s.getFields pc opcode r = .ok values := by
  simp only [State.getFields, getRecord_of_get h, hdecode, Fault.lift]

/-! ## Destinations -/

/-- A destination, with the registers and cursors that are its own and what it has received. -/
structure Sink (σ : Setting) (d : Destination) where
  registers : Int → Prop
  cursors : Int → Prop
  /-- The rows have arrived, in this order. -/
  Received : List (List Value) → State → Prop
  stable : ∀ {out s s'}, Received out s → Quiet registers cursors s s' → Received out s'
  grows : ∀ {result width b b'}, (d.emit result width).Gives b () b' → b.Valid → b.Grows b'
  receives : ∀ {result width b b' s out}, (d.emit result width).Gives b () b' → b.Valid →
    b'.Begins σ.final → (∀ r, registers r → b.Holds r) → Received out s →
    σ.Leads (fun pc s' => pc = b'.address ∧ Received (out ++ [s.getBlock result width]) s' ∧
      Frame (fun r => b.Holds r ∧ ¬ registers r) (fun c => ¬ cursors c) s s') b.address s

/-- Rows that leave the program. -/
def Sink.output (σ : Setting) : Sink σ .output where
  registers _ := False
  cursors _ := False
  Received out s := s.rows.toList = out
  stable h hq := by
    rw [hq.rows]
    exact h
  grows h hb := by
    obtain rfl := gives_op.mp h
    exact (Builder.Grows.refl hb).emit _
  receives := by
    intro result width b b' s out h hb hend _ hout
    obtain rfl := gives_op.mp h
    refine .op hend rfl rfl (.here ⟨rfl, ?_, ⟨rfl, fun _ _ => rfl, fun _ _ => rfl, fun _ _ => rfl,
      fun _ _ => rfl⟩⟩)
    show (s.rows.push (s.getBlock result width)).toList = _
    rw [Array.toList_push, hout]

/-! ## What one more row does -/

/-- What has happened to the rows of a query so far. -/
structure Progress where
  /-- The rows that came, each once, where duplicates are looked up. -/
  seen : List (List Value)
  /-- The rows put aside for sorting, each after its keys. -/
  pending : List (List Value)
  window : Window
  out : List (List Value)

/-- The row is looked up among those that came before; none if it is there. -/
def Distinct.pass (d : Distinct) (columns : List Value) (seen : List (List Value)) :
    Option (List (List Value)) :=
  match d with
  | .unordered _ =>
    if (Tree.index seen).hasKeyWith columns then .none else some (Keys.add columns seen)
  | _ => some seen

/-- The row goes through the window; an error is the final result. -/
def Progress.pass (x : Progress) (columns : List Value) :
    Except (List (List Value)) Progress :=
  match Window.step (x.window, x.out) columns with
  | .ok y => .ok { x with window := y.1, out := y.2 }
  | .error out => .error out

/-- A row comes, with its keys for sorting. -/
def Output.arrive (o : Output) (keys columns : List Value) (x : Progress) :
    Except (List (List Value)) Progress :=
  match o.distinct.pass columns x.seen with
  | none => .ok x
  | some seen =>
    if o.sorting.isSome then .ok { x with seen, pending := x.pending ++ [keys ++ columns] }
    else { x with seen }.pass columns

/-! ## Registers and cursors of an output -/

/-- The registers in which an output and its counters work. -/
def Output.Owns (o : Output) (c : Counters) (r : Int) : Prop :=
  (o.result ≤ r ∧ r < o.result + o.width) ∨ c.limit = some r ∨ c.offset = some r ∨
  (∃ first previous, o.distinct = .ordered first previous ∧
    (r = first ∨ r = previous ∨ previous ≤ r ∧ r < previous + o.width)) ∨
  (∃ t, o.sorting = some t ∧
    (t.block ≤ r ∧ r < t.block + t.keys.length + o.width ∨ r = t.record))

/-- The registers in which a row is compared with the one before. -/
def Output.Compares (o : Output) (r : Int) : Prop :=
  ∃ first previous, o.distinct = .ordered first previous ∧
    (r = first ∨ r = previous ∨ previous ≤ r ∧ r < previous + o.width)

/-- The cursors that an output opens. -/
def Output.OwnsCursor (o : Output) (c : Int) : Prop :=
  o.distinct = .unordered c ∨ ∃ t, o.sorting = some t ∧ t.cursor = c

/-- The registers and cursors of an output are held, apart from each other, and apart from those of
its sink. -/
structure Output.Laid (o : Output) (c : Counters) {d : Destination} (sink : Sink σ d)
    (b : Builder) : Prop where
  width_nonneg : 0 ≤ o.width
  result_pos : 0 < o.result
  held : ∀ r, o.Owns c r → b.Holds r
  apart : c.Apart
  counters_lt : ∀ r, c.limit = some r ∨ c.offset = some r → r < o.result
  ordered : ∀ {first previous}, o.distinct = .ordered first previous →
    o.result + o.width ≤ first ∧ first < previous
  sorting : ∀ {t}, o.sorting = some t → o.result + o.width ≤ t.block ∧
    t.block + t.keys.length + o.width ≤ t.record ∧
    ∀ {first previous}, o.distinct = .ordered first previous → previous + o.width ≤ t.block
  cursors : ∀ {t c}, o.sorting = some t → o.distinct = .unordered c → t.cursor ≠ c
  sink_held : ∀ r, sink.registers r → b.Holds r
  sink_apart : ∀ r, sink.registers r → ¬ o.Owns c r
  sink_cursors : ∀ k, sink.cursors k → ¬ o.OwnsCursor k

theorem Output.Laid.grows {o : Output} {c : Counters} {d : Destination} {sink : Sink σ d}
    (h : o.Laid c sink b) (hg : b.Grows b') : o.Laid c sink b' :=
  { h with
    held := fun r hr => hg.holds r (h.held r hr)
    sink_held := fun r hr => hg.holds r (h.sink_held r hr) }

/-- Registers and cursors hold the state of the rows so far. -/
structure Output.Carries (o : Output) (c : Counters) {d : Destination} (sink : Sink σ d)
    (descending : List Bool) (s : State) (x : Progress) : Prop where
  counts : c.Counts s x.window
  keep : x.window.keep ≠ some 0
  received : sink.Received x.out s
  seen : ∀ {k}, o.distinct = .unordered k →
    s.cursors.get? k = some ⟨.transient (.index x.seen), none⟩
  first : ∀ {first previous}, o.distinct = .ordered first previous → s.number first = 1
  pending : ∀ {t}, o.sorting = some t → s.Sorts t.cursor t.keys.length descending x.pending

/-- The registers that code of an output leaves alone. -/
def Output.Outside (o : Output) (c : Counters) {d : Destination} (sink : Sink σ d) (b : Builder)
    (r : Int) : Prop :=
  b.Holds r ∧ ¬ o.Owns c r ∧ ¬ sink.registers r

/-- The cursors that code of an output leaves alone. -/
def Output.OutsideCursor (o : Output) {d : Destination} (sink : Sink σ d) (k : Int) : Prop :=
  ¬ o.OwnsCursor k ∧ ¬ sink.cursors k

/-- The registers that have to last from one row to the next. -/
def Output.Lasting (o : Output) (c : Counters) {d : Destination} (sink : Sink σ d) (r : Int) : Prop :=
  c.limit = some r ∨ c.offset = some r ∨ sink.registers r ∨
    ∃ first previous, o.distinct = .ordered first previous ∧
      (r = first ∨ previous ≤ r ∧ r < previous + o.width)

/-- A register apart from those in which rows are put together. -/
structure Output.Clear (o : Output) (b : Builder) (r : Int) : Prop where
  held : b.Holds r
  result : r < o.result ∨ o.result + o.width ≤ r
  block : ∀ {t}, o.sorting = some t → r < t.block ∨ t.block + t.keys.length + o.width ≤ r
  record : ∀ {t}, o.sorting = some t → r ≠ t.record

section Laid

variable {o : Output} {c : Counters} {d : Destination} {sink : Sink σ d} {r : Int}

theorem Output.Clear.of_not_owns (hr : b.Holds r) (howns : ¬ o.Owns c r) : o.Clear b r := by
  refine ⟨hr, ?_, fun {t} ht => ?_, fun {t} ht heq => ?_⟩
  · have hout : ¬ (o.result ≤ r ∧ r < o.result + o.width) := fun hin => howns (.inl hin)
    omega
  · have hout : ¬ (t.block ≤ r ∧ r < t.block + t.keys.length + o.width) := fun hin =>
      howns (.inr (.inr (.inr (.inr ⟨t, ht, .inl hin⟩))))
    omega
  · exact howns (.inr (.inr (.inr (.inr ⟨t, ht, .inr heq⟩))))

theorem Output.Outside.clear (h : o.Outside c sink b r) : o.Clear b r := .of_not_owns h.1 h.2.1

theorem Output.Laid.not_compares (h : o.Laid c sink b) (hr : c.limit = some r ∨ c.offset = some r) :
    ¬ o.Compares r := by
  rintro ⟨first, previous, ho, hin⟩
  have hlt := h.counters_lt r hr
  have hordered := h.ordered ho
  have hwidth := h.width_nonneg
  omega

theorem Output.Laid.clear (h : o.Laid c sink b) (hr : o.Lasting c sink r) : o.Clear b r := by
  have hwidth := h.width_nonneg
  have hcounter : c.limit = some r ∨ c.offset = some r → o.Owns c r → o.Clear b r := by
    intro hr howns
    have hlt := h.counters_lt r hr
    have hsorting : ∀ {t}, o.sorting = some t → r < t.block ∧ r < t.record := fun ht => by
      obtain ⟨hblock, hrecord, -⟩ := h.sorting ht
      omega
    exact ⟨h.held r howns, .inl hlt, fun ht => .inl (hsorting ht).1, fun ht => Int.ne_of_lt (hsorting ht).2⟩
  rcases hr with hr | hr | hr | ⟨first, previous, ho, hr⟩
  · exact hcounter (.inl hr) (.inr (.inl hr))
  · exact hcounter (.inr hr) (.inr (.inr (.inl hr)))
  · exact .of_not_owns (h.sink_held r hr) (h.sink_apart r hr)
  · obtain ⟨hfirst, hlt⟩ := h.ordered ho
    have hsorting : ∀ {t}, o.sorting = some t → r < t.block ∧ r < t.record := fun ht => by
      obtain ⟨hblock, hrecord, hprevious⟩ := h.sorting ht
      have hle := hprevious ho
      omega
    exact ⟨h.held r (.inr (.inr (.inr (.inl ⟨first, previous, ho, by omega⟩)))), .inr (by omega),
      fun ht => .inl (hsorting ht).1, fun ht => Int.ne_of_lt (hsorting ht).2⟩

end Laid

/-! ## Through the window -/

/-- **A row goes through the window to its destination**, or is skipped, or is the last one. -/
theorem Counters.pass_leads {c : Counters} {d : Destination} {sink : Sink σ d} {skip done : Label}
    {a a' : Nat} {result width : Int} {b1 b2 : Builder} {w : Window} {out : List (List Value)}
    (hskip : (c.emitSkip skip).Gives b () b1) (hemit : (d.emit result width).Gives b1 () b2)
    (hstop : (c.emitStop done).Gives b2 () b') (hb : b.Valid) (hend : b'.Begins σ.final)
    (hl : skip < b.labels.size) (hat : σ.At skip a) (hl' : done < b.labels.size)
    (hat' : σ.At done a') (hapart : c.Apart)
    (hheld : ∀ r, c.limit = some r ∨ c.offset = some r → b.Holds r ∧ ¬ sink.registers r)
    (hsink : ∀ r, sink.registers r → b.Holds r) (hw : c.Counts s w) (hkeep : w.keep ≠ some 0)
    (hout : sink.Received out s) :
    σ.Leads (fun pc s' => Frame (fun r => b.Holds r ∧ ¬ sink.registers r ∧ c.limit ≠ some r ∧
        c.offset ≠ some r) (fun k => ¬ sink.cursors k) s s' ∧
      match Window.step (w, out) (s.getBlock result width) with
      | .error out' => sink.Received out' s' ∧ pc = a'
      | .ok y => sink.Received y.2 s' ∧ c.Counts s' y.1 ∧ y.1.keep ≠ some 0 ∧
          (pc = b'.address ∨ pc = a)) b.address s := by
  have h1 := hskip.grows hb
  have h2 := sink.grows hemit h1.valid
  have h3 := hstop.grows h2.valid
  have hend2 := h3.begins.trans hend
  refine (emitSkip_leads hskip ((h2.begins).trans hend2) hl hat hapart hw).bind ?_
  rintro pc s1 ⟨hq1, hcase⟩
  have hkept : ∀ {r}, sink.registers r → 0 < r ∧ c.offset ≠ some r := fun hr =>
    ⟨(hsink _ hr).1, fun ho => (hheld _ (.inr ho)).2 hr⟩
  by_cases hpos : 0 < w.skip
  · -- The row is skipped.
    rw [if_pos hpos] at hcase
    obtain ⟨rfl, hw1⟩ := hcase
    refine .here ⟨hq1.toFrame.mono (fun r hr => ⟨hr.1.1, hr.2.2.2⟩) fun _ _ => trivial, ?_⟩
    simp only [Window.step, if_pos hpos]
    exact ⟨sink.stable hout (hq1.mono (fun r hr => hkept hr) fun _ _ => trivial), hw1, hkeep,
      .inr trivial⟩
  · -- The row is handed on, and counted.
    rw [if_neg hpos] at hcase
    obtain ⟨rfl, rfl⟩ := hcase
    have hsink1 : ∀ r, sink.registers r → b1.Holds r := fun r hr => h1.holds r (hsink r hr)
    refine (sink.receives hemit h1.valid hend2 hsink1 hout).bind ?_
    rintro pc s2 ⟨rfl, hout2, hf2⟩
    have hw2 : c.Counts s2 w := hw.congr
      (fun r hr => hf2.get r ⟨h1.holds r (hheld r (.inr hr)).1, (hheld r (.inr hr)).2⟩)
      (fun r hr => hf2.get r ⟨h1.holds r (hheld r (.inl hr)).1, (hheld r (.inl hr)).2⟩)
    have hl2 : done < b2.labels.size := Nat.lt_of_lt_of_le hl' (h1.trans h2).labels_le
    refine (emitStop_leads hstop hend hl2 hat' hapart hw2 hkeep).mono ?_
    rintro pc s3 ⟨hq3, hcase⟩
    have hout3 : sink.Received (out ++ [s1.getBlock result width]) s3 :=
      sink.stable hout2 (hq3.mono (fun r hr => ⟨(hsink r hr).1, fun hlim =>
        (hheld r (.inl hlim)).2 hr⟩) fun _ _ => trivial)
    refine ⟨.trans (hf2.mono (fun r hr => ⟨h1.holds r hr.1, hr.2.1⟩) fun _ h => h)
      (hq3.toFrame.mono (fun r hr => ⟨hr.1.1, hr.2.2.1⟩) fun _ _ => trivial), ?_⟩
    simp only [Window.step, if_neg hpos]
    cases hk : w.keep with
    | none =>
      rw [hk] at hcase
      exact ⟨hout3, hcase.2, by simp [hk], .inl hcase.1⟩
    | some n =>
      rw [hk] at hcase
      by_cases hone : n = 1
      · simp only [if_pos hone] at hcase ⊢
        exact ⟨hout3, hcase⟩
      · simp only [if_neg hone] at hcase ⊢
        refine ⟨hout3, hcase.2, ?_, .inl hcase.1⟩
        intro h0
        have hn : n - 1 = 0 := Option.some.inj h0
        have : n ≠ 0 := fun h => hkeep (by rw [hk, h])
        omega

/-! ## Looking a row up -/

/-- A row that came before is skipped; another one is remembered. -/
theorem Output.emitProbe_leads [σ.Lenient] {distinct : Distinct} {result width : Int} {skip : Label} {a : Nat}
    {seen : List (List Value)} (h : (Output.emitProbe distinct result width skip).Gives b () b')
    (hb : b.Valid) (hend : b'.Begins σ.final) (hl : skip < b.labels.size) (hat : σ.At skip a)
    (hseen : ∀ {k}, distinct = .unordered k →
      s.cursors.get? k = some ⟨.transient (.index seen), none⟩) :
    σ.Leads (fun pc s' => Quiet b.Holds (fun k => distinct ≠ .unordered k) s s' ∧
      match distinct.pass (s.getBlock result width) seen with
      | none => pc = a ∧ ∀ {k}, distinct = .unordered k →
          s'.cursors.get? k = some ⟨.transient (.index seen), none⟩
      | some seen' => pc = b'.address ∧ ∀ {k}, distinct = .unordered k →
          s'.cursors.get? k = some ⟨.transient (.index seen'), none⟩) b.address s := by
  cases distinct with
  | none =>
    obtain ⟨-, rfl⟩ := gives_pure.mp h
    exact .here ⟨.refl s, rfl, nofun⟩
  | ordered first previous =>
    obtain ⟨-, rfl⟩ := gives_pure.mp h
    exact .here ⟨.refl s, rfl, nofun⟩
  | unordered cursor =>
    simp only [Output.emitProbe, gives_bind, gives_op, gives_jump, gives_giveBack] at h
    obtain ⟨key, b1, hkey, _, b2, rfl, _, b3, rfl, _, b4, rfl, rfl⟩ := h
    have hkey := takes_temp hkey hb
    have hend4 := hend.of_pool
    have hend3 := (Builder.Begins.emit ..).trans hend4
    have hend2 := (Builder.Begins.emitJump ..).trans hend3
    have hl1 : skip < b1.labels.size := Nat.lt_of_lt_of_le hl hkey.grows.labels_le
    rw [← hkey.address]
    refine (makeRecord_leads hend2).bind ?_
    rintro pc s1 ⟨rfl, bytes, hdecode, rfl⟩
    have hget : (s.set key (.blob bytes)).get key = .blob bytes := State.get_set_self ..
    have hquiet : Quiet b.Holds (fun k => Distinct.unordered cursor ≠ .unordered k) s
        (s.set key (.blob bytes)) :=
      .set s _ fun q hq => ⟨hq.1, fun hqk => hkey.new hqk hq⟩
    have hcursor : (s.set key (.blob bytes)).cursors.get? cursor =
        some ⟨.transient (.index seen), none⟩ := hseen rfl
    have htree : ∀ pc opener, (s.set key (.blob bytes)).tree pc opener cursor =
        .ok (.index seen) := fun pc opener => State.tree_eq hcursor rfl pc opener
    by_cases hin : (Tree.index seen).hasKeyWith (s.getBlock result width) = true
    · simp only [Distinct.pass, if_pos hin]
      refine .taken hend3 hl1 hat rfl (t := s.set key (.blob bytes)) ?_ (.here ⟨hquiet, rfl, ?_⟩)
      · simp [execute, probe, getFields_of_get hget hdecode, htree, hin, jumpIf]
      · rintro k ⟨⟩
        exact hcursor
    · simp only [Distinct.pass, if_neg hin]
      refine .passed hend3 hl1 hat rfl (t := s.set key (.blob bytes)) ?_ ?_
      · simp [execute, probe, getFields_of_get hget hdecode, htree, hin, jumpIf]
      refine .op hend4 rfl (t := (s.set key (.blob bytes)).setTree cursor
        (.index (Keys.add (s.getBlock result width) seen))) ?_ (.here ?_)
      · simp only [execute, Instruction.plain, changeKeys, getFields_of_get hget hdecode, htree]
      · simp only [State.setTree, hcursor]
        refine ⟨hquiet.trans (.setCursor _ _ fun d hd => ?_), rfl, ?_⟩
        · rintro rfl
          exact hd rfl
        · rintro k ⟨⟩
          exact Slots.get?_set_self ..

/-! ## One row -/

namespace Output

variable {o : Output} {c : Counters} {d : Destination} {sink : Sink σ d} {descending : List Bool}
  {x : Progress} {skip done : Label} {a a' : Nat} {projection : List Resolved} {bindings : Bindings}

/-- The state of the rows is kept by code that works elsewhere, apart from the rows seen and put aside. -/
theorem Carries.after {R C : Int → Prop} {seen pending : List (List Value)} (h : o.Carries c sink descending s x)
    (hq : Quiet R C s s') (hR : ∀ r, o.Lasting c sink r → R r) (hC : ∀ k, sink.cursors k → C k)
    (hseen : ∀ {k}, o.distinct = .unordered k →
      s'.cursors.get? k = some ⟨.transient (.index seen), none⟩)
    (hpending : ∀ {t}, o.sorting = some t → s'.Sorts t.cursor t.keys.length descending pending) :
    o.Carries c sink descending s' { x with seen, pending } where
  counts := h.counts.congr (fun r hr => hq.get r (hR r (.inr (.inl hr))))
    fun r hr => hq.get r (hR r (.inl hr))
  keep := h.keep
  received := sink.stable h.received (hq.mono (fun r hr => hR r (.inr (.inr (.inl hr)))) hC)
  seen := hseen
  first := by
    intro first previous ho
    rw [State.number, hq.get first (hR first (.inr (.inr (.inr ⟨first, previous, ho, .inl rfl⟩))))]
    exact h.first ho
  pending := hpending

/-- The result columns are computed, and the row is looked up. -/
theorem columns_leads [σ.Lenient] {base : Int} {b1 : Builder} {columns : List Value}
    (hexprs : (emitExprs bindings projection base).Gives b () b1)
    (hprobe : (emitProbe o.distinct base o.width skip).Gives b1 () b') (hb : b.Valid)
    (hend : b'.Begins σ.final) (hl : skip < b.labels.size) (hat : σ.At skip a) (hlaid : o.Laid c sink b)
    (hwidth : o.width = projection.length) (hblock : b.HoldsBlock base projection.length)
    (hclear : ∀ {r}, o.Clear b r → r < base ∨ base + projection.length ≤ r)
    (hbound : ∀ p ∈ bindings, o.Outside c sink b p.2) (hx : o.Carries c sink descending s x)
    (hcolumns : List.Forall₂ (Denotes σ.Admits bindings s) projection columns) :
    σ.Leads (fun pc s' => Frame (o.Outside c sink b) (o.OutsideCursor sink) s s' ∧
      match o.distinct.pass columns x.seen with
      | none => pc = a ∧ o.Carries c sink descending s' x
      | some seen => pc = b'.address ∧ o.Carries c sink descending s' { x with seen } ∧
          s'.getBlock base o.width = columns) b.address s := by
  have h1 := hexprs.grows hb
  have h2 := hprobe.grows h1.valid
  have hbase : ∀ {r}, o.Clear b r → b.Holds r ∧ (r < base ∨ base + projection.length ≤ r) := fun hr =>
    ⟨hr.held, hclear hr⟩
  refine (emitExprs_leads hexprs hb hblock (fun p hp => hbase (hbound p hp).clear) (h2.begins.trans hend)
    hcolumns).bind ?_
  rintro pc s1 ⟨rfl, hget, hq1⟩
  have hseen : ∀ {k}, o.distinct = .unordered k →
      s1.cursors.get? k = some ⟨.transient (.index x.seen), none⟩ :=
    fun hk => (hq1.cursors _ trivial).trans (hx.seen hk)
  refine (emitProbe_leads hprobe h1.valid hend (Nat.lt_of_lt_of_le hl h1.labels_le) hat
    hseen).mono ?_
  rintro pc s2 ⟨hq2, hcase⟩
  have hq : Quiet (o.Clear b) (fun k => o.distinct ≠ .unordered k) s s2 :=
    .trans (hq1.mono (fun _ hr => hbase hr) fun _ _ => trivial)
      (hq2.mono (fun r hr => h1.holds r hr.held) fun _ h => h)
  refine ⟨hq.toFrame.mono (fun r hr => hr.clear) fun k hk ho => hk.1 (.inl ho), ?_⟩
  have hafter : ∀ {seen}, (∀ {k}, o.distinct = .unordered k →
      s2.cursors.get? k = some ⟨.transient (.index seen), none⟩) →
      o.Carries c sink descending s2 { x with seen } := fun hseen =>
    hx.after hq (fun r hr => hlaid.clear hr) (fun k hk ho => hlaid.sink_cursors k hk (.inl ho)) hseen
      fun ht => (hx.pending ht).congr (hq.cursors _ fun ho => hlaid.cursors ht ho rfl)
  rw [hwidth, hget] at hcase
  cases hpass : o.distinct.pass columns x.seen with
  | none =>
    rw [hpass] at hcase
    exact ⟨hcase.1, hafter hcase.2⟩
  | some seen =>
    rw [hpass] at hcase
    refine ⟨hcase.1, hafter hcase.2, ?_⟩
    rw [hwidth, hq2.toFrame.getBlock fun r hle hlt => h1.holds r (hblock r hle hlt)]
    exact hget

/-- A row of the output goes through the window. -/
theorem Laid.pass_leads {b1 b2 b3 : Builder} {w : Window} {out : List (List Value)}
    (hlaid : o.Laid c sink b) (hg : b.Grows b1) (hskip : (c.emitSkip skip).Gives b1 () b2)
    (hemit : (d.emit o.result o.width).Gives b2 () b3) (hstop : (c.emitStop done).Gives b3 () b')
    (hend : b'.Begins σ.final) (hl : skip < b.labels.size) (hat : σ.At skip a) (hl' : done < b.labels.size)
    (hat' : σ.At done a') (hw : c.Counts s w) (hkeep : w.keep ≠ some 0) (hout : sink.Received out s) :
    σ.Leads (fun pc s' => Frame (fun r => o.Outside c sink b r ∨ o.Compares r) (fun k => ¬ sink.cursors k) s s' ∧
      match Window.step (w, out) (s.getBlock o.result o.width) with
      | .error out' => sink.Received out' s' ∧ pc = a'
      | .ok y => sink.Received y.2 s' ∧ c.Counts s' y.1 ∧ y.1.keep ≠ some 0 ∧
          (pc = b'.address ∨ pc = a)) b1.address s := by
  have hheld : ∀ {r}, o.Owns c r → b1.Holds r ∧ ¬ sink.registers r := fun hr =>
    ⟨hg.holds _ (hlaid.held _ hr), fun hs => hlaid.sink_apart _ hs hr⟩
  refine (Counters.pass_leads hskip hemit hstop hg.valid hend (Nat.lt_of_lt_of_le hl hg.labels_le) hat
    (Nat.lt_of_lt_of_le hl' hg.labels_le) hat' hlaid.apart
    (fun r hr => hheld (hr.elim (fun hr => .inr (.inl hr)) fun hr => .inr (.inr (.inl hr))))
    (hlaid.grows hg).sink_held hw hkeep hout).mono ?_
  rintro pc s' ⟨hf, hcase⟩
  refine ⟨hf.mono (fun r hr => ?_) fun _ hk => hk, hcase⟩
  rcases hr with ⟨hr, howns, hsink⟩ | hr
  · exact ⟨hg.holds r hr, hsink, fun hlim => howns (.inr (.inl hlim)),
      fun hoff => howns (.inr (.inr (.inl hoff)))⟩
  · obtain ⟨hin, hsink⟩ := hheld (.inr (.inr (.inr (.inl hr))))
    exact ⟨hin, hsink, fun hlim => hlaid.not_compares (.inl hlim) hr,
      fun hoff => hlaid.not_compares (.inr hoff) hr⟩

/-- The record of keys and columns goes into the sorter. -/
theorem sorterInsert_leads [σ.Lenient] {t : Sorting} {rows : List (List Value)} {count : Int}
    (hend : ((b.emit (.plain .makeRecord t.block count t.record)).emit
      (.plain .sorterInsert t.cursor t.record 0)).Begins σ.final)
    (hs : s.Sorts t.cursor t.keys.length descending rows) :
    σ.Leads (fun pc s' => pc = ((b.emit (.plain .makeRecord t.block count t.record)).emit
        (.plain .sorterInsert t.cursor t.record 0)).address ∧
      s'.Sorts t.cursor t.keys.length descending (rows ++ [s.getBlock t.block count]) ∧
      Quiet (fun r => 0 < r ∧ r ≠ t.record) (fun k => k ≠ t.cursor) s s') b.address s := by
  refine (makeRecord_leads ((Builder.Begins.emit ..).trans hend)).bind ?_
  rintro pc s1 ⟨rfl, bytes, hdecode, rfl⟩
  obtain ⟨sorter, hcursor, hkey, hdesc, hrows⟩ := hs
  have hget : (s.set t.record (.blob bytes)).get t.record = .blob bytes := State.get_set_self ..
  have hcursor1 : (s.set t.record (.blob bytes)).cursors.get? t.cursor =
      some ⟨.sorter sorter, none⟩ := hcursor
  refine .op hend rfl (t := (s.set t.record (.blob bytes)).setSorter t.cursor
    (sorter.insert (s.getBlock t.block count) bytes)) ?_ (.here ⟨rfl, ?_, ?_⟩)
  · simp only [execute, Instruction.plain, sorterInsert, getRecord_of_get hget, hdecode,
      State.sorter, State.cursor, hcursor1]
  · refine ⟨sorter.insert (s.getBlock t.block count) bytes, Slots.get?_set_self .., hkey, hdesc, ?_⟩
    simp [Sorter.insert, hrows]
  · exact .trans (.set s _ fun q hq => hq) (.setCursor _ _ fun k hk => hk)

/-- **The code for one row does what `arrive` says.** -/
theorem emitRow_leads [σ.Lenient] {keys columns : List Value}
    (h : (o.emitRow projection bindings c d skip done).Gives b () b') (hb : b.Valid) (hend : b'.Begins σ.final)
    (hl : skip < b.labels.size) (hat : σ.At skip a) (hl' : done < b.labels.size) (hat' : σ.At done a')
    (hlaid : o.Laid c sink b) (hwidth : o.width = projection.length) (hbound : ∀ p ∈ bindings, o.Outside c sink b p.2)
    (hplaces : ∀ t, o.sorting = some t → ∀ e ∈ t.keys, ∀ p ∈ e.places, o.OutsideCursor sink p.cursor)
    (hx : o.Carries c sink descending s x) (hcolumns : List.Forall₂ (Denotes σ.Admits bindings s) projection columns)
    (hkeys : ∀ t, o.sorting = some t → List.Forall₂ (Denotes σ.Admits bindings s) t.keys keys) :
    σ.Leads (Ends (fun y s' => o.Carries c sink descending s' y ∧
        Frame (o.Outside c sink b) (o.OutsideCursor sink) s s')
      (fun out s' => sink.Received out s' ∧ Frame (o.Outside c sink b) (o.OutsideCursor sink) s s')
      (fun pc => pc = b'.address ∨ pc = a) a' (o.arrive keys columns x)) b.address s := by
  unfold emitRow at h
  split at h
  · -- The row is put aside in the sorter.
    rename_i t ht
    simp only [gives_bind, gives_op] at h
    obtain ⟨_, b1, hexprs, _, b2, hprobe, _, b3, hkeyExprs, _, b4, rfl, rfl⟩ := h
    have h1 := hexprs.grows hb
    have h2 := hprobe.grows h1.valid
    have h3 := hkeyExprs.grows h2.valid
    have hend3 := (Builder.Begins.emit _ (.plain .makeRecord t.block (t.keys.length + o.width)
      t.record)).trans ((Builder.Begins.emit ..).trans hend)
    have hend2 := h3.begins.trans hend3
    have h12 := h1.trans h2
    have hin : ∀ r, t.block ≤ r ∧ r < t.block + t.keys.length + o.width → b.Holds r := fun r hr =>
      hlaid.held r (.inr (.inr (.inr (.inr ⟨t, ht, .inl hr⟩))))
    refine (columns_leads hexprs hprobe hb hend2 hl hat hlaid hwidth (fun r hle hlt => hin r (by omega))
      (fun hr => ?_) hbound hx hcolumns).bind ?_
    · have := hr.block ht
      omega
    rintro pc s1 ⟨hf1, hcase⟩
    unfold arrive
    cases hpass : o.distinct.pass columns x.seen with
    | none =>
      rw [hpass] at hcase
      exact .here ⟨⟨hcase.2, hf1⟩, .inr hcase.1⟩
    | some seen =>
      rw [hpass] at hcase
      obtain ⟨rfl, hy, hget⟩ := hcase
      simp only [ht, Option.isSome_some, if_true]
      -- The keys are computed next to the columns.
      have hkeys1 := forall₂_denotes_frame (hkeys t ht) hf1 hbound (hplaces t ht)
      refine (emitExprs_leads hkeyExprs h2.valid (fun r hle hlt => h12.holds r (hin r (by omega)))
        (fun p hp => ?_) hend3 hkeys1).bind ?_
      · have := (hbound p hp).clear.block ht
        exact ⟨h12.holds _ (hbound p hp).1, by omega⟩
      rintro pc s2 ⟨rfl, hgetKeys, hq2⟩
      refine (sorterInsert_leads hend ((hy.pending ht).congr (hq2.cursors _ trivial))).mono ?_
      rintro pc s3 ⟨rfl, hsorts3, hq3⟩
      -- What lies in the block is the row after its keys.
      have hrow : s2.getBlock t.block (t.keys.length + o.width) = keys ++ columns := by
        have hcount : (t.keys.length : Int) + o.width = (t.keys.length + projection.length : Nat) := by
          omega
        have hcolumns2 : s2.getBlock (t.block + t.keys.length) projection.length =
            s1.getBlock (t.block + t.keys.length) projection.length :=
          hq2.toFrame.getBlock fun r hle hlt => ⟨h12.holds r (hin r (by omega)), by omega⟩
        rw [hcount, State.getBlock_append, hgetKeys, hcolumns2, ← hwidth, hget]
      rw [hrow] at hsorts3
      have hq : Quiet (o.Clear b) (fun k => k ≠ t.cursor) s1 s3 := by
        refine .trans (hq2.mono (fun r hr => ?_) fun _ _ => trivial)
          (hq3.mono (fun r hr => ⟨hr.held.1, hr.record ht⟩) fun _ h => h)
        have := hr.block ht
        exact ⟨h12.holds r hr.held, by omega⟩
      have hf : Frame (o.Outside c sink b) (o.OutsideCursor sink) s s3 :=
        hf1.trans (hq.toFrame.mono (fun r hr => hr.clear) fun k hk hkt => hk.1 (.inr ⟨t, ht, hkt.symm⟩))
      refine ⟨⟨hy.after hq (fun r hr => hlaid.clear hr) ?_ ?_ ?_, hf⟩, .inl rfl⟩
      · exact fun k hk hkt => hlaid.sink_cursors k hk (.inr ⟨t, ht, hkt.symm⟩)
      · exact fun hk => (hq.cursors _ fun hkt => hlaid.cursors ht hk hkt.symm).trans (hy.seen hk)
      · intro t' ht'
        rw [ht] at ht'
        cases ht'
        exact hsorts3
  · -- The row goes straight on.
    rename_i hnone
    simp only [gives_bind] at h
    obtain ⟨_, b1, hexprs, _, b2, hprobe, _, b3, hskip, _, b4, hemit, hstop⟩ := h
    have h1 := hexprs.grows hb
    have h2 := hprobe.grows h1.valid
    have h3 := hskip.grows h2.valid
    have h4 := sink.grows hemit h3.valid
    have h5 := hstop.grows h4.valid
    have hend2 := (((h3.trans h4).trans h5).begins).trans hend
    have hresult : b.HoldsBlock o.result projection.length := fun r hle hlt =>
      hlaid.held r (.inl ⟨hle, by omega⟩)
    refine (columns_leads hexprs hprobe hb hend2 hl hat hlaid hwidth hresult (hwidth ▸ fun hr => hr.result)
      hbound hx hcolumns).bind ?_
    rintro pc s1 ⟨hf1, hcase⟩
    unfold arrive
    cases hpass : o.distinct.pass columns x.seen with
    | none =>
      rw [hpass] at hcase
      exact .here ⟨⟨hcase.2, hf1⟩, .inr hcase.1⟩
    | some seen =>
      rw [hpass] at hcase
      obtain ⟨rfl, hy, hget⟩ := hcase
      simp only [hnone, Option.isSome_none, Bool.false_eq_true, if_false]
      refine (hlaid.pass_leads (h1.trans h2) hskip hemit hstop hend hl hat hl' hat' hy.counts hy.keep
        hy.received).mono ?_
      rintro pc s2 ⟨hf2, hcase⟩
      have hf : Frame (o.Outside c sink b) (o.OutsideCursor sink) s s2 :=
        hf1.trans (hf2.mono (fun _ hr => .inl hr) fun k hk => hk.2)
      rw [hget] at hcase
      unfold Progress.pass
      cases hstep : Window.step (x.window, x.out) columns with
      | error out =>
        rw [hstep] at hcase
        exact ⟨⟨hcase.1, hf⟩, hcase.2⟩
      | ok z =>
        rw [hstep] at hcase
        obtain ⟨hout, hcounts, hkeep, hpc⟩ := hcase
        refine ⟨⟨⟨hcounts, hkeep, hout, fun hk => ?_, fun ho => ?_, fun ht => ?_⟩, hf⟩, hpc⟩
        · refine (hf2.cursors _ fun hs => hlaid.sink_cursors _ hs (.inl hk)).trans (hy.seen hk)
        · rw [State.number, hf2.get _ (.inr ⟨_, _, ho, .inl rfl⟩)]
          exact hy.first ho
        · rw [hnone] at ht
          cases ht

end Output

end QueryMachine
