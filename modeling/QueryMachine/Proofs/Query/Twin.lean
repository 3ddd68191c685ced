import QueryMachine.Proofs.Compile.Twin

/-!
# Queries in corresponding registers

Rows are computed, compared, sorted, grouped and handed on in registers that correspond.
-/

namespace QueryMachine

open Emit Builder

variable {W : Ties} {t t' : Int}

/-! ## Destinations -/

/-- The destination takes rows from corresponding registers. -/
class Destination.Sends (d : Destination) : Prop where
  keeps : ∀ {W : Ties} {r r' n : Int}, Blocks n W r r' → Keeps W (d.emit r n) (d.emit r' n)

instance : Destination.output.Sends where
  keeps h := by
    have : Tie (Blocks _) _ _ _ := ⟨h⟩
    unfold Destination.emit
    infer_instance

instance {c : Int} : (Destination.table c).Sends where
  keeps h := by
    refine ⟨meets_temp.bind fun r r' => meets_temp.bind fun q q' => ?_⟩
    refine (meets_write (.inr (.tail _ (.head _))) (.record (h.mono .inl) Ties.writes)).bind fun _ _ => ?_
    refine (meets_write Ties.plus_self (.load .newRowid rfl Ties.writes)).bind fun _ _ => ?_
    refine (meets_read (.store (.inr (.tail _ (.head _))) Ties.plus_self)).bind fun _ _ => ?_
    refine (meets_giveBack (List.forall_mem_nil _)).bind fun _ _ => ?_
    exact (meets_giveBack (List.forall_mem_nil _)).imp (⟨rfl, ·⟩)

instance {c : Int} : (Destination.set c).Sends where
  keeps h := by
    refine ⟨meets_temp.bind fun r r' => (meets_write Ties.plus_self (.record (h.mono .inl) Ties.writes)).bind fun _ _ => ?_⟩
    refine (meets_read (.take .idxInsert rfl Ties.plus_self)).bind fun _ _ => ?_
    exact (meets_giveBack (List.forall_mem_nil _)).imp (⟨rfl, ·⟩)

/-! ## Scans and counters -/

instance {sources : List Source} : Keeps W (emitOpenSources sources) (emitOpenSources sources) := by
  induction sources with
  | nil => exact inferInstanceAs (Keeps W (pure ()) (pure ()))
  | cons s rest ih =>
    unfold emitOpenSources
    dsimp only
    split <;> infer_instance

instance {sources : List Source} : Keeps W (emitCloseSources sources) (emitCloseSources sources) := by
  unfold emitCloseSources
  infer_instance

instance {sources : List Source} {exit : Label} {body body' : Label → Emit Unit} [h : ∀ l, Keeps W (body l) (body' l)] :
    Keeps W (emitScan sources exit body) (emitScan sources exit body') := by
  induction sources generalizing exit with
  | nil => exact h exit
  | cons s rest ih =>
    unfold emitScan
    infer_instance

/-- The counters stand in corresponding registers. -/
abbrev Counted : Ties → Counters → Counters → Prop := fun W c c' => Mated? W c.limit c'.limit ∧ Mated? W c.offset c'.offset

instance : Stable Counted := ⟨fun hW h => h.imp (Stable.mono hW) (Stable.mono hW)⟩

section

variable {p : Plan} {c c' : Counters} {l done : Label} {e : Option Resolved}

instance {l l' o o' : Option Int} [hl : Tie Mated? W l l'] [ho : Tie Mated? W o o'] : Tie Counted W ⟨l, o⟩ ⟨l', o'⟩ := ⟨hl.rel, ho.rel⟩

instance : Gets W (emitLimit done e) (emitLimit done e) Mated? where
  twins := by cases e <;> (unfold emitLimit; infer_instance)

instance : Gets W (emitOffset e) (emitOffset e) Mated? where
  twins := by cases e <;> (unfold emitOffset; infer_instance)

instance : Gets W (emitCounters p done) (emitCounters p done) Counted where
  twins := by
    unfold emitCounters
    infer_instance

instance [h : Tie Counted W c c'] : Keeps W (c.emitSkip l) (c'.emitSkip l) := by
  obtain ⟨-, h⟩ := h.rel
  unfold Counters.emitSkip
  generalize c.offset = o at h
  generalize c'.offset = o' at h
  cases h with
  | none => infer_instance
  | some h =>
    have : Tie Mated W _ _ := ⟨h⟩
    infer_instance

instance [h : Tie Counted W c c'] : Keeps W (c.emitStop l) (c'.emitStop l) := by
  obtain ⟨h, -⟩ := h.rel
  unfold Counters.emitStop
  generalize c.limit = o at h
  generalize c'.limit = o' at h
  cases h with
  | none => infer_instance
  | some h =>
    have : Tie Mated W _ _ := ⟨h⟩
    infer_instance

end

/-! ## Duplicates and order -/

/-- Rows are compared in corresponding registers. Where rows have no columns, the register after the result is
copied all the same. -/
inductive Distinct.Twin (W : Ties) (result result' : Int) (width : Nat) : Distinct → Distinct → Prop
  | none : Twin W result result' width .none .none
  | unordered (c : Int) : Twin W result result' width (.unordered c) (.unordered c)
  | ordered {first first' previous previous'} (hfirst : W.mates first first')
    (hresult : W.mates.Block result result' (width + 1)) (hprevious : W.mates.Block previous previous' (width + 1)) :
    Twin W result result' width (.ordered first previous) (.ordered first' previous')

/-- A sorter, and its keys, columns and record in corresponding registers. -/
inductive Sorting.Twin (W : Ties) (width : Nat) : Option Sorting → Option Sorting → Prop
  | none : Twin W width none none
  | some {c keys block block' record record'} (hblock : W.mates.Block block block' (keys.length + width))
    (hrecord : W.mates record record') : Twin W width (some ⟨c, keys, block, record⟩) (some ⟨c, keys, block', record'⟩)

/-- The way of a row leads through corresponding registers. -/
structure Output.Twin (W : Ties) (o o' : Output) : Prop where
  width : o'.width = o.width
  result : W.mates.Block o.result o'.result o.width.toNat
  distinct : o.distinct.Twin W o.result o'.result o.width.toNat o'.distinct
  sorting : Sorting.Twin W o.width.toNat o.sorting o'.sorting

theorem Distinct.Twin.mono {W W' : Ties} {r r' : Int} {width : Nat} {d d' : Distinct} (h : d.Twin W r r' width d')
    (hW : W.Le W') : d.Twin W' r r' width d' := by
  cases h with
  | none => exact .none
  | unordered c => exact .unordered c
  | ordered hfirst hresult hprevious =>
    exact .ordered (hW.mates hfirst) (hresult.mono hW.mates) (hprevious.mono hW.mates)

theorem Sorting.Twin.mono {W W' : Ties} {width : Nat} {s s' : Option Sorting} (h : Sorting.Twin W width s s')
    (hW : W.Le W') : Sorting.Twin W' width s s' := by
  cases h with
  | none => exact .none
  | some hblock hrecord => exact .some (hblock.mono hW.mates) (hW.mates hrecord)

theorem Sorting.Twin.isSome_eq {width : Nat} {s s' : Option Sorting} (h : Sorting.Twin W width s s') : s'.isSome = s.isSome := by
  cases h <;> rfl

instance : Stable Output.Twin :=
  ⟨fun hW h => ⟨h.width, h.result.mono hW.mates, h.distinct.mono hW, h.sorting.mono hW⟩⟩

theorem Mates.Block.shift {ρ : Mates} {r r' : Int} {m n : Nat} (h : ρ.Block r r' (m + n)) : ρ.Block (r + m) (r' + m) n := by
  intro k hk
  have := h (m + k) (by omega)
  rwa [Int.natCast_add, ← Int.add_assoc, ← Int.add_assoc] at this

theorem Mates.Block.append {ρ : Mates} {r r' : Int} {m n : Nat} (h : ρ.Block r r' m) (hn : ρ.Block (r + m) (r' + m) n) :
    ρ.Block r r' (m + n) := by
  intro k hk
  by_cases hlt : k < m
  · exact h k hlt
  · have := hn (k - m) (by omega)
    rwa [Int.add_assoc, Int.add_assoc, ← Int.natCast_add, Nat.add_sub_cancel' (Nat.le_of_not_lt hlt)] at this

theorem Mates.Block.le {ρ : Mates} {r r' : Int} {m n : Nat} (h : ρ.Block r r' n) (hle : m ≤ n) : ρ.Block r r' m :=
  fun k hk => h k (Nat.lt_of_lt_of_le hk hle)

namespace Output

variable {o o' : Output} {projection : List Resolved} {bs bs' : Bindings} {c c' : Counters} {d : Destination}
  {skip done : Label} {result result' r r' : Int} {width : Nat} {distinct distinct' : Distinct}

theorem emitFields_keeps (cursor : Int) (count : Nat) (field : Int) (ht : W.mates.Block t t' count) :
    Keeps W (emitFields cursor count field t) (emitFields cursor count field t') := by
  induction count generalizing field t t' with
  | zero => exact inferInstanceAs (Keeps W (pure ()) (pure ()))
  | succ count ih =>
    have : Tie Mated W t t' := ⟨ht.head⟩
    have := ih (field + 1) ht.tail
    unfold emitFields
    infer_instance

theorem emitDiffers_keeps (fresh : Label) (count : Nat) (hr : W.mates.Block r r' count) (ht : W.mates.Block t t' count) :
    Keeps W (emitDiffers fresh count r t) (emitDiffers fresh count r' t') := by
  induction count generalizing r r' t t' with
  | zero => exact inferInstanceAs (Keeps W (pure ()) (pure ()))
  | succ count ih =>
    have : Keeps W (jumpFlagged .ne r t fresh Flag.nullEqual) (jumpFlagged .ne r' t' fresh Flag.nullEqual) :=
      keeps_jump fun _ => .compare .ne rfl rfl (.inl hr.head) (.inl ht.head)
    have := ih hr.tail ht.tail
    unfold emitDiffers
    infer_instance

theorem emitProbe_keeps (skip : Label) {n : Int} (h : distinct.Twin W result result' width distinct') (hr : W.mates.Block r r' n.toNat) :
    Keeps W (emitProbe distinct r n skip) (emitProbe distinct' r' n skip) := by
  cases h with
  | none | ordered => exact inferInstanceAs (Keeps W (pure ()) (pure ()))
  | unordered c =>
    refine ⟨meets_temp.bind fun q q' => (meets_write Ties.plus_self (.record (hr.mono .inl) Ties.writes)).bind fun _ _ => ?_⟩
    refine (meets_jump (o := .found) nofun fun _ => .seek .found rfl Ties.plus_self).bind fun _ _ => ?_
    refine (meets_read (.take .idxInsert rfl Ties.plus_self)).bind fun _ _ => ?_
    exact (meets_giveBack (List.forall_mem_nil _)).imp (⟨rfl, ·⟩)

instance [h : Tie Output.Twin W o o'] [Tie Bound W bs bs'] [Tie Counted W c c'] [hd : d.Sends]
    [hw : Fact (o.width = projection.length)] :
    Keeps W (o.emitRow projection bs c d skip done) (o'.emitRow projection bs' c' d skip done) := by
  obtain ⟨hwidth, hresult, hdistinct, hsorting⟩ := h.rel
  have hlength : o.width.toNat = projection.length := by rw [hw.out]; rfl
  unfold emitRow
  rw [hwidth]
  generalize o.sorting = s at hsorting
  generalize o'.sorting = s' at hsorting
  cases hsorting with
  | none =>
    have := emitExprs_keeps bs bs' (hlength ▸ hresult)
    have := emitProbe_keeps skip hdistinct hresult
    have := hd.keeps hresult
    dsimp only
    infer_instance
  | @some cursor keys block block' record record' hblock hrecord =>
    have := emitExprs_keeps bs bs' (hlength ▸ hblock.shift)
    have := emitProbe_keeps skip hdistinct hblock.shift
    have := emitExprs_keeps bs bs' (hblock.le (Nat.le_add_right keys.length _))
    have : Tie Mated W record record' := ⟨hrecord⟩
    have : Tie (Blocks (keys.length + o.width)) W block block' := ⟨hblock.le (by omega)⟩
    dsimp only
    infer_instance

instance [h : Tie Output.Twin W o o'] : Keeps W (o.emitCompare skip) (o'.emitCompare skip) := by
  obtain ⟨hwidth, -, hdistinct, -⟩ := h.rel
  unfold emitCompare
  rw [hwidth]
  generalize o.distinct = d at hdistinct
  generalize o'.distinct = d' at hdistinct
  cases hdistinct with
  | none | unordered => infer_instance
  | @ordered first first' previous previous' hfirst hresult hprevious =>
    have : Tie Mated W first first' := ⟨hfirst⟩
    have (fresh : Label) := emitDiffers_keeps fresh _ (hresult.le (Nat.le_succ _)) (hprevious.le (Nat.le_succ _))
    have : Keeps W (op .copy o.result previous (o.width - 1)) (op .copy o'.result previous' (o.width - 1)) :=
      keeps_op (.copy ((hresult.le (by omega)).mono .inl) ((hprevious.le (by omega)).mono .inl))
    dsimp only
    infer_instance

instance [h : Tie Output.Twin W o o'] [Tie Counted W c c'] [hd : d.Sends] :
    Keeps W (o.emitDrain c d done) (o'.emitDrain c' d done) := by
  obtain ⟨hwidth, hresult, -, hsorting⟩ := h.rel
  have := hd.keeps hresult
  unfold emitDrain
  rw [hwidth]
  generalize o.sorting = s at hsorting
  generalize o'.sorting = s' at hsorting
  cases hsorting with
  | none => infer_instance
  | @some cursor keys block block' record record' hblock hrecord =>
    have := emitFields_keeps cursor _ keys.length hresult
    have : Tie Mated W record record' := ⟨hrecord⟩
    dsimp only
    infer_instance

instance [h : Tie Output.Twin W o o'] : Keeps W o.emitCloseAll o'.emitCloseAll := by
  obtain ⟨-, -, hdistinct, hsorting⟩ := h.rel
  unfold emitCloseAll
  generalize o.distinct = d at hdistinct
  generalize o'.distinct = d' at hdistinct
  generalize o.sorting = s at hsorting
  generalize o'.sorting = s' at hsorting
  cases hdistinct <;> cases hsorting <;> (dsimp only; infer_instance)

/-- The output has as many columns as the plan. -/
abbrev Widened (p : Plan) : Ties → Output → Output → Prop := fun W o o' => Output.Twin W o o' ∧ o.width = p.width

abbrev Sorted (width : Nat) : Ties → Sorting → Sorting → Prop := fun W s s' => Sorting.Twin W width (some s) (some s')

variable {p : Plan}

instance : Gets W (prepareSorting p) (prepareSorting p) (Sorted p.width.toNat) where
  twins := by
    have {V : Ties} {c r r' q q' : Int} [h : Tie (Blocks (p.orderBy.length + p.width)) V r r'] [k : Tie Mated V q q'] :
        Tie (Sorted p.width.toNat) V ⟨c, p.orderBy.map (·.1), r, q⟩ ⟨c, p.orderBy.map (·.1), r', q'⟩ := by
      refine ⟨.some (h.rel.le ?_) k.rel⟩
      simp only [List.length_map, Plan.width]
      omega
    unfold prepareSorting
    infer_instance

/-- Duplicates are kept, or looked up in an index. -/
theorem prepare_rest (useSorter : Bool) (hr : Blocks p.width W r r') (hd : ∀ {V}, distinct.Twin V r r' p.width.toNat distinct) :
    Twins W (if useSorter then do let s ← prepareSorting p; pure ⟨p.width, r, distinct, some s⟩
      else pure ⟨p.width, r, distinct, none⟩) (if useSorter then do let s ← prepareSorting p; pure ⟨p.width, r', distinct, some s⟩
      else pure ⟨p.width, r', distinct, none⟩) (Widened p) := by
  have : Tie (Widened p) W ⟨p.width, r, distinct, none⟩ ⟨p.width, r', distinct, none⟩ := ⟨⟨rfl, hr, hd, .none⟩, rfl⟩
  have (x : Later W (Sorted p.width.toNat)) :
      Tie (Widened p) x.world ⟨p.width, r, distinct, some x.left⟩ ⟨p.width, r', distinct, some x.right⟩ :=
    ⟨⟨rfl, hr.mono x.le.mates, hd, x.rel⟩, rfl⟩
  infer_instance

/-- Rows come sorted by their columns. The registers are handed out one after the other, so the register after the
result, and the one after the row before, correspond as well. -/
theorem prepare_ordered (hp : p.orderBy ≠ []) : Twins W (do
      let r ← registers p.width
      let first ← register
      op .integer 1 first 0
      let previous ← registers p.width
      let s ← prepareSorting p
      pure ⟨p.width, r, .ordered first previous, some s⟩) (do
      let r ← registers p.width
      let first ← register
      op .integer 1 first 0
      let previous ← registers p.width
      let s ← prepareSorting p
      pure ⟨p.width, r, .ordered first previous, some s⟩) (Widened p) := by
  have hpos : 0 < p.orderBy.length := List.length_pos_iff.mpr hp
  have hnonneg : 0 ≤ p.width := Int.natCast_nonneg _
  have hwidth : max p.width 0 = p.width.toNat := (Int.toNat_eq_max _).symm
  unfold prepareSorting
  simp only [bind_assoc, pure_bind]
  refine ⟨.of_from fun r r' => .registers fun x hresult => .registers (n := 1) fun y hfirst => ?_⟩
  rw [hwidth] at hfirst ⊢
  have : Tie Mated y.world (r + p.width.toNat) (r' + p.width.toNat) := ⟨hfirst.head⟩
  refine Keeps.from inferInstance (fun _ => ⟨_, _, rfl, rfl⟩) (fun _ => ⟨_, _, rfl, rfl⟩) fun _ => .registers fun z hprevious => ?_
  refine Keeps.from inferInstance (fun _ => ⟨_, _, rfl, rfl⟩) (fun _ => ⟨_, _, rfl, rfl⟩) fun cursor => ?_
  refine Keeps.from inferInstance (fun _ => ⟨_, _, rfl, rfl⟩) (fun _ => ⟨_, _, rfl, rfl⟩) fun _ => ?_
  refine .registers fun u hblock => .registers (n := 1) fun v hrecord b b' hb => ?_
  have hv := z.le.trans (u.le.trans v.le)
  refine ⟨⟨v.world, x.le.trans (y.le.trans hv)⟩, ⟨⟨rfl, ?_, .ordered (hv.mates hfirst.head) ?_ ?_, .some ?_ hrecord.head⟩, rfl⟩, hb.1⟩
  · exact hresult.mono (y.le.trans hv).mates
  · exact (hresult.mono (y.le.trans hv).mates).append (hfirst.mono hv.mates)
  · rw [hwidth] at hblock
    exact (hprevious.mono (u.le.trans v.le).mates).append ((hblock.le (by omega)).mono v.le.mates)
  · refine (hblock.le ?_).mono v.le.mates
    simp only [List.length_map]
    omega

theorem prepare_gets (useSorter : Bool) (h : useSorter = true → p.orderBy ≠ []) :
    Gets W (prepare p useSorter) (prepare p useSorter) (Widened p) where
  twins := by
    unfold prepare prepareDistinct
    by_cases hd : p.distinct = true
    · by_cases hs : useSorter = true ∧ p.orderCoversProjection = true
      · simp only [hd, hs.1, hs.2]
        have := prepare_ordered (W := W) (h hs.1)
        simpa using this
      · refine Gets.bind inferInstance fun x {r r'} hr => ?_
        simp only [hd, ← Bool.and_eq_true] at hs ⊢
        simp only [hs]
        have := fun c => prepare_rest useSorter hr (.unordered c)
        simp only [bind_assoc, pure_bind, Bool.not_true, Bool.false_eq_true, if_false]
        infer_instance
    · refine Gets.bind inferInstance fun x {r r'} hr => ?_
      simp only [hd]
      exact prepare_rest useSorter hr .none

end Output

/-! ## Groups -/

/-- The same call, with its arguments and its accumulator in corresponding registers. -/
inductive Call.Twin (W : Ties) : Call → Call → Prop
  | mk {e func args r r' q q'} (hargs : W.mates.Block r r' args.length) (haccumulator : W.mates q q') :
    Twin W ⟨e, func, args, r, q⟩ ⟨e, func, args, r', q'⟩

abbrev Calls : Ties → List Call → List Call → Prop := fun W => List.Forall₂ (Call.Twin W)

instance : Stable Calls :=
  ⟨fun hW h => h.imp fun _ _ ⟨hargs, haccumulator⟩ => ⟨hargs.mono hW.mates, hW.mates haccumulator⟩⟩

namespace Grouping

variable {p : Plan} {calls calls' : List Call} {bare es : List Resolved} {r r' q q' : Int}

instance : Tie Calls W [] [] := ⟨.nil⟩

instance {e : Resolved} {func : Aggregate} {args : List Resolved} [h : Tie (Blocks args.length) W r r'] [k : Tie Mated W q q']
    [hcalls : Tie Calls W calls calls'] : Tie Calls W (⟨e, func, args, r, q⟩ :: calls) (⟨e, func, args, r', q'⟩ :: calls') :=
  ⟨.cons ⟨h.rel, k.rel⟩ hcalls.rel⟩

theorem args_eq (h : Calls W calls calls') : calls'.flatMap (·.args) = calls.flatMap (·.args) := by
  induction h with
  | nil => rfl
  | cons hc _ ih =>
    obtain ⟨hargs, haccumulator⟩ := hc
    simp only [List.flatMap_cons, ih]

instance {found : List (Aggregate × List Resolved)} : Gets W (allocate found) (allocate found) Calls where
  twins := by
    induction found generalizing W with
    | nil => exact inferInstanceAs (Twins W (pure []) (pure []) Calls)
    | cons x rest ih =>
      have {V : Ties} : Gets V (allocate rest) (allocate rest) Calls := ⟨ih⟩
      unfold allocate
      infer_instance

instance [h : Tie Calls W calls calls'] : Keeps W (emitReset calls) (emitReset calls') := by
  obtain ⟨h⟩ := h
  induction h with
  | nil => exact inferInstanceAs (Keeps W (pure ()) (pure ()))
  | cons hc _ ih =>
    obtain ⟨hargs, haccumulator⟩ := hc
    have : Tie Mated W _ _ := ⟨haccumulator⟩
    unfold emitReset
    dsimp only
    split <;> infer_instance

instance [h : Tie Calls W calls calls'] : Keeps W (emitArgs calls) (emitArgs calls') := by
  obtain ⟨h⟩ := h
  induction h with
  | nil => exact inferInstanceAs (Keeps W (pure ()) (pure ()))
  | cons hc _ ih =>
    obtain ⟨hargs, haccumulator⟩ := hc
    have := emitExprs_keeps [] [] hargs
    unfold emitArgs
    infer_instance

instance [h : Tie Calls W calls calls'] : Keeps W (emitSteps calls) (emitSteps calls') := by
  obtain ⟨h⟩ := h
  induction h with
  | nil => exact inferInstanceAs (Keeps W (pure ()) (pure ()))
  | cons hc _ ih =>
    obtain @⟨e, func, args, r, r', q, q', hargs, haccumulator⟩ := hc
    unfold emitSteps argCount
    by_cases hlt : args.length < 256
    · have : Keeps W (opFlagged .aggStep 0 r q (.function func.name) (UInt8.ofNat args.length))
          (opFlagged .aggStep 0 r' q' (.function func.name) (UInt8.ofNat args.length)) := by
        refine keeps_op (.feed (Mates.Block.mono ?_ .inl) (.inl haccumulator))
        rwa [UInt8.toNat_ofNat_of_lt' hlt]
      simp only [hlt, if_true, pure_bind]
      infer_instance
    · simp only [hlt, if_false]
      exact ⟨fun _ _ _ => rfl⟩

instance [h : Tie Calls W calls calls'] : Keeps W (emitFinals calls) (emitFinals calls') := by
  obtain ⟨h⟩ := h
  induction h with
  | nil => exact inferInstanceAs (Keeps W (pure ()) (pure ()))
  | cons hc _ ih =>
    obtain ⟨hargs, haccumulator⟩ := hc
    have : Tie Mated W _ _ := ⟨haccumulator⟩
    unfold emitFinals argCount
    infer_instance

instance {count : Nat} [h : Tie (Blocks count) W r r'] : Keeps W (emitNulls r count) (emitNulls r' count) := by
  unfold emitNulls
  cases count with
  | zero => exact inferInstanceAs (Keeps W (pure ()) (pure ()))
  | succ n =>
    have heq (q : Int) : q + (n + 1 : Nat) - 1 = q + n := by omega
    simp only [Nat.succ_ne_zero, if_false, heq]
    exact keeps_op (.nulls n (h.rel.mono .inl))

instance [h : Tie (Blocks es.length) W r r'] : Tie Bound W (bindFrom es r) (bindFrom es r') := by
  refine ⟨List.forall₂_map_left_iff.mpr (List.forall₂_map_right_iff.mpr (List.forall₂_same.mpr fun x hx => ⟨rfl, ?_⟩))⟩
  exact h.rel x.2 (List.snd_lt_of_mem_zipIdx hx)

instance [h : Tie Calls W calls calls'] : Tie Bound W (bindCalls calls) (bindCalls calls') := by
  refine ⟨List.forall₂_map_left_iff.mpr (List.forall₂_map_right_iff.mpr (h.rel.imp ?_))⟩
  rintro _ _ ⟨hargs, haccumulator⟩
  exact ⟨rfl, haccumulator⟩

instance [Tie Calls W calls calls'] [Tie (Blocks bare.length) W r r'] :
    Keeps W (emitGather p calls bare r) (emitGather p calls' bare r') := by
  unfold emitGather
  infer_instance

theorem keeps_copy {n : Nat} (hn : n ≠ 0) (hr : W.mates.Block r r' n) (hq : W.mates.Block q q' n) :
    Keeps W (op .copy r q (n - 1)) (op .copy r' q' (n - 1)) :=
  keeps_op (.copy ((hr.le (by omega)).mono .inl) ((hq.le (by omega)).mono .inl))

theorem sortedFields_eq (h : Calls W calls calls') : sortedFields p calls' bare = sortedFields p calls bare := by
  rw [sortedFields, sortedFields, args_eq h]

/-- The same sorter, and its record in corresponding registers. -/
abbrev Held : Ties → Int × Int → Int × Int → Prop := fun W x x' => x'.1 = x.1 ∧ W.mates x.2 x'.2

set_option synthInstance.maxSize 512 in
instance [h : Tie Calls W calls calls'] : Gets W (emitSortRows p calls bare) (emitSortRows p calls' bare) Held where
  twins := by
    have {V : Ties} {c r r' : Int} [hr : Tie Mated V r r'] : Tie Held V (c, r) (c, r') := ⟨rfl, hr.rel⟩
    unfold emitSortRows
    rw [sortedFields_eq h.rel]
    dsimp only
    infer_instance

section

variable {w w' : Walk} {counters counters' : Counters} {o o' : Output} {d : Destination} {sorter : Int}
  {groupsEnd outputRoutine boundary sameGroup done : Label}

theorem emitArgFields_keeps (sorter field : Int) (h : Calls W calls calls') :
    Keeps W (emitArgFields sorter calls field) (emitArgFields sorter calls' field) := by
  induction h generalizing field with
  | nil => exact inferInstanceAs (Keeps W (pure ()) (pure ()))
  | cons hc _ ih =>
    obtain @⟨e, func, args, r, r', q, q', hargs, haccumulator⟩ := hc
    have := Output.emitFields_keeps sorter _ field hargs
    have := ih (field + args.length)
    unfold emitArgFields
    infer_instance

variable [Tie Mated W w.first w'.first] [hprevious : Tie (Blocks p.groupBy.length) W w.previous w'.previous]
  [hcurrent : Tie (Blocks p.groupBy.length) W w.current w'.current]
  [hcurrentBare : Tie (Blocks bare.length) W w.currentBare w'.currentBare]
  [hgroupBare : Tie (Blocks bare.length) W w.groupBare w'.groupBare] [Tie Linking W w.returnRegister w'.returnRegister]
  [hcalls : Tie Calls W calls calls'] [Tie Mated W r r']

instance : Keeps W (emitLoad p calls bare sorter r w) (emitLoad p calls' bare sorter r' w') := by
  have := Output.emitFields_keeps sorter p.groupBy.length 0 hcurrent.rel
  have := emitArgFields_keeps sorter p.groupBy.length hcalls.rel
  have := Output.emitFields_keeps sorter bare.length (p.groupBy.length + (calls.flatMap (·.args)).length)
    hcurrentBare.rel
  unfold emitLoad
  rw [args_eq hcalls.rel]
  dsimp only
  infer_instance

instance [hp : Fact (p.groupBy ≠ [])] : Keeps W (emitTake p calls bare w) (emitTake p calls' bare w') := by
  have := keeps_copy (n := p.groupBy.length) (mt List.length_eq_zero_iff.mp hp.out) hcurrent.rel hprevious.rel
  unfold emitTake
  cases bare with
  | nil =>
    simp only [List.isEmpty_nil, if_true]
    infer_instance
  | cons e bare =>
    have := keeps_copy (n := (e :: bare).length) (Nat.succ_ne_zero _) hcurrentBare.rel hgroupBare.rel
    infer_instance

instance : Keeps W (emitEnter p calls bare sorter r w groupsEnd boundary sameGroup)
    (emitEnter p calls' bare sorter r' w' groupsEnd boundary sameGroup) := by
  have := Output.emitDiffers_keeps boundary p.groupBy.length hcurrent.rel hprevious.rel
  unfold emitEnter
  infer_instance

instance [Fact (p.groupBy ≠ [])] : Keeps W (emitWalk p calls bare sorter r w groupsEnd outputRoutine boundary sameGroup)
    (emitWalk p calls' bare sorter r' w' groupsEnd outputRoutine boundary sameGroup) := by
  unfold emitWalk
  infer_instance

variable [Tie Counted W counters counters'] [Tie Output.Twin W o o'] [Fact (o.width = p.projection.length)] [d.Sends]

instance : Keeps W (emitGroupEnd p d calls bare counters o w done) (emitGroupEnd p d calls' bare counters' o' w' done) := by
  unfold emitGroupEnd groupBindings
  dsimp only
  infer_instance

instance [Fact (p.groupBy ≠ [])] : Keeps W (emitGroupLoop p d calls bare counters o sorter r w done)
    (emitGroupLoop p d calls' bare counters' o' sorter r' w' done) := by
  unfold emitGroupLoop
  infer_instance

end

/-- The groups are walked in corresponding registers. -/
structure Walk.Twin (p : Plan) (bare : List Resolved) (W : Ties) (w w' : Walk) : Prop where
  first : W.mates w.first w'.first
  previous : Blocks p.groupBy.length W w.previous w'.previous
  current : Blocks p.groupBy.length W w.current w'.current
  currentBare : Blocks bare.length W w.currentBare w'.currentBare
  groupBare : Blocks bare.length W w.groupBare w'.groupBare
  returnRegister : W.links w.returnRegister w'.returnRegister

instance [Tie Calls W calls calls'] : Gets W (prepareWalk p calls bare) (prepareWalk p calls' bare) (Walk.Twin p bare) where
  twins := by
    unfold prepareWalk
    refine Keeps.bind inferInstance fun _ => Gets.bind inferInstance fun x {first first'} hfirst => ?_
    have : Tie Mated x.world first first' := ⟨hfirst⟩
    refine Keeps.bind inferInstance fun _ => Gets.bind inferInstance fun x {previous previous'} hprevious => ?_
    have : Tie (Blocks p.groupBy.length) x.world previous previous' := ⟨hprevious⟩
    refine Keeps.bind inferInstance fun _ => Gets.bind inferInstance fun x {current current'} hcurrent => ?_
    have : Tie (Blocks p.groupBy.length) x.world current current' := ⟨hcurrent⟩
    refine Gets.bind inferInstance fun x {currentBare currentBare'} hcurrentBare => ?_
    have : Tie (Blocks bare.length) x.world currentBare currentBare' := ⟨hcurrentBare⟩
    refine Gets.bind inferInstance fun x {groupBare groupBare'} hgroupBare => ?_
    have : Tie (Blocks bare.length) x.world groupBare groupBare' := ⟨hgroupBare⟩
    refine Keeps.bind inferInstance fun _ => gets_link.bind fun x {r r'} hr => ?_
    have : Tie (Walk.Twin p bare) x.world ⟨first, previous, current, currentBare, groupBare, r⟩
        ⟨first', previous', current', currentBare', groupBare', r'⟩ :=
      ⟨⟨(inferInstance : Tie Mated x.world _ _).rel, (inferInstance : Tie (Blocks _) x.world _ _).rel,
        (inferInstance : Tie (Blocks _) x.world _ _).rel, (inferInstance : Tie (Blocks _) x.world _ _).rel,
        (inferInstance : Tie (Blocks _) x.world _ _).rel, hr⟩⟩
    infer_instance

section

variable {counters counters' : Counters} {d : Destination} {done : Label} [Tie Calls W calls calls']
  [Tie Counted W counters counters'] [d.Sends]

instance : Gets W (emitSingleGroup p d calls bare counters done) (emitSingleGroup p d calls' bare counters' done) Equal where
  twins := by
    unfold emitSingleGroup
    refine Gets.bind inferInstance fun x {r r'} hr => ?_
    have : Tie (Blocks bare.length) x.world r r' := ⟨hr⟩
    refine Keeps.bind inferInstance fun _ => Keeps.bind inferInstance fun _ => ?_
    refine (Output.prepare_gets false nofun).bind fun y {o o'} ho => ?_
    have : Tie Output.Twin y.world o o' := ⟨ho.1⟩
    have : Fact (o.width = p.projection.length) := ⟨ho.2⟩
    dsimp only
    infer_instance

instance [Fact (p.groupBy ≠ [])] : Gets W (emitGroups p d calls bare counters done) (emitGroups p d calls' bare counters' done) Equal where
  twins := by
    unfold emitGroups
    refine Gets.bind inferInstance fun x {s s'} hs => ?_
    obtain ⟨sorter, record⟩ := s
    obtain ⟨sorter', record'⟩ := s'
    obtain ⟨rfl, hrecord⟩ := hs
    have : Tie Mated x.world record record' := ⟨hrecord⟩
    refine (Output.prepare_gets _ (by simp)).bind fun y {o o'} ho => ?_
    have : Tie Output.Twin y.world o o' := ⟨ho.1⟩
    have : Fact (o.width = p.projection.length) := ⟨ho.2⟩
    refine Gets.bind inferInstance fun z {w w'} hw => ?_
    have : Tie Mated z.world w.first w'.first := ⟨hw.first⟩
    have : Tie (Blocks p.groupBy.length) z.world w.previous w'.previous := ⟨hw.previous⟩
    have : Tie (Blocks p.groupBy.length) z.world w.current w'.current := ⟨hw.current⟩
    have : Tie (Blocks bare.length) z.world w.currentBare w'.currentBare := ⟨hw.currentBare⟩
    have : Tie (Blocks bare.length) z.world w.groupBare w'.groupBare := ⟨hw.groupBare⟩
    have : Tie Linking z.world w.returnRegister w'.returnRegister := ⟨hw.returnRegister⟩
    infer_instance

end

instance {d : Destination} [d.Sends] : Gets W (Grouping.emit p d) (Grouping.emit p d) Equal where
  twins := by
    unfold Grouping.emit
    dsimp only
    refine Keeps.bind inferInstance fun found => Gets.bind inferInstance fun x {calls calls'} hcalls => ?_
    have : Tie Calls x.world calls calls' := ⟨hcalls⟩
    refine Keeps.bind inferInstance fun _ => Keeps.bind inferInstance fun done => ?_
    refine Gets.bind inferInstance fun y {c c'} hc => ?_
    have : Tie Counted y.world c c' := ⟨hc⟩
    split
    · infer_instance
    case isFalse hgroupBy =>
      have : Fact (p.groupBy ≠ []) := ⟨mt List.isEmpty_iff.mpr hgroupBy⟩
      infer_instance

end Grouping

/-! ## Queries -/

variable {p : Plan} {d : Destination}

set_option synthInstance.maxSize 512 in
instance [d.Sends] : Gets W (emitPlain p d) (emitPlain p d) Equal where
  twins := by
    unfold emitPlain
    dsimp only
    refine Keeps.bind inferInstance fun _ => Keeps.bind inferInstance fun done => ?_
    refine Gets.bind inferInstance fun x {c c'} hc => ?_
    have : Tie Counted x.world c c' := ⟨hc⟩
    refine (Output.prepare_gets _ (by simp)).bind fun y {o o'} ho => ?_
    have : Tie Output.Twin y.world o o' := ⟨ho.1⟩
    have : Fact (o.width = p.projection.length) := ⟨ho.2⟩
    rw [ho.1.sorting.isSome_eq]
    infer_instance

instance [d.Sends] : Gets W (emitPlan p d) (emitPlan p d) Equal where
  twins := by
    unfold emitPlan
    infer_instance

instance {plans : List Plan} [d.Sends] : Gets W (emitPlans d plans) (emitPlans d plans) Equal where
  twins := by
    induction plans generalizing W with
    | nil => exact inferInstanceAs (Twins W (pure ()) (pure ()) Equal)
    | cons p plans ih =>
      unfold emitPlans
      infer_instance

section

variable {schema : Schema} {names : List String} {plans united rest : List Plan} {set : Option Int} {c : Int}

instance {tables : List TableRef} : Keeps W (openScope schema tables) (openScope schema tables) := by
  induction tables with
  | nil => exact inferInstanceAs (Keeps W (pure []) (pure []))
  | cons t tables ih =>
    unfold openScope
    infer_instance

instance {s : Selection} {orderBy : List OrderingTerm} {limit : Option LimitClause} :
    Keeps W (planSelection schema s orderBy limit) (planSelection schema s orderBy limit) := by
  unfold planSelection
  infer_instance

namespace Compound

instance {width : Nat} {arms : List (CompoundOp × Selection)} : Keeps W (planArms schema width arms) (planArms schema width arms) := by
  induction arms with
  | nil => exact inferInstanceAs (Keeps W (pure []) (pure []))
  | cons arm arms ih =>
    unfold planArms
    infer_instance

instance : Gets W (emitSet names plans) (emitSet names plans) Equal where
  twins := by
    unfold emitSet
    infer_instance

instance : Gets W (emitCopy names c set) (emitCopy names c set) Equal where
  twins := by
    cases set <;> (unfold emitCopy; infer_instance)

instance : Gets W (emitTable names set plans) (emitTable names set plans) Equal where
  twins := by
    unfold emitTable
    infer_instance

instance : Gets W (emitCollect names united rest) (emitCollect names united rest) Equal where
  twins := by
    unfold emitCollect
    infer_instance

instance {q : Query} [d.Sends] : Gets W (Compound.emit schema q d) (Compound.emit schema q d) Equal where
  twins := by
    unfold Compound.emit
    dsimp only
    split <;> infer_instance

end Compound

instance {q : Query} [d.Sends] : Gets W (emitQuery schema q d) (emitQuery schema q d) Equal where
  twins := by
    unfold emitQuery
    infer_instance

end

end QueryMachine
