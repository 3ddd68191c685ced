import QueryMachine.Proofs.Compile.Setting
import QueryMachine.Proofs.Compile.Steps

/-!
# The code of expressions computes their values

* `Denotes` — the value of an expression in a state: what a register holds for a bound expression,
  and what cursors show for the rest.
* `emitExpr_leads` — the code of an expression leaves its value in the target and every other
  register in use alone.
* `emitFilter_leads` — the code of a filter goes on exactly where the filter is true.
-/

namespace QueryMachine

open Machine Emit

variable {σ : Setting} {b b' b1 : Builder} {s s' : State} {v : Value} {target : Int} {bindings : Bindings}
  {e : Resolved} {A : Fault → Prop} {vs : List Value} {a : Nat} {skip : Label} {R C : Int → Prop}
  {read : Place → Value} {filter : Option Resolved}

/-! ## Values in a state -/

/-- The value of an expression in a state. Where a place cannot be read, and that is a fault in `A`,
its value does not matter; nor does that of a call of an aggregate that is bound to no register,
which has no code. -/
inductive Denotes (A : Fault → Prop) (bindings : Bindings) (s : State) : Resolved → Value → Prop
  | bound {e : Resolved} {r : Int} : bindings.register? e = some r →
      Denotes A bindings s e (s.get r)
  | ref {p : Place} {v : Value} : bindings.register? (.ref p) = none → s.Shows p v →
      Denotes A bindings s (.ref p) v
  | hidden {p : Place} {v : Value} : bindings.register? (.ref p) = none → s.Hides A p →
      Denotes A bindings s (.ref p) v
  | lit {v : Value} : bindings.register? (.lit v) = none → Denotes A bindings s (.lit v) v
  | binary {operator : Operator} {left right : Resolved} {a c : Value} :
      bindings.register? (.binary operator left right) = none → Denotes A bindings s left a →
      Denotes A bindings s right c →
      Denotes A bindings s (.binary operator left right) (operator.apply a c)
  | aggregate {func : Aggregate} {args : List Resolved} {v : Value} :
      bindings.register? (.aggregate func args) = none →
      Denotes A bindings s (.aggregate func args) v

theorem Bindings.mem_of_register? {r : Int} (h : bindings.register? e = some r) : ∃ e', (e', r) ∈ bindings := by
  unfold Bindings.register? at h
  obtain ⟨pair, hfind, rfl⟩ := Option.map_eq_some_iff.mp h
  exact ⟨pair.1, List.mem_of_find?_eq_some hfind⟩

/-- Values stay what they are while the bound registers and the cursors do. -/
theorem Denotes.frame (h : Denotes A bindings s e v) (hframe : Frame R C s s') (hbound : ∀ p ∈ bindings, R p.2)
    (hC : ∀ p ∈ e.places, C p.cursor) : Denotes A bindings s' e v := by
  induction h with
  | bound hr =>
    obtain ⟨e', hin⟩ := Bindings.mem_of_register? hr
    rw [← hframe.get _ (hbound _ hin)]
    exact .bound hr
  | ref hn hs => exact .ref hn (hframe.shows (hC _ (List.mem_singleton_self _)) hs)
  | hidden hn hs => exact .hidden hn (hframe.hides (hC _ (List.mem_singleton_self _)) hs)
  | lit hn => exact .lit hn
  | binary hn _ _ ihl ihr =>
    exact .binary hn (ihl fun p hp => hC p (List.mem_append_left _ hp))
      (ihr fun p hp => hC p (List.mem_append_right _ hp))
  | aggregate hn => exact .aggregate hn

theorem forall₂_denotes_frame : ∀ {es : List Resolved} {vs : List Value}, List.Forall₂ (Denotes A bindings s) es vs →
      Frame R C s s' → (∀ p ∈ bindings, R p.2) → (∀ e ∈ es, ∀ p ∈ e.places, C p.cursor) →
      List.Forall₂ (Denotes A bindings s') es vs
  | [], _, .nil, _, _, _ => .nil
  | e :: _, _, .cons hv hvs, hf, hR, hC =>
    .cons (hv.frame hf hR (hC e List.mem_cons_self))
      (forall₂_denotes_frame hvs hf hR fun e he => hC e (List.mem_cons_of_mem _ he))

/-! ## One instruction -/

/-- In the state `s` the instruction sets `target` to `v`, and does no more. -/
structure Stores (i : Instruction) (s : State) (target : Int) (v : Value) : Prop where
  changesRows : i.opcode.changesRows = false
  runs : ∀ env pc, execute env pc i s = .ok (.next, s.set target v)

theorem Stores.leads {i : Instruction} (h : Stores i s target v) (hend : (b.emit i).Begins σ.final) :
    σ.Leads (fun pc s' => pc = (b.emit i).address ∧ s' = s.set target v) b.address s :=
  .op hend h.changesRows (h.runs _ _) (.here ⟨rfl, rfl⟩)

theorem setNulls_one (hpos : 0 ≤ target) (s : State) :
    setNulls target (max 0 target - target + 1).toNat s = s.set target .null := by
  have hone : (max 0 target - target + 1).toNat = 1 := by omega
  rw [hone]
  rfl

theorem emitInt_stores {i : Int64} (h : (emitInt i target).Gives b () b') :
    ∃ j, b' = b.emit j ∧ ∀ s, Stores j s target (.int i) := by
  unfold emitInt at h
  split at h
  · obtain rfl := gives_op.mp h
    refine ⟨_, rfl, fun s => ⟨rfl, fun env pc => ?_⟩⟩
    simp only [execute, Instruction.plain, Int64.ofInt_toInt]
  · obtain rfl := gives_opWith.mp h
    exact ⟨_, rfl, fun _ => ⟨rfl, fun _ _ => rfl⟩⟩

theorem emitValue_stores (h : (emitValue v target).Gives b () b') :
    ∃ i, b' = b.emit i ∧ ∀ s, 0 ≤ target → Stores i s target v := by
  cases v with
  | null =>
    obtain rfl := gives_op.mp h
    refine ⟨_, rfl, fun s hpos => ⟨rfl, fun env pc => ?_⟩⟩
    simp only [execute, Instruction.plain, setNulls_one hpos]
  | int i =>
    obtain ⟨j, rfl, hj⟩ := emitInt_stores h
    exact ⟨j, rfl, fun s _ => hj s⟩
  | real x =>
    obtain rfl := gives_opWith.mp h
    exact ⟨_, rfl, fun _ _ => ⟨rfl, fun _ _ => rfl⟩⟩
  | text t =>
    obtain rfl := gives_opWith.mp h
    exact ⟨_, rfl, fun _ _ => ⟨rfl, fun _ _ => rfl⟩⟩
  | blob bytes =>
    unfold emitValue at h
    obtain ⟨length, b1, hlength, hblob⟩ := gives_bind.mp h
    obtain ⟨-, rfl⟩ := gives_operand hlength
    obtain rfl := gives_opWith.mp hblob
    exact ⟨_, rfl, fun _ _ => ⟨rfl, fun _ _ => rfl⟩⟩

theorem emitPlace_stores {p : Place} (h : (emitPlace p target).Gives b () b') :
    ∃ i, b' = b.emit i ∧ (∀ s v, s.Shows p v → Stores i s target v) ∧
      ∀ A s, s.Hides A p → ∀ env pc, ∃ f, A f ∧ execute env pc i s = .error f := by
  cases p with
  | rowid c =>
    obtain rfl := gives_op.mp h
    refine ⟨_, rfl, fun s v hs => ⟨rfl, fun env pc => ?_⟩, fun A s hs env pc => ?_⟩
    · obtain ⟨id, hid, rfl⟩ := hs
      simp only [execute, Instruction.plain, readRowid, hid]
    · obtain ⟨f, hf, hread⟩ := hs pc
      refine ⟨f, hf, ?_⟩
      simp only [execute, Instruction.plain, readRowid, hread]
  | field c index =>
    unfold emitPlace at h
    obtain ⟨field, b1, hfield, hcolumn⟩ := gives_bind.mp h
    obtain ⟨rfl, rfl⟩ := gives_operand hfield
    obtain rfl := gives_op.mp hcolumn
    refine ⟨_, rfl, fun s v hs => ⟨rfl, fun env pc => ?_⟩, fun A s hs env pc => ?_⟩
    · obtain ⟨row, hrow, rfl⟩ := hs
      simp only [execute, Instruction.plain, readField, hrow]
    · obtain ⟨f, hf, hread⟩ := hs pc
      refine ⟨f, hf, ?_⟩
      simp only [execute, Instruction.plain, readField, hread]

theorem emitOperator_stores {operator : Operator} {left right : Int}
    (h : (emitOperator operator left right target).Gives b () b') :
    ∃ i, b' = b.emit i ∧ ∀ s, Stores i s target (operator.apply (s.get left) (s.get right)) := by
  cases operator with
  | and | or | add | subtract | multiply | divide =>
    obtain rfl := gives_op.mp h
    exact ⟨_, rfl, fun _ => ⟨rfl, fun _ _ => rfl⟩⟩
  | eq | ne | lt | le | gt | ge =>
    obtain rfl := gives_opFlagged.mp h
    refine ⟨_, rfl, fun s => ⟨rfl, fun env pc => ?_⟩⟩
    have hstore : (Flag.storeResult &&& Flag.storeResult != 0) = true := by decide
    have hnull : (Flag.storeResult &&& Flag.nullEqual != 0) = false := by decide
    simp only [execute, Operator.opcode, compareRegisters, Instruction.has, hstore, hnull]
    rfl

/-! ## Expressions -/

/-- **The code of an expression leaves its value in the target**, and the other registers in use, the
cursors and the rows given out alone. -/
theorem emitExpr_leads : (emitExpr bindings e target).Gives b () b' → b.Valid → 0 ≤ target →
    (∀ p ∈ bindings, b.Holds p.2) → b'.Begins σ.final → Denotes σ.Admits bindings s e v →
    σ.Leads (fun pc s' => pc = b'.address ∧ s'.get target = v ∧
      Quiet (fun r => b.Holds r ∧ r ≠ target) (fun _ => True) s s') b.address s := by
  fun_induction emitExpr bindings e target generalizing b b' s v with
  | case1 e target r hr =>
    intro h hb ht hbound hend hv
    obtain rfl := gives_op.mp h
    cases hv with
    | bound hr' =>
      rw [hr] at hr'
      cases hr'
      refine .op hend rfl rfl (.here ⟨rfl, State.get_set_self .., ?_⟩)
      exact .set s _ fun q hq => ⟨hq.1.1, hq.2⟩
    | ref hn | hidden hn | lit hn | binary hn | aggregate hn =>
      rw [hr] at hn
      cases hn
  | case2 target p hn =>
    intro h hb ht hbound hend hv
    obtain ⟨i, rfl, hi, hstuck⟩ := emitPlace_stores h
    cases hv with
    | bound hr =>
      rw [hn] at hr
      cases hr
    | hidden _ hs =>
      obtain ⟨f, hf, hx⟩ := hstuck _ s hs σ.env b.address
      exact .failed hend hx hf
    | ref _ hs =>
      refine (hi s v hs).leads hend |>.mono ?_
      rintro pc s' ⟨rfl, rfl⟩
      exact ⟨rfl, State.get_set_self .., .set s _ fun q hq => ⟨hq.1.1, hq.2⟩⟩
  | case3 target v hn =>
    intro h hb ht hbound hend hv
    obtain ⟨i, rfl, hi⟩ := emitValue_stores h
    cases hv with
    | bound hr =>
      rw [hn] at hr
      cases hr
    | lit _ =>
      refine (hi s ht).leads hend |>.mono ?_
      rintro pc s' ⟨rfl, rfl⟩
      exact ⟨rfl, State.get_set_self .., .set s _ fun q hq => ⟨hq.1.1, hq.2⟩⟩
  | case4 target operator left right hn ihl ihr =>
    intro h hb ht hbound hend hv
    simp only [gives_bind, gives_giveBack] at h
    obtain ⟨l, b1, hl, _, b2, hleft, r, b3, hr, _, b4, hright, _, b5, hop, _, b6, rfl, rfl⟩ := h
    have hl := takes_temp hl hb
    have h2 := hleft.grows hl.grows.valid
    have hr := takes_temp hr h2.valid
    have h4 := hright.grows hr.grows.valid
    obtain ⟨i, rfl, hi⟩ := emitOperator_stores hop
    have hend4 : b4.Begins σ.final :=
      ((Builder.Grows.refl h4.valid).emit i).begins.trans hend.of_pool.of_pool
    have hend2 := (hr.grows.trans h4).begins.trans hend4
    have hlb : b1.Holds l := hl.held rfl
    have hrb : b3.Holds r := hr.held rfl
    have hlr : l ≠ r := by
      rintro rfl
      exact hr.new rfl (h2.holds _ hlb)
    -- What the caller holds is neither of the two temporaries.
    have hold : ∀ q, b.Holds q → q ≠ l ∧ q ≠ r := by
      intro q hq
      refine ⟨fun hql => hl.new hql hq, fun hqr => hr.new hqr (h2.holds _ (hl.grows.holds _ hq))⟩
    cases hv with
    | bound hr =>
      rw [hn] at hr
      cases hr
    | binary _ hleftv hrightv =>
      rename_i x y _
      have hstart := hl.address
      rw [← hstart]
      refine (ihl l hleft hl.grows.valid (Int.le_of_lt hlb.1) (fun p hp => hl.grows.holds _ (hbound p hp)) hend2
        hleftv).bind ?_
      rintro pc s2 ⟨rfl, hx, hq2⟩
      have hrightv2 : Denotes σ.Admits bindings s2 right y :=
        hrightv.frame hq2.toFrame
          (fun p hp => ⟨hl.grows.holds _ (hbound p hp), (hold _ (hbound p hp)).1⟩)
          fun _ _ => trivial
      rw [← hr.address]
      refine (ihr r hright hr.grows.valid (Int.le_of_lt hrb.1) ?_ hend4 hrightv2).bind ?_
      · exact fun p hp => hr.grows.holds _ (h2.holds _ (hl.grows.holds _ (hbound p hp)))
      rintro pc s4 ⟨rfl, hy, hq4⟩
      have hx4 : s4.get l = x :=
        (hq4.get l ⟨hr.grows.holds _ (h2.holds _ hlb), hlr⟩).trans hx
      refine (hi s4).leads hend.of_pool.of_pool |>.mono ?_
      rintro pc s' ⟨rfl, rfl⟩
      rw [hx4, hy]
      refine ⟨rfl, State.get_set_self .., ?_⟩
      refine .trans (.trans (hq2.mono ?_ fun _ h => h) (hq4.mono ?_ fun _ h => h))
        (.set s4 _ fun q hq => ⟨hq.1.1, hq.2⟩)
      · exact fun q hq => ⟨hl.grows.holds _ hq.1, (hold q hq.1).1⟩
      · exact fun q hq => ⟨hr.grows.holds _ (h2.holds _ (hl.grows.holds _ hq.1)), (hold q hq.1).2⟩
  | case5 target func args hn =>
    intro h
    exact (gives_throw h).elim

theorem denotes_eval : ∀ e : Resolved, (∀ p ∈ e.places, s.Shows p (read p) ∨ s.Hides A p) →
      Denotes A [] s e (e.eval read)
  | .ref p, h => (h p (List.mem_singleton_self p)).elim (.ref rfl) (.hidden rfl)
  | .lit _, _ => .lit rfl
  | .binary _ left right, h => .binary rfl
      (denotes_eval left fun p hp => h p (List.mem_append_left _ hp))
      (denotes_eval right fun p hp => h p (List.mem_append_right _ hp))
  | .aggregate _ _, _ => .aggregate rfl

/-! ## Blocks -/

/-- The code of a list of expressions leaves their values in the block. -/
theorem emitExprs_leads {es : List Resolved} (h : (emitExprs bindings es target).Gives b () b') (hb : b.Valid)
    (ht : b.HoldsBlock target es.length)
    (hbound : ∀ p ∈ bindings, b.Holds p.2 ∧ (p.2 < target ∨ target + es.length ≤ p.2)) (hend : b'.Begins σ.final)
    (hvs : List.Forall₂ (Denotes σ.Admits bindings s) es vs) :
    σ.Leads (fun pc s' => pc = b'.address ∧ s'.getBlock target es.length = vs ∧
      Quiet (fun r => b.Holds r ∧ (r < target ∨ target + es.length ≤ r)) (fun _ => True) s s') b.address s := by
  induction es generalizing target b s vs with
  | nil =>
    cases hvs
    obtain ⟨-, rfl⟩ := gives_pure.mp h
    exact .here ⟨rfl, rfl, .refl s⟩
  | cons e es ih =>
    obtain ⟨v, rest, hv, hrest, rfl⟩ := List.forall₂_cons_left_iff.mp hvs
    obtain ⟨_, b1, he, hes⟩ := gives_bind.mp h
    have h1 := he.grows hb
    have hend1 := (hes.grows h1.valid).begins.trans hend
    simp only [List.length_cons] at ht hbound ⊢
    have hfirst : b.Holds target := ht target (by omega) (by omega)
    refine (emitExpr_leads he hb (Int.le_of_lt hfirst.1) (fun p hp => (hbound p hp).1) hend1 hv).bind ?_
    rintro pc s1 ⟨rfl, hget, hq1⟩
    have hrest1 : List.Forall₂ (Denotes σ.Admits bindings s1) es rest := by
      refine forall₂_denotes_frame hrest hq1.toFrame (fun p hp => ⟨(hbound p hp).1, ?_⟩)
        fun _ _ _ _ => trivial
      have := (hbound p hp).2
      omega
    refine (ih hes h1.valid ?_ ?_ hrest1).mono ?_
    · intro r hle hlt
      exact h1.holds r (ht r (by omega) (by omega))
    · intro p hp
      refine ⟨h1.holds _ (hbound p hp).1, ?_⟩
      have := (hbound p hp).2
      omega
    rintro pc s' ⟨rfl, hblock, hq⟩
    refine ⟨rfl, ?_, .trans (hq1.mono ?_ fun _ h => h) (hq.mono ?_ fun _ h => h)⟩
    · rw [State.getBlock_succ, hblock, hq.get target ⟨h1.holds _ hfirst, by omega⟩, hget]
    · rintro r ⟨hr, hout⟩
      exact ⟨hr, by omega⟩
    · rintro r ⟨hr, hout⟩
      exact ⟨h1.holds _ hr, by omega⟩

/-! ## Filters -/

/-- The tests go on exactly where every term is true. -/
theorem emitTests_leads {es : List Resolved} (h : (emitTests bindings skip es).Gives b () b') (hb : b.Valid)
    (hbound : ∀ p ∈ bindings, b.Holds p.2) (hend : b'.Begins σ.final) (hl : skip < b.labels.size) (hat : σ.At skip a)
    (hvs : List.Forall₂ (Denotes σ.Admits bindings s) es vs) :
    σ.Leads (fun pc s' => Quiet b.Holds (fun _ => True) s s' ∧
      if ∀ v ∈ vs, v.truth? = some true then pc = b'.address else pc = a) b.address s := by
  induction es generalizing b s vs with
  | nil =>
    cases hvs
    obtain ⟨-, rfl⟩ := gives_pure.mp h
    exact .here ⟨.refl s, by simp⟩
  | cons e es ih =>
    obtain ⟨v, rest, hv, hrest, rfl⟩ := List.forall₂_cons_left_iff.mp hvs
    simp only [emitTests, gives_bind, gives_jump, gives_giveBack] at h
    obtain ⟨r, b1, hr, _, b2, he, _, b3, rfl, _, b4, rfl, hes⟩ := h
    have hr := takes_temp hr hb
    have h2 := he.grows hr.grows.valid
    have h3 := (hr.grows.trans h2).emitJump .ifNot r 1 skip .empty 0
    have h4 := h3.giveBack (hr.new rfl) (h2.holds _ (hr.held rfl))
    have hend4 := (hes.grows h4.valid).begins.trans hend
    have hend2 := ((Builder.Grows.refl h2.valid).emitJump .ifNot r 1 skip .empty 0).begins.trans
      hend4.of_pool
    have hout : ∀ q, b.Holds q → q ≠ r := fun q hq hqr => hr.new hqr hq
    have hl2 : skip < b2.labels.size := Nat.lt_of_lt_of_le hl (hr.grows.trans h2).labels_le
    rw [← hr.address]
    refine (emitExpr_leads he hr.grows.valid (Int.le_of_lt (hr.held rfl).1)
      (fun p hp => hr.grows.holds _ (hbound p hp)) hend2 hv).bind ?_
    rintro pc s1 ⟨rfl, hget, hq1⟩
    have hq1 : Quiet b.Holds (fun _ => True) s s1 :=
      hq1.mono (fun q hq => ⟨hr.grows.holds _ hq, hout q hq⟩) fun _ h => h
    by_cases htrue : v.truth? = some true
    · -- The term is true: the next one is tested.
      have hrest1 : List.Forall₂ (Denotes σ.Admits bindings s1) es rest :=
        forall₂_denotes_frame hrest hq1.toFrame hbound fun _ _ _ _ => trivial
      refine .passed hend4.of_pool hl2 hat rfl (t := s1) ?_ ?_
      · simp [execute, jumpOnTruth, jumpIf, hget, htrue]
      refine (ih hes h4.valid (fun p hp => h4.holds _ (hbound p hp))
        (Nat.lt_of_lt_of_le hl h4.labels_le) hrest1).mono ?_
      rintro pc s' ⟨hq, hpc⟩
      refine ⟨hq1.trans (hq.mono (fun q hq => h4.holds q hq) fun _ h => h), ?_⟩
      simpa [htrue] using hpc
    · refine .taken hend4.of_pool hl2 hat rfl (t := s1) ?_ (.here ⟨hq1, ?_⟩)
      · rcases ht : v.truth? with _ | _ | _
        · simp [execute, jumpOnTruth, jumpIf, hget, ht]
        · simp [execute, jumpOnTruth, jumpIf, hget, ht]
        · exact absurd ht htrue
      · rw [if_neg]
        exact fun hall => htrue (hall v List.mem_cons_self)

/-- The terms of a filter that are tested one by one. -/
def Expr.tests : Option Resolved → List Resolved
  | none => []
  | some filter => filter.conjuncts

/-- **The code of a filter goes on exactly where the filter is true**, and else skips. -/
theorem emitFilter_leads (h : (emitFilter bindings skip filter).Gives b () b')
    (hb : b.Valid) (hbound : ∀ p ∈ bindings, b.Holds p.2) (hend : b'.Begins σ.final) (hl : skip < b.labels.size)
    (hat : σ.At skip a) (hvs : List.Forall₂ (Denotes σ.Admits bindings s) (Expr.tests filter) vs) :
    σ.Leads (fun pc s' => Quiet b.Holds (fun _ => True) s s' ∧
      if ∀ v ∈ vs, v.truth? = some true then pc = b'.address else pc = a) b.address s := by
  cases filter with
  | none =>
    cases hvs
    obtain ⟨-, rfl⟩ := gives_pure.mp h
    exact .here ⟨.refl s, by simp⟩
  | some filter => exact emitTests_leads h hb hbound hend hl hat hvs

theorem mem_places_of_conjuncts {c : Resolved} (hc : c ∈ e.conjuncts) {p : Place} (hp : p ∈ c.places) :
    p ∈ e.places := by
  fun_induction Expr.conjuncts e with
  | case1 left right ihl ihr =>
    rcases List.mem_append.mp hc with hc | hc
    · exact List.mem_append_left _ (ihl hc)
    · exact List.mem_append_right _ (ihr hc)
  | case2 e _ =>
    rw [List.mem_singleton.mp hc] at hp
    exact hp

/-- A filter without bound parts lets a row pass exactly where it is true of what is read. -/
theorem emitFilter_leads_of_reads (h : (emitFilter [] skip filter).Gives b () b') (hb : b.Valid)
    (hend : b'.Begins σ.final) (hl : skip < b.labels.size) (hat : σ.At skip a)
    (hreads : ∀ e, filter = some e → ∀ p ∈ e.places, s.Shows p (read p) ∨ s.Hides σ.Admits p) :
    σ.Leads (fun pc s' => Quiet b.Holds (fun _ => True) s s' ∧
      if Expr.holds read filter = true then pc = b'.address else pc = a) b.address s := by
  have hvalues : List.Forall₂ (Denotes σ.Admits [] s) (Expr.tests filter)
      ((Expr.tests filter).map (·.eval read)) := by
    rw [List.forall₂_map_right_iff, List.forall₂_same]
    intro c hc
    cases filter with
    | none => exact (List.not_mem_nil hc).elim
    | some e => exact denotes_eval c fun p hp => hreads e rfl p (mem_places_of_conjuncts hc hp)
  have hholds : (∀ v ∈ (Expr.tests filter).map (·.eval read), v.truth? = some true) ↔
      Expr.holds read filter = true := by
    cases filter with
    | none => simp [Expr.tests, Expr.holds]
    | some e =>
      simp only [Expr.tests, List.forall_mem_map, Expr.holds, beq_iff_eq]
      exact (Expr.truth?_eval_conjuncts read e).symm
  refine (emitFilter_leads h hb (fun p hp => (List.not_mem_nil hp).elim) hend hl hat hvalues).mono ?_
  rintro pc s' ⟨hq, hcase⟩
  refine ⟨hq, ?_⟩
  by_cases htrue : Expr.holds read filter = true
  · rw [if_pos htrue]
    rwa [if_pos (hholds.mpr htrue)] at hcase
  · rw [if_neg htrue]
    rwa [if_neg fun hall => htrue (hholds.mp hall)] at hcase

end QueryMachine
