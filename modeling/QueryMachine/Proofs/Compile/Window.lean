import QueryMachine.Proofs.Compile.Expression
import QueryMachine.Proofs.Query.Steps

/-!
# Counting rows for OFFSET and LIMIT

Two registers count down the rows still to be skipped and those that may still pass.

* `Window.step` — one row comes; after the last one that may pass, nothing more happens.
* `Window.foldlM_step` — row by row, what passes is the window of the list.
* `Counters.Counts` — the registers hold the state of a window.
* `emitCounters_leads` — OFFSET and LIMIT are loaded, and a LIMIT of zero ends the query at once.
-/

namespace QueryMachine

open Machine Emit

variable {σ : Setting} {b b' : Builder} {s : State} {c : Counters} {w : Window} {a : Nat} {done : Label}
  {l : Option Int} {i : Int} {v : Value} {limit offset : Option Resolved} {p : Plan}

/-! ## Windows row by row -/

/-- One row comes to a window; an error says that the window is used up. -/
def Window.step {α : Type} (x : Window × List α) (row : α) :
    Except (List α) (Window × List α) :=
  if 0 < x.1.skip then .ok ({ x.1 with skip := x.1.skip - 1 }, x.2)
  else
    match x.1.keep with
    | none => .ok (x.1, x.2 ++ [row])
    | some n =>
      if n = 1 then .error (x.2 ++ [row])
      else .ok ({ x.1 with keep := some (n - 1) }, x.2 ++ [row])

/-- The rows that passed, whether or not the window was used up. -/
def Window.passed {α : Type} : Except (List α) (Window × List α) → List α
  | .ok x => x.2
  | .error out => out

/-- **Row by row, the window of the list passes.** -/
theorem Window.foldlM_step {α : Type} (rows : List α) (w : Window) (out : List α)
    (hkeep : w.keep ≠ some 0) :
    Window.passed (rows.foldlM Window.step (w, out)) = out ++ w.apply rows := by
  induction rows generalizing w out with
  | nil =>
    obtain ⟨skip, keep⟩ := w
    cases keep <;> simp [Window.apply, Window.passed, pure, Except.pure]
  | cons row rows ih =>
    rw [List.foldlM_cons]
    obtain ⟨skip, keep⟩ := w
    cases skip with
    | succ skip =>
      have hstep : Window.step (⟨skip + 1, keep⟩, out) row = .ok (⟨skip, keep⟩, out) := rfl
      rw [hstep]
      refine (ih ⟨skip, keep⟩ out hkeep).trans ?_
      cases keep <;> rfl
    | zero =>
      cases keep with
      | none =>
        have hstep : Window.step (⟨0, none⟩, out) row = .ok (⟨0, none⟩, out ++ [row]) := rfl
        rw [hstep]
        refine (ih ⟨0, none⟩ (out ++ [row]) hkeep).trans ?_
        simp [Window.apply]
      | some n =>
        obtain _ | _ | n := n
        · exact absurd rfl hkeep
        · have hstep : Window.step (⟨0, some 1⟩, out) row = .error (out ++ [row]) := rfl
          rw [hstep]
          simp [Window.passed, Window.apply, bind, Except.bind]
        · have hstep : Window.step (⟨0, some (n + 2)⟩, out) row =
              .ok (⟨0, some (n + 1)⟩, out ++ [row]) := rfl
          rw [hstep]
          refine (ih ⟨0, some (n + 1)⟩ (out ++ [row]) (by simp)).trans ?_
          simp [Window.apply]

/-! ## Counters in registers -/

/-- The number that a register counts with. -/
def Machine.State.number (s : State) (r : Int) : Int := (s.get r).toInt64.toInt

/-- The registers of the counters hold the state of a window. -/
structure Counters.Counts (c : Counters) (s : State) (w : Window) : Prop where
  offset : ∀ r, c.offset = some r → (s.number r).toNat = w.skip
  offset_none : c.offset = none → w.skip = 0
  limit : ∀ r, c.limit = some r → ∀ n, w.keep = some n → s.number r = n
  limit_all : ∀ r, c.limit = some r → w.keep = none → s.number r ≤ 0
  limit_none : c.limit = none → w.keep = none

/-- Counters depend on their registers only. -/
theorem Counters.Counts.congr {s s' : State} (h : c.Counts s w) (hoffset : ∀ r, c.offset = some r → s'.get r = s.get r)
    (hlimit : ∀ r, c.limit = some r → s'.get r = s.get r) : c.Counts s' w where
  offset r hr := by
    rw [State.number, hoffset r hr]
    exact h.offset r hr
  offset_none := h.offset_none
  limit r hr := by
    rw [State.number, hlimit r hr]
    exact h.limit r hr
  limit_all r hr := by
    rw [State.number, hlimit r hr]
    exact h.limit_all r hr
  limit_none := h.limit_none

theorem Integer.toInt_clamp (hlow : -0x8000000000000000 ≤ i)
    (hhigh : i ≤ 0x7FFFFFFFFFFFFFFF) : (Integer.clamp i).toInt = i := by
  unfold Integer.clamp
  have hsame : max (-0x8000000000000000) (min 0x7FFFFFFFFFFFFFFF i) = i := by omega
  rw [hsame]
  exact Int64.toInt_ofInt_of_le (by omega) (by omega)

theorem Integer.toInt_clamp_neg (hneg : i < 0) : (Integer.clamp i).toInt < 0 := by
  unfold Integer.clamp
  rw [Int64.toInt_ofInt_of_le (by omega) (by omega)]
  omega

theorem Integer.toInt_bounds (i : Int64) :
    -0x8000000000000000 ≤ i.toInt ∧ i.toInt ≤ 0x7FFFFFFFFFFFFFFF := by
  have hlow := Int64.le_toInt i
  have hhigh := Int64.toInt_lt i
  omega

theorem number_set (s : State) (r : Int) (i : Int64) : (s.set r (.int i)).number r = i.toInt := by
  rw [State.number, State.get_set_self]
  rfl

/-- The two counters are different registers. -/
structure Counters.Apart (c : Counters) : Prop where
  offset_pos : ∀ r, c.offset = some r → 0 < r
  limit_pos : ∀ r, c.limit = some r → 0 < r
  ne : ∀ r, c.offset = some r → c.limit ≠ some r

/-- A row is skipped while OFFSET counts down. -/
theorem Counters.emitSkip_leads {skip : Label} (h : (c.emitSkip skip).Gives b () b') (hend : b'.Begins σ.final)
    (hl : skip < b.labels.size) (hat : σ.At skip a) (hc : c.Apart) (hw : c.Counts s w) :
    σ.Leads (fun pc s' => Quiet (fun r => 0 < r ∧ c.offset ≠ some r) (fun _ => True) s s' ∧
      if 0 < w.skip then pc = a ∧ c.Counts s' { w with skip := w.skip - 1 }
      else pc = b'.address ∧ s' = s) b.address s := by
  unfold Counters.emitSkip at h
  split at h
  · rename_i r hr
    obtain rfl := gives_jump.mp h
    have hskip := hw.offset r hr
    by_cases hpos : 0 < w.skip
    · simp only [if_pos hpos]
      have hv : 0 < s.number r := by omega
      have hbounds := Integer.toInt_bounds (s.get r).toInt64
      have hless : (Integer.clamp ((s.get r).toInt64.toInt - 1)).toInt =
          (s.get r).toInt64.toInt - 1 := by
        have hv : 0 < (s.get r).toInt64.toInt := hv
        exact Integer.toInt_clamp (by omega) (by omega)
      refine .taken hend hl hat rfl
        (t := s.set r (.int (Integer.clamp ((s.get r).toInt64.toInt - 1)))) ?_ (.here ⟨?_, rfl, ?_⟩)
      · have hv : 0 < (s.get r).toInt64.toInt := hv
        simp only [execute, ifPos, if_pos hv]
      · exact .set s _ fun q hq => ⟨hq.1, fun hqr => hq.2 (hqr ▸ hr)⟩
      · refine ⟨fun q hq => ?_, fun hnone => ?_, fun q hq => ?_, fun q hq => ?_, hw.limit_none⟩
        · rw [hr] at hq
          cases hq
          rw [number_set, hless]
          show (s.number r - 1).toNat = w.skip - 1
          omega
        · rw [hr] at hnone
          cases hnone
        · have hne : q ≠ r := fun hqr => hc.ne r hr (hqr ▸ hq)
          rw [State.number, s.get_set_of_ne _ (hc.limit_pos q hq) hne]
          exact hw.limit q hq
        · have hne : q ≠ r := fun hqr => hc.ne r hr (hqr ▸ hq)
          rw [State.number, s.get_set_of_ne _ (hc.limit_pos q hq) hne]
          exact hw.limit_all q hq
    · simp only [if_neg hpos]
      have hv : ¬ 0 < (s.get r).toInt64.toInt := by
        intro hlt
        have hlt : 0 < s.number r := hlt
        omega
      refine .passed hend hl hat rfl (t := s) ?_ (.here ⟨.refl s, rfl, rfl⟩)
      simp only [execute, ifPos, if_neg hv]
  · rename_i hnone
    obtain ⟨-, rfl⟩ := gives_pure.mp h
    have hpos : ¬ 0 < w.skip := by rw [hw.offset_none hnone]; exact Nat.lt_irrefl 0
    simp only [if_neg hpos]
    exact .here ⟨.refl s, rfl, rfl⟩

/-- A row is counted, and the last one that may pass ends the query. -/
theorem Counters.emitStop_leads (h : (c.emitStop done).Gives b () b') (hend : b'.Begins σ.final)
    (hl : done < b.labels.size) (hat : σ.At done a) (hc : c.Apart) (hw : c.Counts s w) (hkeep : w.keep ≠ some 0) :
    σ.Leads (fun pc s' => Quiet (fun r => 0 < r ∧ c.limit ≠ some r) (fun _ => True) s s' ∧
      match w.keep with
      | none => pc = b'.address ∧ c.Counts s' w
      | some n => if n = 1 then pc = a
        else pc = b'.address ∧ c.Counts s' { w with keep := some (n - 1) }) b.address s := by
  unfold Counters.emitStop at h
  split at h
  · rename_i r hr
    obtain rfl := gives_jump.mp h
    have hbounds := Integer.toInt_bounds (s.get r).toInt64
    have hquiet : ∀ v, Quiet (fun q => 0 < q ∧ c.limit ≠ some q) (fun _ => True) s (s.set r v) :=
      fun v => .set s _ fun q hq => ⟨hq.1, fun hqr => hq.2 (hqr ▸ hr)⟩
    have hother : ∀ v q, c.offset = some q → (s.set r v).get q = s.get q := fun v q hq =>
      s.get_set_of_ne v (hc.offset_pos q hq) fun hqr => hc.ne q hq (hqr ▸ hr)
    cases hk : w.keep with
    | none =>
      -- No bound: the register runs further below zero and never meets it.
      have hle : (s.get r).toInt64.toInt ≤ 0 := hw.limit_all r hr hk
      have hneg : (Integer.clamp ((s.get r).toInt64.toInt - 1)).toInt < 0 :=
        Integer.toInt_clamp_neg (by omega)
      have hzero : Integer.clamp ((s.get r).toInt64.toInt - 1) ≠ 0 := by
        intro h0
        rw [h0] at hneg
        exact absurd hneg (by decide)
      refine .passed hend hl hat rfl
        (t := s.set r (.int (Integer.clamp ((s.get r).toInt64.toInt - 1)))) ?_
        (.here ⟨hquiet _, rfl, ?_⟩)
      · simp [execute, decrJumpZero, jumpIf, hzero]
      · refine ⟨fun q hq => ?_, hw.offset_none, fun q hq n hn => ?_, fun q hq _ => ?_, fun _ => hk⟩
        · rw [State.number, hother _ q hq]
          exact hw.offset q hq
        · rw [hk] at hn
          cases hn
        · rw [hr] at hq
          cases hq
          rw [number_set]
          exact Int.le_of_lt hneg
    | some n =>
      have hv : (s.get r).toInt64.toInt = n := hw.limit r hr n hk
      have hn : 0 < n := Nat.pos_of_ne_zero fun h0 => hkeep (by rw [hk, h0])
      have hless : (Integer.clamp ((s.get r).toInt64.toInt - 1)).toInt = n - 1 := by
        rw [Integer.toInt_clamp (by omega) (by omega), hv]
      by_cases hone : n = 1
      · subst hone
        have hzero : Integer.clamp ((s.get r).toInt64.toInt - 1) = 0 := by
          apply Int64.toInt_inj.mp
          rw [hless]
          rfl
        refine .taken hend hl hat rfl
          (t := s.set r (.int (Integer.clamp ((s.get r).toInt64.toInt - 1)))) ?_
          (.here ⟨hquiet _, rfl⟩)
        simp [execute, decrJumpZero, jumpIf, hzero]
      · simp only [if_neg hone]
        have hzero : Integer.clamp ((s.get r).toInt64.toInt - 1) ≠ 0 := by
          intro h0
          rw [h0] at hless
          have hless : (0 : Int) = n - 1 := hless
          omega
        refine .passed hend hl hat rfl
          (t := s.set r (.int (Integer.clamp ((s.get r).toInt64.toInt - 1)))) ?_
          (.here ⟨hquiet _, rfl, ?_⟩)
        · simp [execute, decrJumpZero, jumpIf, hzero]
        · refine ⟨fun q hq => ?_, hw.offset_none, fun q hq m hm => ?_, fun q hq hnone => ?_,
            fun hnone => ?_⟩
          · rw [State.number, hother _ q hq]
            exact hw.offset q hq
          · rw [hr] at hq
            cases hq
            cases hm
            rw [number_set, hless]
            omega
          · cases hnone
          · rw [hr] at hnone
            cases hnone
  · rename_i hnone
    obtain ⟨-, rfl⟩ := gives_pure.mp h
    rw [hw.limit_none hnone]
    exact .here ⟨.refl s, rfl, hw⟩

/-! ## Loading the counters -/

theorem narrow_ne_null (x : Binary64) : Value.narrow x ≠ .null := by
  unfold Value.narrow
  split
  · exact nofun
  · exact nofun

theorem numberOfText?_ne_null (t : String) : Value.numberOfText? t ≠ some .null := by
  intro h
  simp only [Value.numberOfText?] at h
  split at h
  · cases h
  · split at h
    · cases h
    · split at h
      · cases h
      · exact narrow_ne_null _ (Option.some.inj h)

theorem withAffinity_integer_null (h : v.withAffinity .integer = .null) : v = .null := by
  cases v with
  | null => rfl
  | int i => cases h
  | real x => exact absurd h (narrow_ne_null x)
  | text t =>
    cases hnumber : Value.numberOfText? t with
    | none =>
      simp only [Value.withAffinity, hnumber, Option.getD_none] at h
      cases h
    | some w =>
      simp only [Value.withAffinity, hnumber, Option.getD_some] at h
      exact absurd (hnumber.trans (congrArg some h)) (numberOfText?_ne_null t)
  | blob bytes => cases h

variable [σ.Lenient]

/-- A count is loaded: an integer, or NULL; anything else is a fault. -/
theorem loadCount_leads {e : Resolved} {r : Int} (h : (emitExpr [] e r).Gives b () b') (hb : b.Valid) (hr : b.Holds r)
    (hend : (b'.emit (.plain .mustBeInt r 0 0)).Begins σ.final) (hv : Denotes σ.Admits [] s e v) :
    σ.Leads (fun pc s' => pc = (b'.emit (.plain .mustBeInt r 0 0)).address ∧
      Quiet (fun q => b.Holds q ∧ q ≠ r) (fun _ => True) s s' ∧
      ((∃ n, v.withAffinity .integer = .int n ∧ s'.get r = .int n) ∨
        v.withAffinity .integer = .null ∧ s'.get r = .null)) b.address s := by
  refine (emitExpr_leads h hb (Int.le_of_lt hr.1) (fun p hp => (List.not_mem_nil hp).elim)
    ((Builder.Begins.emit ..).trans hend) hv).bind ?_
  rintro pc s1 ⟨rfl, hget, hq⟩
  cases hcount : v.withAffinity .integer with
  | null =>
    refine .op hend rfl (t := s1) ?_ (.here ⟨rfl, hq, .inr ⟨rfl, ?_⟩⟩)
    · simp only [execute, Instruction.plain, mustBeInt, hget, hcount]
    · rw [hget]
      exact withAffinity_integer_null hcount
  | int n =>
    refine .op hend rfl (t := s1.set r (.int n)) ?_
      (.here ⟨rfl, hq.trans (.set s1 _ fun q hq => ⟨hq.1.1, hq.2⟩), .inl ⟨n, rfl, ?_⟩⟩)
    · simp only [execute, Instruction.plain, mustBeInt, hget, hcount]
    · exact State.get_set_self ..
  | real x | text x | blob x =>
    refine .failed hend ?_ (σ.admits_mismatch (Value.className (v.withAffinity .integer)))
    simp [execute, Instruction.plain, mustBeInt, hget, hcount]

/-- The register that LIMIT is loaded to is a new one. -/
theorem emitLimit_new (h : (emitLimit done limit).Gives b l b') (hb : b.Valid) :
    ∀ r, l = some r → b'.Holds r ∧ ¬ b.Holds r := by
  cases limit with
  | none =>
    obtain ⟨rfl, rfl⟩ := gives_pure.mp h
    exact nofun
  | some e =>
    simp only [emitLimit, gives_bind, gives_op, gives_jump, gives_pure] at h
    obtain ⟨r, b1, hr, _, b2, he, _, b3, rfl, _, b4, rfl, rfl, rfl⟩ := h
    have hr := takes_register hr hb
    rintro q ⟨⟩
    exact ⟨(he.grows hr.grows.valid).holds _ (hr.held rfl), hr.new rfl⟩

/-- The register that OFFSET is loaded to is a new one. -/
theorem emitOffset_new (h : (emitOffset offset).Gives b l b') (hb : b.Valid) :
    ∀ r, l = some r → b'.Holds r ∧ ¬ b.Holds r := by
  cases offset with
  | none =>
    obtain ⟨rfl, rfl⟩ := gives_pure.mp h
    exact nofun
  | some e =>
    simp only [emitOffset, gives_bind, gives_op, gives_pure] at h
    obtain ⟨r, b1, hr, _, b2, he, _, b3, rfl, rfl, rfl⟩ := h
    have hr := takes_register hr hb
    rintro q ⟨⟩
    exact ⟨(he.grows hr.grows.valid).holds _ (hr.held rfl), hr.new rfl⟩

/-- The counters of a plan are new registers, and different ones. -/
theorem emitCounters_new (h : (emitCounters p done).Gives b c b') (hb : b.Valid) :
    c.Apart ∧ ∀ r, c.limit = some r ∨ c.offset = some r → b'.Holds r ∧ ¬ b.Holds r := by
  simp only [emitCounters, gives_bind, gives_pure] at h
  obtain ⟨limit, b1, hlimit, offset, b2, hoffset, rfl, rfl⟩ := h
  have h1 := hlimit.grows hb
  have h2 := hoffset.grows h1.valid
  have hl := emitLimit_new hlimit hb
  have ho := emitOffset_new hoffset h1.valid
  refine ⟨⟨fun r hr => (ho r hr).1.1, fun r hr => (hl r hr).1.1, ?_⟩, ?_⟩
  · intro r hr hr'
    exact (ho r hr).2 (hl r hr').1
  · rintro r (hr | hr)
    · exact ⟨h2.holds _ (hl r hr).1, (hl r hr).2⟩
    · exact ⟨(ho r hr).1, fun hheld => (ho r hr).2 (h1.holds _ hheld)⟩

/-- LIMIT is loaded: a zero ends the query at once. -/
theorem emitLimit_leads (h : (emitLimit done limit).Gives b l b') (hb : b.Valid)
    (hend : b'.Begins σ.final) (hl : done < b.labels.size) (hat : σ.At done a)
    (hplaces : ∀ e, limit = some e → e.places = []) :
    σ.Leads (fun pc s' => Quiet b.Holds (fun _ => True) s s' ∧
      let keep := limit.bind fun e => keepCount (e.eval fun _ => .null)
      if keep = some 0 then pc = a
      else pc = b'.address ∧ Counters.Counts ⟨l, none⟩ s' ⟨0, keep⟩) b.address s := by
  cases limit with
  | none =>
    obtain ⟨rfl, rfl⟩ := gives_pure.mp h
    exact .here ⟨.refl s, rfl, ⟨(by simp), fun _ => rfl, (by simp), (by simp), fun _ => rfl⟩⟩
  | some e =>
    simp only [emitLimit, gives_bind, gives_op, gives_jump, gives_pure] at h
    obtain ⟨r, b1, hr, _, b2, he, _, b3, rfl, _, b4, rfl, rfl, rfl⟩ := h
    have hr := takes_register hr hb
    have h2 := he.grows hr.grows.valid
    have hl3 : done < (b2.emit (.plain .mustBeInt r 0 0)).labels.size :=
      Nat.lt_of_lt_of_le hl (hr.grows.trans h2).labels_le
    have hv : Denotes σ.Admits [] s e (e.eval fun _ => .null) :=
      denotes_eval e fun p hp => absurd hp (by rw [hplaces e rfl]; exact List.not_mem_nil)
    rw [← hr.address]
    refine (loadCount_leads he hr.grows.valid (hr.held rfl)
      ((Builder.Begins.emitJump ..).trans hend) hv).bind ?_
    rintro pc s1 ⟨rfl, hq, hcount⟩
    have hq : Quiet b.Holds (fun _ => True) s s1 :=
      hq.mono (fun q hq => ⟨hr.grows.holds _ hq, fun hqr => hr.new hqr hq⟩) fun _ h => h
    simp only [Option.bind_some, keepCount]
    rcases hcount with ⟨n, hn, hget⟩ | ⟨hnull, hget⟩
    · simp only [hn]
      have hnumber : s1.number r = n.toInt := by rw [State.number, hget]; rfl
      by_cases hzero : n = 0
      · subst hzero
        refine .taken hend hl3 hat rfl (t := s1) ?_ (.here ⟨hq, ?_⟩)
        · simp [execute, jumpOnTruth, jumpIf, hget, Value.truth?]
        · rfl
      · have hne : n.toInt ≠ 0 := fun h0 => hzero (Int64.toInt_inj.mp h0)
        have hkeep : (if 0 ≤ n.toInt then some n.toInt.toNat else none) ≠ some 0 := by
          split
          · intro h0
            have := Option.some.inj h0
            omega
          · simp
        simp only [if_neg hkeep]
        refine .passed hend hl3 hat rfl (t := s1) ?_ (.here ⟨hq, rfl, ?_⟩)
        · simp [execute, jumpOnTruth, jumpIf, hget, Value.truth?, hzero]
        · refine ⟨(by simp), fun _ => rfl, ?_, ?_, (by simp)⟩
          · rintro q ⟨⟩ m hm
            split at hm
            · cases hm
              omega
            · cases hm
          · rintro q ⟨⟩ hnone
            split at hnone
            · cases hnone
            · omega
    · simp only [hnull]
      refine .passed hend hl3 hat rfl (t := s1) ?_ (.here ⟨hq, rfl, ?_⟩)
      · simp [execute, jumpOnTruth, jumpIf, hget, Value.truth?]
      · refine ⟨(by simp), fun _ => rfl, ?_, ?_, (by simp)⟩
        · rintro q ⟨⟩ m hm
          cases hm
        · rintro q ⟨⟩ -
          rw [State.number, hget]
          exact Int.le_refl 0

/-- OFFSET is loaded. -/
theorem emitOffset_leads (h : (emitOffset offset).Gives b l b') (hb : b.Valid)
    (hend : b'.Begins σ.final) (hplaces : ∀ e, offset = some e → e.places = []) :
    σ.Leads (fun pc s' => Quiet b.Holds (fun _ => True) s s' ∧ pc = b'.address ∧
      Counters.Counts ⟨none, l⟩ s'
        ⟨(offset.map fun e => skipCount (e.eval fun _ => .null)).getD 0, none⟩) b.address s := by
  cases offset with
  | none =>
    obtain ⟨rfl, rfl⟩ := gives_pure.mp h
    exact .here ⟨.refl s, rfl, ⟨by simp, fun _ => rfl, by simp, by simp, fun _ => rfl⟩⟩
  | some e =>
    simp only [emitOffset, gives_bind, gives_op, gives_pure] at h
    obtain ⟨r, b1, hr, _, b2, he, _, b3, rfl, rfl, rfl⟩ := h
    have hr := takes_register hr hb
    have hv : Denotes σ.Admits [] s e (e.eval fun _ => .null) :=
      denotes_eval e fun p hp => absurd hp (by rw [hplaces e rfl]; exact List.not_mem_nil)
    rw [← hr.address]
    refine (loadCount_leads he hr.grows.valid (hr.held rfl) hend hv).mono ?_
    rintro pc s1 ⟨rfl, hq, hcount⟩
    refine ⟨hq.mono (fun q hq => ⟨hr.grows.holds _ hq, fun hqr => hr.new hqr hq⟩) fun _ h => h, rfl,
      ⟨?_, by simp, by simp, by simp, fun _ => rfl⟩⟩
    rintro q ⟨⟩
    simp only [Option.map_some, Option.getD_some, skipCount]
    rcases hcount with ⟨n, hn, hget⟩ | ⟨hnull, hget⟩
    · rw [State.number, hget, hn]
      rfl
    · rw [State.number, hget, hnull]
      rfl

/-- **OFFSET and LIMIT are loaded**; a LIMIT of zero ends the query at once. -/
theorem emitCounters_leads (h : (emitCounters p done).Gives b c b') (hb : b.Valid)
    (hend : b'.Begins σ.final) (hl : done < b.labels.size) (hat : σ.At done a)
    (hlimit : ∀ e, p.limit = some e → e.places = []) (hoffset : ∀ e, p.offset = some e → e.places = []) :
    σ.Leads (fun pc s' => Quiet b.Holds (fun _ => True) s s' ∧
      if p.window.keep = some 0 then pc = a
      else pc = b'.address ∧ c.Counts s' p.window) b.address s := by
  simp only [emitCounters, gives_bind, gives_pure] at h
  obtain ⟨limit, b1, hl1, offset, b2, ho2, rfl, rfl⟩ := h
  have h1 := hl1.grows hb
  have h2 := ho2.grows h1.valid
  have hl1' := emitLimit_new hl1 hb
  refine (emitLimit_leads hl1 hb (h2.begins.trans hend) hl hat hlimit).bind ?_
  rintro pc s1 ⟨hq1, hcase⟩
  by_cases hzero : p.window.keep = some 0
  · simp only [if_pos hzero]
    have hzero' : (p.limit.bind fun e => keepCount (e.eval fun _ => .null)) = some 0 := hzero
    simp only [if_pos hzero'] at hcase
    exact .here ⟨hq1, hcase⟩
  · simp only [if_neg hzero]
    have hzero' : (p.limit.bind fun e => keepCount (e.eval fun _ => .null)) ≠ some 0 := hzero
    simp only [if_neg hzero'] at hcase
    obtain ⟨rfl, hc1⟩ := hcase
    refine (emitOffset_leads ho2 h1.valid hend hoffset).mono ?_
    rintro pc s2 ⟨hq2, rfl, hc2⟩
    refine ⟨hq1.trans (hq2.mono (fun q hq => h1.holds q hq) fun _ h => h), rfl, ?_⟩
    have hkept : ∀ r, limit = some r → s2.number r = s1.number r := by
      intro r hr
      rw [State.number, hq2.get r (hl1' r hr).1]
      rfl
    refine ⟨hc2.offset, hc2.offset_none, fun r hr => ?_, fun r hr => ?_, hc1.limit_none⟩
    · rw [hkept r hr]
      exact hc1.limit r hr
    · rw [hkept r hr]
      exact hc1.limit_all r hr

end QueryMachine
