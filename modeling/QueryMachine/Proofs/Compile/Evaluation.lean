import QueryMachine.Proofs.Machine.Walk
import QueryMachine.Proofs.Outline.Expression

/-!
# Expressions and filters are evaluated

The value of an expression in a state of the machine, by recursion on the expression. Its code comes to its
end with this value in the target, and leaves all else in use alone.

* `Expr.valueIn` — the value of an expression; bound parts are read from their registers.
* `emitExpr_evaluates` — the code of an expression.
* `emitFilter_splits` — the code of a filter, which tests its conjuncts one by one.
-/

namespace QueryMachine

open Machine Emit

variable {s : State} {e : Resolved}

/-- What a place holds, if its cursor is on a row. -/
def Machine.State.reading? (s : State) : Place → Option Value
  | .field c index => (s.currentRow 0 c).toOption.map (fieldAt · index)
  | .rowid c => (s.currentRowid 0 c).toOption.map .int

/-- The value of an expression in a state: what is bound is read from its register, the rest by its parts. -/
def Expr.valueIn (bindings : Bindings) (s : State) (e : Resolved) : Value :=
  match bindings.register? e with
  | some r => s.get r
  | none =>
    match e with
    | .ref p => (s.reading? p).getD .null
    | .lit v => v
    | .binary operator left right => operator.apply (left.valueIn bindings s) (right.valueIn bindings s)
    | .aggregate _ _ => .null

theorem Machine.State.shows_of_reading? {p : Place} {v : Value} (h : s.reading? p = some v) : s.Shows p v := by
  cases p with
  | field c index =>
    cases hrow : s.currentRow 0 c with
    | error => simp [reading?, hrow, Except.toOption] at h
    | ok row =>
      simp only [reading?, hrow, Except.toOption, Option.map_some, Option.some.injEq] at h
      exact ⟨row, fun pc => State.currentRow_ok hrow pc, h.symm⟩
  | rowid c =>
    cases hid : s.currentRowid 0 c with
    | error => simp [reading?, hid, Except.toOption] at h
    | ok id =>
      simp only [reading?, hid, Except.toOption, Option.map_some, Option.some.injEq] at h
      exact ⟨id, fun pc => State.currentRowid_ok hid pc, h.symm⟩

/-- Where the places outside of what is bound can be read, the value is what the code denotes. -/
theorem denotes_valueIn (bindings : Bindings) (s : State) : ∀ e : Resolved,
    (∀ p ∈ e.needs bindings, (s.reading? p).isSome = true) →
      Denotes (fun _ => False) bindings s e (e.valueIn bindings s) := by
  intro e hreads
  cases hr : bindings.register? e with
  | some r =>
    rw [Expr.valueIn.eq_def, hr]
    exact .bound hr
  | none =>
    rw [Expr.needs.eq_def, hr, Option.isSome_none, if_neg Bool.false_ne_true] at hreads
    rw [Expr.valueIn.eq_def, hr]
    cases e with
    | ref p =>
      obtain ⟨v, hv⟩ := Option.isSome_iff_exists.mp (hreads p (List.mem_singleton_self p))
      simp only [hv, Option.getD_some]
      exact .ref hr (State.shows_of_reading? hv)
    | lit v => exact .lit hr
    | binary operator left right =>
      exact .binary hr (denotes_valueIn bindings s left fun p hp => hreads p (List.mem_append_left _ hp))
        (denotes_valueIn bindings s right fun p hp => hreads p (List.mem_append_right _ hp))
    | aggregate => exact .aggregate hr

/-! ## Code for every expression -/

theorem total_operand {n : Nat} (h : n < sizeLimit) : (operand n).Total fun _ => True := by
  rw [operand, if_pos (show n < 0x80000000 from h)]
  exact total_pure trivial

theorem total_emitValue {v : Value} (h : v.Sized) (target : Int) : (emitValue v target).Total fun _ => True := by
  cases v with
  | int i =>
    show (emitInt i target).Total _
    unfold emitInt
    split
    · exact total_op ..
    · exact total_opWith ..
  | null => exact total_op ..
  | real | text => exact total_opWith ..
  | blob bytes => exact (total_operand h).bind fun _ _ => total_opWith ..

theorem total_emitOperator (operator : Operator) (left right target : Int) :
    (emitOperator operator left right target).Total fun _ => True := by
  cases operator <;> exact total_modifyGet _

/-- An expression of a size that operands can hold has code, unless it calls an aggregate. -/
theorem total_emitExpr (bindings : Bindings) (target : Int) (h : e.containsAggregate = false) (hsized : e.SizedPlaces) :
    (emitExpr bindings e target).Total fun _ => True := by
  fun_induction emitExpr bindings e target with
  | case1 => exact total_op ..
  | case2 target p =>
    cases p with
    | rowid => exact total_op ..
    | field => exact (total_operand hsized).bind fun _ _ => total_op ..
  | case3 target v => exact total_emitValue hsized target
  | case4 target operator left right _ ihl ihr =>
    obtain ⟨hleft, hright⟩ := Bool.or_eq_false_iff.mp h
    refine (total_modifyGet _).bind fun l _ => (ihl l hleft hsized.1).bind fun _ _ => ?_
    refine (total_modifyGet _).bind fun r _ => (ihr r hright hsized.2).bind fun _ _ => ?_
    refine (total_emitOperator operator l r target).bind fun _ _ => ?_
    exact (total_modifyGet _).bind fun _ _ => total_modifyGet _
  | case5 => cases h

/-- **The code of an expression evaluates it.** There is code for every expression of a size that operands can
hold, unless it calls an aggregate. Wherever the code stands in a program, it comes to its end if the places it
reads can be read. The value is then in the target, and the other registers that are held, what belongs to
them, the cursors and the trees are as before. -/
theorem emitExpr_evaluates (bindings : Bindings) (e : Resolved) {target : Int} {b : Builder} (hb : b.Valid)
    (htarget : 0 ≤ target) (hbound : ∀ p ∈ bindings, b.Holds p.2) :
    (e.containsAggregate = false → e.SizedPlaces → ∃ b', (emitExpr bindings e target).Gives b () b') ∧
    ∀ b' final env s, (emitExpr bindings e target).Gives b () b' → b'.Begins final → env.code = final.code →
      (∀ p ∈ e.needs bindings, (s.reading? p).isSome = true) →
      ∃ n s', Walks env n b.address s b'.address s' ∧ s'.get target = e.valueIn bindings s ∧
        Quiet (fun r => b.Holds r ∧ r ≠ target) (fun _ => True) s s' := by
  constructor
  · intro hplain hsized
    obtain ⟨_, b', hgives, -⟩ := (total_emitExpr bindings target hplain hsized).gives b
    exact ⟨b', hgives⟩
  · intro b' final env s hgives hbegins hcode hreads
    have hleads := emitExpr_leads (σ := .strict final env hcode) hgives hb htarget hbound hbegins
      (denotes_valueIn bindings s e hreads)
    obtain ⟨n, pc, s', hwalks, ⟨rfl, hget, hquiet⟩ | ⟨f, hf, -⟩⟩ := Machine.Leads.walks hleads
    · exact ⟨n, s', hwalks, hget, hquiet⟩
    · exact hf.elim

/-- Registers 1 and 3 are held; 2 was given back. -/
def Builder.recycling : Builder := { Builder.fresh true with pool := ⟨4, [2], true⟩ }

/-- What stands in register 1 is subtracted from 10, divided by 4 before. -/
def Expr.reduced : Resolved :=
  .binary .subtract (.lit (.int 10)) (.binary .divide (.ref (.field 0 0)) (.lit (.int 4)))

/-- Operands go to registers 2 and 4; the two that are held keep what they hold. -/
theorem emitExpr_evaluates_recycling :
    Builder.recycling.Valid ∧ Builder.recycling.Holds 1 ∧ Builder.recycling.Holds 3 ∧
    ∃ b', (emitExpr [(.ref (.field 0 0), 1)] Expr.reduced 9).Gives .recycling () b' ∧
      ∀ env store, env.code = b'.code → ∃ n s', Walks env n 0 ((State.start store).set 1 (.int 8)) b'.address s' ∧
        s'.get 9 = .int 8 ∧ s'.get 1 = .int 8 := by
  have hvalid : Builder.recycling.Valid := ⟨by decide, by decide, by decide⟩
  have hone : Builder.recycling.Holds 1 := ⟨by decide, by decide, by decide⟩
  have hthree : Builder.recycling.Holds 3 := ⟨by decide, by decide, by decide⟩
  obtain ⟨hgives, hruns⟩ := emitExpr_evaluates [(.ref (.field 0 0), 1)] .reduced hvalid
    (show (0 : Int) ≤ 9 by decide) (by simpa using hone)
  obtain ⟨b', hb'⟩ := hgives rfl ⟨trivial, show 0 < sizeLimit by decide, trivial⟩
  refine ⟨hvalid, hone, hthree, b', hb', fun env store hcode => ?_⟩
  obtain ⟨n, s', hwalks, hvalue, hquiet⟩ := hruns b' b' env ((State.start store).set 1 (.int 8)) hb' (.refl b') hcode
    (fun p hp => (List.not_mem_nil hp).elim)
  refine ⟨n, s', hwalks, hvalue.trans ?_, (hquiet.get 1 ⟨hone, by decide⟩).trans (State.get_set_self ..)⟩
  show Operator.apply .subtract (.int 10) (Operator.apply .divide (State.get _ 1) (.int 4)) = .int 8
  rw [State.get_set_self]
  decide +kernel

/-! ## Filters -/

/-- The value of a filter in a state, with three truth values: a conjunction has the value of AND of its sides,
any other term its own. -/
def Expr.conjunctionIn (bindings : Bindings) (s : State) : Resolved → Value
  | .binary .and left right => Operator.apply .and (left.conjunctionIn bindings s) (right.conjunctionIn bindings s)
  | e => e.valueIn bindings s

/-- No conjunction that is taken apart has its value in a register. -/
def Expr.Splits (bindings : Bindings) : Resolved → Prop
  | .binary .and left right =>
    bindings.register? (.binary .and left right) = none ∧ left.Splits bindings ∧ right.Splits bindings
  | _ => True

/-- A conjunction is true where each of its terms is. -/
theorem Expr.truth?_conjunctionIn (bindings : Bindings) (s : State) (e : Resolved) :
    (e.conjunctionIn bindings s).truth? = some true ↔
      ∀ v ∈ e.conjuncts.map (·.valueIn bindings s), v.truth? = some true := by
  fun_induction Expr.conjuncts e with
  | case1 left right ihl ihr =>
    simp only [conjunctionIn, Operator.apply, Value.truth?_ofTruth, Value.both_eq_true, ihl, ihr,
      List.map_append, List.mem_append, or_imp, forall_and]
  | case2 e hterm => rw [conjunctionIn.eq_def]; split <;> simp_all

/-- Where no conjunction is bound, AND of the sides is what the code of the whole expression computes. -/
theorem Expr.Splits.conjunctionIn_eq {bindings : Bindings} (s : State) (h : e.Splits bindings) :
    e.conjunctionIn bindings s = e.valueIn bindings s := by
  fun_induction Expr.conjuncts e with
  | case1 left right ihl ihr =>
    rw [conjunctionIn, ihl h.2.1, ihr h.2.2, valueIn.eq_def bindings s (.binary ..), h.1]
  | case2 e hterm => rw [conjunctionIn.eq_def]; split <;> simp_all

theorem total_emitTests (bindings : Bindings) (skip : Label) : ∀ es : List Resolved,
    (∀ e ∈ es, e.containsAggregate = false ∧ e.SizedPlaces) → (emitTests bindings skip es).Total fun _ => True
  | [], _ => total_pure trivial
  | e :: es, h => by
    obtain ⟨⟨hplain, hsized⟩, hes⟩ := List.forall_mem_cons.mp h
    refine (total_modifyGet _).bind fun r _ => (total_emitExpr bindings r hplain hsized).bind fun _ _ => ?_
    exact (total_modifyGet _).bind fun _ _ => (total_modifyGet _).bind fun _ _ => total_emitTests bindings skip es hes

theorem Expr.conjuncts_plain (hplain : e.containsAggregate = false) (hsized : e.SizedPlaces) :
    ∀ c ∈ e.conjuncts, c.containsAggregate = false ∧ c.SizedPlaces := by
  fun_induction Expr.conjuncts e with
  | case1 left right ihl ihr =>
    obtain ⟨hleft, hright⟩ := Bool.or_eq_false_iff.mp hplain
    exact List.forall_mem_append.mpr ⟨ihl hleft hsized.1, ihr hright hsized.2⟩
  | case2 e _ => exact List.forall_mem_singleton.mpr ⟨hplain, hsized⟩

/-- **Taking a filter apart keeps its meaning.** There is code for every filter of a size that operands can hold,
unless it calls an aggregate. Wherever the code stands in a program, it comes to its end where the filter is
true, and to the label where it is false or NULL, if the places it reads can be read, and leaves all in use as it
was. The value is that of the code of the whole expression, unless a conjunction has its value in a register. -/
theorem emitFilter_splits (bindings : Bindings) (f : Resolved) {skip : Label} {b : Builder} (hb : b.Valid)
    (hskip : skip < b.labels.size) (hbound : ∀ p ∈ bindings, b.Holds p.2) :
    (f.containsAggregate = false → f.SizedPlaces → ∃ b', (emitFilter bindings skip (some f)).Gives b () b') ∧
    ∀ b' final env s (a : Nat), (emitFilter bindings skip (some f)).Gives b () b' → b'.Begins final →
      env.code = final.code → final.target? skip = some ↑a → a ≤ env.code.size →
      (∀ c ∈ f.conjuncts, ∀ p ∈ c.needs bindings, (s.reading? p).isSome = true) →
      (∃ n s', Walks env n b.address s
          (if (f.conjunctionIn bindings s).truth? = some true then b'.address else a) s' ∧
        Quiet b.Holds (fun _ => True) s s') ∧
      (f.Splits bindings → f.conjunctionIn bindings s = f.valueIn bindings s) := by
  constructor
  · intro hplain hsized
    obtain ⟨_, b', hgives, -⟩ := (total_emitTests bindings skip f.conjuncts (f.conjuncts_plain hplain hsized)).gives b
    exact ⟨b', hgives⟩
  · intro b' final env s a hgives hbegins hcode htarget hin hreads
    refine ⟨?_, fun hsplits => hsplits.conjunctionIn_eq s⟩
    have hvalues : List.Forall₂ (Denotes (fun _ => False) bindings s) f.conjuncts
        (f.conjuncts.map (·.valueIn bindings s)) := by
      rw [List.forall₂_map_right_iff, List.forall₂_same]
      exact fun c hc => denotes_valueIn bindings s c (hreads c hc)
    have hleads := emitFilter_leads (σ := .strict final env hcode) hgives hb hbound hbegins hskip ⟨htarget, hin⟩
      hvalues
    obtain ⟨n, pc, s', hwalks, ⟨hquiet, hpc⟩ | ⟨f, hf, -⟩⟩ := Machine.Leads.walks hleads
    · refine ⟨n, s', ?_, hquiet⟩
      by_cases htrue : (f.conjunctionIn bindings s).truth? = some true
      · rw [if_pos ((Expr.truth?_conjunctionIn bindings s f).mp htrue)] at hpc
        exact (if_pos htrue).trans hpc.symm ▸ hwalks
      · rw [if_neg fun hall => htrue ((Expr.truth?_conjunctionIn bindings s f).mpr hall)] at hpc
        exact (if_neg htrue).trans hpc.symm ▸ hwalks
    · exact hf.elim

/-- What stands in register 1, and 2, and it again. -/
def Expr.guarded : Resolved :=
  .binary .and (.ref (.field 0 0)) (.binary .and (.lit (.int 2)) (.ref (.field 0 0)))

/-- Registers 1 and 3 are held; a label waits for its place. -/
def Builder.branching : Builder := { Builder.recycling with labels := #[none] }

/-- Code of the filter and one more instruction, which the label stands behind. -/
theorem emitFilter_splits_branching :
    Builder.branching.Valid ∧ Builder.branching.Holds 1 ∧ Expr.guarded.Splits [(.ref (.field 0 0), 1)] ∧
    ∃ b', (emitFilter [(.ref (.field 0 0), 1)] 0 (some .guarded)).Gives .branching () b' ∧
      ∀ env store v, env.code = ((b'.emit (.plain .halt 0 0 0)).bindHere 0).code →
        ∃ n s', Walks env n 0 ((State.start store).set 1 v)
          (if v.truth? = some true then b'.address else b'.address + 1) s' ∧ s'.get 1 = v := by
  have hvalid : Builder.branching.Valid := ⟨by decide, by decide, by decide⟩
  have hone : Builder.branching.Holds 1 := ⟨by decide, by decide, by decide⟩
  have hsplits : Expr.guarded.Splits [(.ref (.field 0 0), 1)] := ⟨rfl, trivial, rfl, trivial, trivial⟩
  obtain ⟨hgives, hruns⟩ := emitFilter_splits [(.ref (.field 0 0), 1)] .guarded hvalid
    (show 0 < Builder.branching.labels.size by decide) (by simpa using hone)
  obtain ⟨b', hb'⟩ := hgives rfl ⟨show 0 < sizeLimit by decide, trivial, show 0 < sizeLimit by decide⟩
  refine ⟨hvalid, hone, hsplits, b', hb', fun env store v hcode => ?_⟩
  have hgrows := hb'.grows hvalid
  have hopen : (b'.emit (.plain .halt 0 0 0)).target? 0 = none :=
    congrArg Option.join (hgrows.labels 0 (by decide))
  have hlabel : 0 < (b'.emit (.plain .halt 0 0 0)).labels.size := Nat.lt_of_lt_of_le (by decide) hgrows.labels_le
  obtain ⟨⟨n, s', hwalks, hquiet⟩, -⟩ := hruns b' _ env ((State.start store).set 1 v)
    (b'.emit (.plain .halt 0 0 0)).address hb'
    (((Builder.Grows.refl hgrows.valid).emit _).begins.trans (.bindHere hopen)) hcode
    (Builder.target?_bindHere hlabel) (by simp [hcode, Builder.code, Builder.bindHere, Builder.bindTo, Builder.address])
    (by simp [Expr.guarded, Expr.conjuncts, Expr.needs, Bindings.register?, Expr.same])
  have htrue : (Expr.guarded.conjunctionIn [(.ref (.field 0 0), 1)] ((State.start store).set 1 v)).truth? =
      some true ↔ v.truth? = some true := by
    rw [Expr.truth?_conjunctionIn]
    have htwo : (Value.int 2).truth? = some true := by decide
    simp [Expr.guarded, Expr.conjuncts, Expr.valueIn, Bindings.register?, Expr.same, htwo, State.get_set_self]
  refine ⟨n, s', ?_, (hquiet.get 1 hone).trans (State.get_set_self ..)⟩
  simp only [htrue, Builder.address_emit] at hwalks
  exact hwalks

end QueryMachine
