import QueryMachine.Proofs.Database.Effect
import QueryMachine.Proofs.Form.WellFormed

/-!
# Where aggregate calls are refused

An aggregate call may stand in the result list, in HAVING and in ORDER BY, and there in no argument of another
one. Anywhere else it is refused: when names are resolved, when the calls of a group are gathered, or when code
meets a call that is bound to no register. The last two rest on finding a call again by comparing expressions,
and an expression in which a NaN is written is not the same as itself.

* `Statement.misuses` — a call stands where none may.
* `Statement.callsNaN` — a NaN is written in an argument of a call that stands where it may.
* `Statement.misuse_reported` — what success and refusal say about a statement.
* `Statement.misuse_unreported` — a call that is not reported, and one that is reported where it may stand.
-/

namespace QueryMachine

open Emit

variable {α : Type} {m : Emit α} {reuse : Bool} {q : Query}

/-! ## Misuse -/

namespace Selection

variable (schema : Schema) (s : Selection)

/-- The terms in which calls may stand. -/
def outputs : List Term := s.columns.filterMap (·.term?) ++ s.having.toList

/-- The term that a term of GROUP BY stands for: one of the result list, by position or by new name, or itself. A
column of a wildcard has none. -/
def groupTerm? (term : Term) : Option Term :=
  match term with
  | .lit (.int k) =>
    if 1 ≤ k.toInt then (s.columns.flatMap (s.entries schema))[k.toInt.toNat - 1]?.join.map (·.1) else none
  | .ref (.column none name) =>
    match (s.columns.flatMap (s.entries schema)).find? fun entry => (entry.bind (·.2)).any (Text.sameName · name) with
    | some entry => entry.map (·.1)
    | none => some term
  | _ => some term

/-- A call stands in WHERE, in GROUP BY, or in an argument of another one. -/
def misuses : Bool :=
  s.filter.any (·.containsAggregate) || s.groupBy.any (fun t => (s.groupTerm? schema t).any (·.containsAggregate)) ||
    s.outputs.any (·.nests)

end Selection

namespace Query

/-- The selections of a query. -/
def selections (q : Query) : List Selection := q.first :: q.arms.map (·.2)

def misuses (schema : Schema) (q : Query) : Bool :=
  q.selections.any (·.misuses schema) || q.orderBy.any (·.expr.nests) || q.limit.any (·.misuses)

/-- A NaN is written in an argument of a call in a result list, in HAVING or in ORDER BY. -/
def callsNaN (q : Query) : Bool :=
  q.selections.any (fun s => s.outputs.any (·.callsNaN)) || q.orderBy.any (·.expr.callsNaN)

end Query

namespace Insertion

/-- The value at a position of a row is used: its column is not listed again further on. -/
def uses (i : Insertion) (k : Nat) : Bool := !(i.columns.drop (k + 1)).any (Text.sameName (i.columns.getD k "") ·)

/-- A call stands in a value that is used. -/
def misuses (i : Insertion) : Bool :=
  i.rows.any fun terms => terms.zipIdx.any fun (e, k) => e.containsAggregate && i.uses k

end Insertion

namespace Statement

/-- An aggregate call stands where none may. -/
def misuses (schema : Schema) : Statement → Bool
  | select q => q.misuses schema
  | insert i => i.misuses
  | update c => c.misuses
  | delete d => d.filter.any (·.containsAggregate)
  | createTable _ | createIndex _ => false

/-- A NaN is written in an argument of a call that stands where it may. -/
def callsNaN : Statement → Bool
  | select q => q.callsNaN
  | _ => false

end Statement

/-! ## Resolution -/

/-- The error is about a call that stands where none may. -/
def Error.isMisuse : Error → Bool
  | .misuseOfAggregate _ => true
  | _ => false

namespace Expr

variable {ε ρ τ : Type} {f : ρ → Except ε τ}

theorem any_of_forall₂ {α β : Type} {R : α → β → Prop} {p : α → Bool} {p' : β → Bool} {xs : List α} {ys : List β}
    (h : List.Forall₂ R xs ys) (hp : ∀ x y, R x y → p' y = p x) : ys.any p' = xs.any p := by
  induction h with
  | nil => rfl
  | cons hxy _ ih => rw [List.any_cons, List.any_cons, hp _ _ hxy, ih]

theorem any_toList {α : Type} {p : α → Bool} (o : Option α) : o.toList.any p = o.any p := by cases o <;> simp

theorem holdsNaN_of_traverse {e : Expr ρ} {e' : Expr τ} (h : e.traverse f = .ok e') : e'.holdsNaN = e.holdsNaN := by
  have hform : Mirrors f fun e e' => e'.holdsNaN = e.holdsNaN :=
    ⟨fun _ => rfl, rfl, fun hl hr => by simp only [holdsNaN, hl, hr], fun _ => rfl⟩
  exact hform.traverse h

/-- What is so of the arguments of calls stays so. -/
theorem anyArgument_of_traverse {p : Expr ρ → Bool} {p' : Expr τ → Bool} (hp : ∀ e e', e.traverse f = .ok e' → p' e' = p e)
    {e : Expr ρ} {e' : Expr τ} (h : e.traverse f = .ok e') : e'.anyArgument p' = e.anyArgument p := by
  have hform : Mirrors f fun e e' => e'.anyArgument p' = e.anyArgument p := by
    refine ⟨fun _ => rfl, rfl, fun hl hr => ?_, fun hargs => ?_⟩
    · simp only [anyArgument] at hl hr
      simp only [anyArgument, calls, List.any_append, hl, hr]
    · simp [anyArgument, calls, any_of_forall₂ hargs fun _ _ h => hp _ _ h.1]
  exact hform.traverse h

end Expr

namespace Scope

variable {scope : Scope} {schema : Schema} {s : Selection} {items : List ResultItem} {i : Nat}

/-- Terms that are resolved without aggregate calls have none. -/
theorem plain_of_plainly {terms : List Term} {es : List Resolved} (h : List.Forall₂ scope.Plainly terms es) :
    terms.any (·.containsAggregate) = false ∧ ∀ e ∈ es, e.containsAggregate = false := by
  have hplain : ∀ e ∈ es, e.containsAggregate = false := fun e he => by
    obtain ⟨_, -, -, hplain⟩ := (exists_of_forall₂ h).2 e he
    exact hplain
  refine ⟨?_, hplain⟩
  rw [← Expr.any_of_forall₂ h fun _ _ h => Expr.containsAggregate_of_traverse h.1, List.any_eq_false]
  exact fun e he => Bool.eq_false_iff.mp (hplain e he)

theorem resolvePlain?_ok {e : Option Term} {e' : Option Resolved} (h : scope.resolvePlain? e = .ok e') :
    e.any (·.containsAggregate) = false ∧ ∀ r ∈ e'.toList, r.containsAggregate = false := by
  rw [← Expr.any_toList]
  exact plain_of_plainly (plainly_of_resolvePlain? h)

theorem resolveLimit_ok {clause : Option LimitClause} {limit offset : Option Resolved}
    (h : resolveLimit clause = .ok (limit, offset)) :
    clause.any (·.misuses) = false ∧ ∀ e ∈ limit.toList ++ offset.toList, e.containsAggregate = false := by
  obtain ⟨hterms, hplain⟩ := plain_of_plainly (plainly_of_resolveLimit h)
  refine ⟨?_, hplain⟩
  rw [List.any_flatMap, Expr.any_toList] at hterms
  simp only [LimitClause.terms, List.any_cons, Expr.any_toList] at hterms
  exact hterms

/-! ## Plans -/

section

variable
  (hitems : items.map (·.profile) = (s.columns.flatMap (s.entries schema)).map Selection.profile)

include hitems

/-- A term of GROUP BY calls an aggregate if the term that it stands for does. -/
theorem containsAggregate_of_resolveTerm {term : Term} {e : Resolved} (h : scope.resolveTerm items i term = .ok e) :
    e.containsAggregate = (s.groupTerm? schema term).any (·.containsAggregate) := by
  unfold resolveTerm at h
  split at h
  · rename_i k
    split at h <;> cases h
    rename_i item hitem
    split at hitem
    · rename_i hk
      have hentry := congrArg (fun l : List (Option String × Bool) => l[k.toInt.toNat - 1]?) hitems
      simp only [List.getElem?_map, hitem, Option.map_some] at hentry
      obtain ⟨entry, hget, hprofile⟩ := Option.map_eq_some_iff.mp hentry.symm
      simp only [Selection.groupTerm?, if_pos hk, hget]
      exact (congrArg Prod.snd hprofile).symm
    · cases hitem
  · rename_i name
    have hfind := congrArg (List.find? fun p => p.1.any (Text.sameName · name)) hitems
    simp only [List.find?_map] at hfind
    have hsame : (fun item : ResultItem => (item.newName.map (Text.sameName · name)).getD false) =
        (fun p => p.1.any (Text.sameName · name)) ∘ ResultItem.profile := by
      funext item
      simp only [Function.comp_apply, ResultItem.profile]
      cases item.newName <;> rfl
    rw [hsame] at h
    unfold Selection.groupTerm?
    dsimp only
    rw [show (fun entry : Option (Term × Option String) => (entry.bind (·.2)).any (Text.sameName · name)) =
      (fun p => p.1.any (Text.sameName · name)) ∘ Selection.profile from rfl]
    split at h
    · rename_i item hitem
      cases h
      rw [hitem, Option.map_some] at hfind
      obtain ⟨entry, hget, hprofile⟩ := Option.map_eq_some_iff.mp hfind.symm
      rw [hget]
      exact (congrArg Prod.snd hprofile).symm
    · rename_i hnone
      rw [hnone, Option.map_none] at hfind
      rw [Option.map_eq_none_iff.mp hfind.symm]
      exact Expr.containsAggregate_of_traverse h
  · rename_i hposition hname
    unfold Selection.groupTerm?
    split
    · exact (hposition _ rfl).elim
    · exact (hname _ rfl).elim
    · exact Expr.containsAggregate_of_traverse h

theorem groupTerms_ok {terms : List Term} {es : List Resolved} (h : scope.groupTerms items i terms = .ok es) :
    terms.any (fun t => (s.groupTerm? schema t).any (·.containsAggregate)) = false ∧
      ∀ e ∈ es, e.containsAggregate = false := by
  have hterms := resolveTerm_of_groupTerms h
  refine ⟨?_, fun e he => ?_⟩
  · rw [List.any_eq_false]
    intro t ht
    obtain ⟨e, -, ⟨i, hresolve⟩, hplain⟩ := (exists_of_forall₂ hterms).1 t ht
    rw [← containsAggregate_of_resolveTerm hitems hresolve, hplain]
    exact Bool.false_ne_true
  · obtain ⟨_, -, -, hplain⟩ := (exists_of_forall₂ hterms).2 e he
    exact hplain

end

section Arguments

variable {p : Term → Bool} {p' : Resolved → Bool}

section

variable (hp : ∀ e e', scope.resolve e = .ok e' → p' e' = p e)

include hp

theorem any_expand {column : ResultColumn} (h : scope.expand column = .ok items) :
    items.any (·.expr.anyArgument p') = column.term?.any (·.anyArgument p) := by
  have hplaces : ∀ (t : ScopeTable) nameOf, (t.items nameOf).any (·.expr.anyArgument p') = false := by
    intro t nameOf
    simp only [ScopeTable.items, List.any_map, List.any_eq_false]
    exact fun _ _ => Bool.false_ne_true
  cases column with
  | star =>
    simp only [expand] at h
    split at h <;> cases h
    simp [List.any_flatMap, hplaces, ResultColumn.term?]
  | tableStar name =>
    simp only [expand] at h
    split at h <;> cases h
    simp [hplaces, ResultColumn.term?]
  | term e newName =>
    simp only [expand] at h
    split at h <;> cases h
    simp [ResultColumn.term?, Expr.anyArgument_of_traverse hp (by assumption)]

theorem any_expandAll {columns : List ResultColumn} (h : scope.expandAll columns = .ok items) :
    items.any (·.expr.anyArgument p') = (columns.filterMap (·.term?)).any (·.anyArgument p) := by
  induction columns generalizing items with
  | nil =>
    cases h
    rfl
  | cons column columns ih =>
    unfold expandAll at h
    split at h
    · cases h
    rename_i here hhere
    split at h <;> cases h
    rename_i more hmore
    rw [List.any_append, ih hmore, any_expand hp hhere, List.filterMap_cons]
    cases column.term? <;> rfl

/-- A term of ORDER BY is one of the result list, or has calls as it is written. -/
theorem any_orderTerms {i : Nat} {terms : List OrderingTerm} {es : List (Resolved × Direction)}
    (h : scope.orderTerms items i terms = .ok es) : (items.any (·.expr.anyArgument p') || es.any (·.1.anyArgument p')) =
      (items.any (·.expr.anyArgument p') || terms.any (·.expr.anyArgument p)) := by
  induction terms generalizing i es with
  | nil =>
    cases h
    rfl
  | cons term terms ih =>
    unfold orderTerms at h
    split at h
    · cases h
    rename_i e hresolve
    split at h <;> cases h
    have hone : (items.any (·.expr.anyArgument p') || e.anyArgument p') =
        (items.any (·.expr.anyArgument p') || term.expr.anyArgument p) := by
      have hitem : ∀ item ∈ items, item.expr = e → term.expr.anyArgument p = false →
          (items.any (·.expr.anyArgument p') || e.anyArgument p') =
            (items.any (·.expr.anyArgument p') || term.expr.anyArgument p) := by
        rintro item hin rfl hterm
        cases hany : item.expr.anyArgument p' with
        | false => rw [hterm]
        | true => rw [List.any_eq_true.mpr ⟨item, hin, hany⟩, Bool.true_or, Bool.true_or]
      unfold resolveTerm at hresolve
      split at hresolve
      · rename_i hterm
        split at hresolve <;> cases hresolve
        rename_i item hget
        split at hget
        · exact hitem item (List.mem_of_getElem? hget) rfl (by rw [hterm]; rfl)
        · cases hget
      · rename_i hterm
        split at hresolve
        · rename_i item hget
          cases hresolve
          exact hitem item (List.mem_of_find?_eq_some hget) rfl (by rw [hterm]; rfl)
        · rw [Expr.anyArgument_of_traverse hp hresolve]
      · rw [Expr.anyArgument_of_traverse hp hresolve]
    have hrest := ih (by assumption)
    simp only [List.any_cons, ← Bool.or_assoc, hone]
    simp only [Bool.or_right_comm _ (term.expr.anyArgument p), hrest]

/-- What is so of the arguments of calls in a selection is so in its plan. -/
theorem any_outputs {orderBy : List OrderingTerm} {limit : Option LimitClause} {plan : Plan}
    (h : scope.plan s orderBy limit = .ok plan) : (Grouping.outputs plan).any (·.anyArgument p') =
      (s.outputs.any (·.anyArgument p) || orderBy.any (·.expr.anyArgument p)) := by
  obtain ⟨items, hitems, hprojection, -, -, hhaving, horder, -⟩ := plan_gives h
  have hresolve? : ∀ {e : Option Term} {e' : Option Resolved}, scope.resolve? e = .ok e' →
      e'.toList.any (·.anyArgument p') = e.toList.any (·.anyArgument p) := by
    intro e e' h
    exact Expr.any_of_forall₂ (resolve_of_resolve? h) fun _ _ => Expr.anyArgument_of_traverse hp
  have hlist := any_orderTerms hp horder
  simp only [Grouping.outputs, Selection.outputs, List.any_append, hprojection, List.any_map, Function.comp_def,
    hresolve? hhaving]
  rw [Bool.or_right_comm, hlist, any_expandAll hp hitems, Bool.or_right_comm]

end

end Arguments

variable {cursor : Int} {orderBy : List OrderingTerm} {limit : Option LimitClause}

/-- What a plan says of its selection: calls stand in outputs only. -/
theorem plan_ok (hscope : ranging schema cursor s.tables = .ok scope) {plan : Plan}
    (h : scope.plan s orderBy limit = .ok plan) : s.filter.any (·.containsAggregate) = false ∧
      s.groupBy.any (fun t => (s.groupTerm? schema t).any (·.containsAggregate)) = false ∧
      limit.any (·.misuses) = false ∧
      ∀ e ∈ plan.filter.toList ++ plan.groupBy ++ plan.limit.toList ++ plan.offset.toList,
        e.containsAggregate = false := by
  obtain ⟨items, hitems, -, hfilter, hgroup, -, -, hlimit, -, -⟩ := plan_gives h
  have hprofile := profile_expandAll (widths_of_ranging hscope) hitems
  obtain ⟨hfilter, hfilter'⟩ := resolvePlain?_ok hfilter
  obtain ⟨hgroup, hgroup'⟩ := groupTerms_ok hprofile hgroup
  obtain ⟨hlimit, hlimit'⟩ := resolveLimit_ok hlimit
  refine ⟨hfilter, hgroup, hlimit, ?_⟩
  rw [List.append_assoc]
  exact List.forall_mem_append.mpr ⟨List.forall_mem_append.mpr ⟨hfilter', hgroup'⟩, hlimit'⟩

end Scope

/-! ## Queries -/

variable {x : Error} {options : Options} {schema : Schema}

/-- No misuse is reported. -/
def Rules.sparing : Rules where
  admits _ := True
  reads _ := False
  raises x := x.isMisuse = false
  straight _ := trivial
  reports {x} _ h := by
    cases x with
    | misuseOfAggregate name => exact (h name rfl).elim
    | _ => rfl

instance : Rules.sparing.Lax := ⟨fun _ => trivial⟩

instance : Rules.sparing.Free := ⟨fun _ => id⟩

instance {P : Prop} : Rules.sparing.Fits P := ⟨.inr fun _ => rfl⟩

/-- What is built without reporting a misuse does not fail for one. -/
theorem Emit.Builds.isMisuse_of_build (hm : m.Builds .sparing [] [] [] [.plain .halt 0 0 0]) (h : build reuse m = .error x) : x.isMisuse = false := by
  have hready : (Builder.fresh reuse).Ready .sparing [] [] := (Builder.valid_fresh reuse).ready fun _ _ => id
  unfold build at h
  split at h
  · rename_i hrun
    rw [(hm.gives hrun hready).finish_eq] at h
    cases h
  · rename_i hrun
    cases h
    exact hm.fails ⟨_, hrun⟩ hready

theorem Emit.Builds.isMisuse_of_compile (hm : m.Builds .sparing [] [] [] [.plain .halt 0 0 0]) {f : Program × α → Program} (h : (build reuse m >>= fun r => pure (f r)) = .error x) :
    x.isMisuse = false := by
  obtain h | ⟨_, -, h⟩ := bind_eq_error.mp h
  · exact hm.isMisuse_of_build h
  · cases h

/-- The plan is that of the selection over some scope. -/
def Selection.PlannedAs (schema : Schema) (orderBy : List OrderingTerm) (limit : Option LimitClause) (s : Selection)
    (p : Plan) : Prop :=
  ∃ cursor scope, Scope.ranging schema cursor s.tables = .ok scope ∧ scope.plan s orderBy limit = .ok p

section Query

variable {schema : Schema} {s : Selection} {orderBy : List OrderingTerm} {limit : Option LimitClause} {p : Plan}
  {b b' : Builder} {d : Destination}

theorem planSelection_gives (h : (planSelection schema s orderBy limit).Gives b p b') :
    s.PlannedAs schema orderBy limit p := by
  obtain ⟨scope, hscope, hplan, -⟩ := Scope.planSelection_gives h
  exact ⟨b.cursors, scope, hscope, hplan⟩

theorem Selection.PlannedAs.obeys (h : s.PlannedAs schema orderBy limit p) (houtputs : s.outputs.any (·.nests) = false)
    (hnests : orderBy.any (·.expr.nests) = false) (hnan : s.outputs.any (·.callsNaN) = false)
    (hnan' : orderBy.any (·.expr.callsNaN) = false) : p.Obeys .sparing := by
  obtain ⟨cursor, scope, hscope, hplan⟩ := h
  obtain ⟨-, -, -, hplain⟩ := Scope.plan_ok hscope hplan
  have hcalls := Scope.any_outputs (fun _ _ => Expr.containsAggregate_of_traverse) hplan
  have hcallsNaN := Scope.any_outputs (fun _ _ => Expr.holdsNaN_of_traverse) hplan
  refine ⟨fun _ _ _ _ _ => trivial, .of_plain inferInstance hplain, inferInstance, .inl fun e he => ⟨?_, ?_⟩⟩
  · exact Bool.eq_false_iff.mpr (List.any_eq_false.mp (hcalls.trans (Bool.or_eq_false_iff.mpr ⟨houtputs, hnests⟩)) e he)
  · exact Bool.eq_false_iff.mpr (List.any_eq_false.mp (hcallsNaN.trans (Bool.or_eq_false_iff.mpr ⟨hnan, hnan'⟩)) e he)

theorem Selection.sends_sparing (h : s.misuses schema = false) (hlimit : limit.any (·.misuses) = false)
    (hnests : orderBy.any (·.expr.nests) = false) (hnan : s.outputs.any (·.callsNaN) = false)
    (hnan' : orderBy.any (·.expr.callsNaN) = false) : s.Sends .sparing schema orderBy limit d where
  plan K := by
    simp only [misuses, Bool.or_eq_false_iff] at h
    refine Builds.bind_of inferInstance fun hscope _ => obeys_check fun _ => Scope.raises_of_plan (.inl h.1.1) (.inl hlimit)
      fun items hitems i t ht e hresolve => .inl ?_
    have hprofile := Scope.profile_expandAll (Scope.widths_of_ranging (Scope.openScope_gives.mp hscope).1) hitems
    rw [Scope.containsAggregate_of_resolveTerm hprofile hresolve]
    exact Bool.eq_false_iff.mpr (List.any_eq_false.mp h.1.2 t ht)
  obeys hgives := (planSelection_gives hgives).obeys (Bool.or_eq_false_iff.mp h).2 hnests hnan hnan'
  accepts _ := ⟨inferInstance, inferInstance, inferInstance⟩

/-- Where code was written for a plan, no call stands in an argument of another. -/
theorem nests_of_emitPlan {u : Unit} (h : (emitPlan p d).Gives b u b') :
    (Grouping.outputs p).any (·.nests) = false := by
  rw [List.any_eq_false]
  intro e he
  rw [Bool.not_eq_true, Expr.nests, Expr.anyArgument_eq_false]
  intro c hc
  unfold emitPlan at h
  split at h
  · simp only [Grouping.emit, gives_bind, gives_check] at h
    obtain ⟨found, _, ⟨hfound, -⟩, -⟩ := h
    have hends := Grouping.addAllCalls_ends (Grouping.outputs p) []
    rw [hfound] at hends
    exact hends.plain c (List.mem_flatMap.mpr ⟨e, he, hc⟩)
  · rename_i hplain
    rw [Expr.calls_eq_nil.mpr (Plan.plain_of_not_isAggregate (Bool.eq_false_iff.mpr hplain) e he)] at hc
    cases hc

theorem Selection.PlannedAs.misuses {u : Unit} (h : s.PlannedAs schema orderBy limit p)
    (hgives : (emitPlan p d).Gives b u b') :
    s.misuses schema = false ∧ orderBy.any (·.expr.nests) = false ∧ limit.any (·.misuses) = false := by
  obtain ⟨cursor, scope, hscope, hplan⟩ := h
  obtain ⟨hfilter, hgroup, hlimit, -⟩ := Scope.plan_ok hscope hplan
  have hcalls := Scope.any_outputs (fun _ _ => Expr.containsAggregate_of_traverse) hplan
  obtain ⟨houtputs, horder⟩ := Bool.or_eq_false_iff.mp (hcalls.symm.trans (nests_of_emitPlan hgives))
  refine ⟨?_, horder, hlimit⟩
  rw [Selection.misuses, hfilter, hgroup, Bool.false_or, Bool.false_or]
  exact houtputs

namespace Compound

theorem planArms_gives {width : Nat} {arms : List (CompoundOp × Selection)} {plans : List Plan}
    (h : (planArms schema width arms).Gives b plans b') :
    List.Forall₂ (fun arm p => arm.2.PlannedAs schema [] none p) arms plans := by
  induction arms generalizing b b' plans with
  | nil =>
    obtain ⟨rfl, -⟩ := gives_pure.mp h
    exact .nil
  | cons arm arms ih =>
    obtain ⟨p, b1, hp, h⟩ := gives_bind.mp h
    split at h
    · obtain ⟨more, b2, hmore, h⟩ := gives_bind.mp h
      obtain ⟨rfl, -⟩ := gives_pure.mp h
      exact .cons (planSelection_gives hp) (ih hmore)
    · exact (gives_throw h).elim

/-- The terms that order a compound name columns and call nothing. -/
theorem nests_of_orderColumns {names : List String} {i : Nat} {terms : List OrderingTerm}
    {columns : List (Nat × Direction)} (h : orderColumns names i terms = .ok columns) :
    terms.any (·.expr.nests) = false := by
  induction terms generalizing i columns with
  | nil => rfl
  | cons term terms ih =>
    unfold orderColumns at h
    repeat' split at h
    all_goals cases h
    rename_i hcolumn _ _ _
    rw [List.any_cons, ih (by assumption), Bool.or_false]
    unfold orderColumn? at hcolumn
    split at hcolumn
    · rename_i hterm
      rw [hterm]
      rfl
    · rename_i hterm
      rw [hterm]
      rfl
    · cases hcolumn

/-- Code is written for every plan that is collected. -/
theorem emitCollect_gives {names : List String} {united rest : List Plan} {cursors : List Int}
    (h : (emitCollect names united rest).Gives b cursors b') :
    ∀ p ∈ united ++ rest, ∃ d b u b', (emitPlan p d).Gives b u b' := by
  have hplans : ∀ {d : Destination} {plans : List Plan} {b b' : Builder} {u : Unit},
      (emitPlans d plans).Gives b u b' → ∀ p ∈ plans, ∃ d b u b', (emitPlan p d).Gives b u b' := by
    intro d plans
    induction plans with
    | nil => exact fun _ => nofun
    | cons p plans ih =>
      intro b b' u h
      obtain ⟨_, b1, hfirst, hrest⟩ := gives_bind.mp h
      exact List.forall_mem_cons.mpr ⟨⟨d, b, _, b1, hfirst⟩, ih hrest⟩
  have htable : ∀ {set : Option Int} {plans : List Plan} {b b' : Builder} {cursor : Int},
      (emitTable names set plans).Gives b cursor b' → ∀ p ∈ plans, ∃ d b u b', (emitPlan p d).Gives b u b' := by
    intro set plans b b' cursor h
    simp only [emitTable, gives_bind] at h
    obtain ⟨_, _, -, _, _, -, _, _, -, _, _, h, -⟩ := h
    exact hplans h
  unfold emitCollect at h
  split at h
  · rename_i hempty
    obtain ⟨_, _, h, -⟩ := gives_bind.mp h
    rw [List.isEmpty_iff.mp hempty]
    exact htable h
  · simp only [emitSet, gives_bind] at h
    obtain ⟨_, _, ⟨_, _, -, _, _, -, _, _, hset, -⟩, h⟩ := h
    refine List.forall_mem_append.mpr ⟨hplans hset, ?_⟩
    split at h
    · rename_i hempty
      rw [List.isEmpty_iff.mp hempty]
      exact nofun
    · obtain ⟨_, _, h, -⟩ := gives_bind.mp h
      exact htable h

end Compound

theorem emitQuery_gives {q : Query} {names : List String} (h : (emitQuery schema q .output).Gives b names b') :
    q.misuses schema = false := by
  unfold emitQuery at h
  split at h
  · rename_i hsingle
    simp only [gives_bind] at h
    obtain ⟨p, b1, hplan, u, b2, hemit, -⟩ := h
    obtain ⟨hfirst, horder, hlimit⟩ := (planSelection_gives hplan).misuses hemit
    simp [Query.misuses, Query.selections, List.isEmpty_iff.mp hsingle, hfirst, horder, hlimit]
  · unfold Compound.emit at h
    split at h
    · exact (gives_throw h).elim
    · obtain ⟨first, b1, hfirst, h⟩ := gives_bind.mp h
      obtain ⟨arms, b2, harms, h⟩ := gives_bind.mp h
      simp only [gives_bind, gives_check] at h
      obtain ⟨columns, _, ⟨hcolumns, -⟩, ⟨limit, offset⟩, _, ⟨hlimit, -⟩, cursors, _, hcollect, -⟩ := h
      have hall := Compound.emitCollect_gives hcollect
      rw [List.take_append_drop] at hall
      obtain ⟨⟨d, _, _, _, hemit⟩, hall⟩ := List.forall_mem_cons.mp hall
      have hselections : q.selections.any (·.misuses schema) = false := by
        rw [Query.selections, List.any_cons, ((planSelection_gives hfirst).misuses hemit).1, Bool.false_or,
          List.any_map, List.any_eq_false]
        intro arm hin
        obtain ⟨p, hp, hplanned⟩ := (exists_of_forall₂ (Compound.planArms_gives harms)).1 arm hin
        obtain ⟨d, _, _, _, hemit⟩ := hall p hp
        exact Bool.eq_false_iff.mp (hplanned.misuses hemit).1
      rw [Query.misuses, hselections, Compound.nests_of_orderColumns hcolumns, (Scope.resolveLimit_ok hlimit).1]
      rfl

theorem emitQuery_spares {q : Query} (h : q.misuses schema = false) (hnan : q.callsNaN = false) (K : List Label) :
    Obeys .sparing K (emitQuery schema q .output) := by
  simp only [Query.misuses, Query.callsNaN, Bool.or_eq_false_iff] at h hnan
  obtain ⟨⟨hselections, horder⟩, hlimit⟩ := h
  obtain ⟨houtputs, horderNaN⟩ := hnan
  have hsends : ∀ s ∈ q.selections, s.misuses schema = false ∧ s.outputs.any (·.callsNaN) = false := fun s hs =>
    ⟨Bool.eq_false_iff.mpr (List.any_eq_false.mp hselections s hs),
      Bool.eq_false_iff.mpr (List.any_eq_false.mp houtputs s hs)⟩
  obtain ⟨hfirst, hnan⟩ := hsends q.first List.mem_cons_self
  refine emitQuery_obeys (fun _ => Selection.sends_sparing hfirst hlimit horder hnan horderNaN)
    (Selection.sends_sparing hfirst rfl rfl hnan rfl) (fun arm harm => ?_)
    (fun _ => Scope.raises_of_resolveLimit (.inl hlimit)) fun _ _ hresolve => ?_
  · obtain ⟨hselection, hnan⟩ := hsends arm.2 (List.mem_cons_of_mem _ (List.mem_map_of_mem harm))
    exact (Selection.sends_sparing (d := .output) hselection rfl rfl hnan rfl).toObeys
  · exact .of_plain inferInstance (Scope.resolveLimit_ok hresolve).2

end Query

/-! ## Values of INSERT -/

theorem plain_of_emitExpr : ∀ {e : Resolved} {target : Int} {b b' : Builder} {u : Unit},
    (emitExpr [] e target).Gives b u b' → e.containsAggregate = false
  | .ref _, _, _, _, _, _ | .lit _, _, _, _, _, _ => rfl
  | .binary _ left right, _, _, _, _, h => by
    simp only [emitExpr, Bindings.register?, List.find?_nil, Option.map_none, gives_bind] at h
    obtain ⟨_, _, -, _, _, hleft, _, _, -, _, _, hright, -⟩ := h
    rw [Expr.containsAggregate, plain_of_emitExpr hleft, plain_of_emitExpr hright, Bool.or_false]
  | .aggregate _ _, _, _, _, _, h => (gives_throw h).elim

namespace Insertion

/-- The value for a position is the last that is given for it. -/
theorem valueAt?_eq_some {values : List (Nat × Resolved)} {index : Nat} {e : Resolved} :
    valueAt? values index = some e ↔ ∃ k, values[k]? = some (index, e) ∧ index ∉ (values.drop (k + 1)).map (·.1) := by
  induction values with
  | nil => simp [valueAt?]
  | cons v values ih =>
    have hcons : valueAt? (v :: values) index = (valueAt? values index).or ([v].lookup index) := by
      rw [valueAt?, List.reverse_cons, List.lookup_append, ← valueAt?]
    have hnone : valueAt? values index = none ↔ index ∉ values.map (·.1) := by
      simp only [valueAt?, List.lookup_eq_none_iff, List.mem_reverse, List.mem_map, not_exists, not_and, bne_iff_ne]
      exact forall₂_congr fun _ _ => ne_comm
    have hhead : [v].lookup index = some e ↔ v = (index, e) := by
      rw [List.lookup_cons]
      split
      · rename_i heq
        simp [Prod.ext_iff, eq_of_beq heq]
      · rename_i hne
        simp only [List.lookup_nil, reduceCtorEq, false_iff]
        rintro rfl
        simp at hne
    rw [hcons, Option.or_eq_some_iff, ih, hnone, hhead]
    constructor
    · rintro (⟨k, hk, hnot⟩ | ⟨hnot, rfl⟩)
      · exact ⟨k + 1, hk, hnot⟩
      · exact ⟨0, rfl, hnot⟩
    · rintro ⟨k, hk, hnot⟩
      cases k with
      | zero => exact .inr ⟨hnot, Option.some.inj hk⟩
      | succ k => exact .inl ⟨k, hk, hnot⟩

end Insertion

/-- Two names are of one column if they are the same. -/
theorem Table.sameName_iff_of_columnIndex? {table : Table} {m n : String} {i j : Nat} (hm : table.columnIndex? m = some i)
    (hn : table.columnIndex? n = some j) : Text.sameName m n = true ↔ i = j := by
  have hfold : ∀ {name : String} {k : Nat}, table.columnIndex? name = some k →
      (table.columns[k]?.map fun c => Text.foldCase c.name) = some (Text.foldCase name) := by
    intro name k h
    obtain ⟨hk, hsame, -⟩ := List.findIdx?_eq_some_iff_getElem.mp h
    rw [List.getElem?_eq_getElem hk, Option.map_some, eq_of_beq hsame]
  constructor
  · intro hsame
    have hpredicate : (fun c : Column => Text.sameName c.name m) = fun c => Text.sameName c.name n := by
      simp only [Text.sameName, eq_of_beq hsame]
    rw [columnIndex?, hpredicate] at hm
    exact Option.some.inj (hm.symm.trans hn)
  · rintro rfl
    have heq := (hfold hm).symm.trans (hfold hn)
    rw [Text.sameName, Option.some.inj heq, beq_self_eq_true]

namespace Insertion

variable {i : Insertion} {table : Table} {positions : List Nat} {index : Nat} {values : List (Nat × Resolved)}
  {e : Resolved} {x : Error}

section

variable (h : (if i.columns.isEmpty then .ok (List.range table.columns.length)
    else targets table i.columns) = (.ok positions : Except Error _))

include h

/-- A value is used if no other is given for its position further on. -/
theorem uses_iff {k : Nat} (hk : positions[k]? = some index) :
    index < table.columns.length ∧ (i.uses k = true ↔ index ∉ positions.drop (k + 1)) := by
  split at h
  · rename_i hempty
    cases h
    obtain ⟨hlt, rfl⟩ := List.getElem?_eq_some_iff.mp hk
    simp only [List.length_range, List.getElem_range] at hlt ⊢
    refine ⟨hlt, iff_of_true (by simp [uses, List.isEmpty_iff.mp hempty]) fun hin => ?_⟩
    obtain ⟨j, hj, heq⟩ := List.mem_drop_iff_getElem.mp hin
    rw [List.getElem_range] at heq
    omega
  · have hdrop := List.forall₂_drop k (forall₂_of_targets h)
    obtain ⟨hlt, hget⟩ := List.getElem?_eq_some_iff.mp hk
    rw [List.drop_eq_getElem_cons hlt, hget] at hdrop
    obtain ⟨name, names, hname, hrest, hnames⟩ := List.forall₂_cons_right_iff.mp hdrop
    have hfirst : i.columns.getD k "" = name := by
      rw [List.getD_eq_getElem?_getD, ← List.head?_drop, hnames]
      rfl
    refine ⟨(List.findIdx?_eq_some_iff_getElem.mp hname).1, ?_⟩
    rw [uses, hfirst, ← List.tail_drop, hnames, List.tail_cons, Bool.not_eq_true', List.any_eq_false]
    constructor
    · intro hnot hin
      obtain ⟨n, hn, hsame⟩ := (exists_of_forall₂ hrest).2 index hin
      exact hnot n hn ((Table.sameName_iff_of_columnIndex? hname hsame).mpr rfl)
    · intro hnot n hn hsame
      obtain ⟨j, hj, hn⟩ := (exists_of_forall₂ hrest).1 n hn
      exact hnot ((Table.sameName_iff_of_columnIndex? hname hn).mp hsame ▸ hj)

/-- The values of a row that are used are those that its columns take. -/
theorem misuses_row {terms : List Term} (hrow : RowOf positions terms values) :
    (∀ index e, valueAt? values index = some e → index < table.columns.length) ∧
      ((terms.zipIdx.any fun (e, k) => e.containsAggregate && i.uses k) = true ↔
        ∃ index e, valueAt? values index = some e ∧ e.containsAggregate = true) := by
  obtain ⟨hlength, es, hes, rfl⟩ := hrow
  have hpairs := Expr.forall₂_of_traverseAll hes
  have hfst : (positions.zip es).map (·.1) = positions := List.map_fst_zip (by rw [← hlength, hpairs.length_eq])
  simp only [List.any_eq_true, Prod.exists, List.mk_mem_zipIdx_iff_getElem?, Bool.and_eq_true, valueAt?_eq_some,
    List.map_drop, hfst, List.getElem?_zip_eq_some]
  refine ⟨fun index e ⟨k, ⟨hposition, _⟩, _⟩ => (uses_iff h hposition).1, ?_⟩
  constructor
  · rintro ⟨term, k, hterm, hcalls, huses⟩
    obtain ⟨hk, rfl⟩ := List.getElem?_eq_some_iff.mp hterm
    have hposition := List.getElem?_eq_getElem (hlength ▸ hk)
    have hvalue := List.getElem?_eq_getElem (hpairs.length_eq ▸ hk)
    exact ⟨_, _, ⟨k, ⟨hposition, hvalue⟩, (uses_iff h hposition).2.mp huses⟩,
      (Expr.containsAggregate_of_traverse (hpairs.get hk _)).trans hcalls⟩
  · rintro ⟨index, e, ⟨k, ⟨hposition, hvalue⟩, hlast⟩, hcalls⟩
    obtain ⟨hk, rfl⟩ := List.getElem?_eq_some_iff.mp hvalue
    have hk' := hpairs.length_eq ▸ hk
    exact ⟨_, k, List.getElem?_eq_getElem hk', (Expr.containsAggregate_of_traverse (hpairs.get hk' hk)).symm.trans hcalls,
      (uses_iff h hposition).2.mpr hlast⟩

end

theorem emitColumns_plain : ∀ {columns : List Column} {first index : Nat} {target : Int} {b b' : Builder} {u : Unit},
    (emitColumns values columns first target).Gives b u b' → first ≤ index → index < first + columns.length →
    valueAt? values index = some e → e.containsAggregate = false
  | [], _, _, _, _, _, _, _, hle, hlt, _ => absurd hlt (by simpa using hle)
  | _ :: columns, first, index, _, _, _, _, h, hle, hlt, hvalue => by
    obtain ⟨_, _, hcolumn, h⟩ := gives_bind.mp h
    rcases Nat.eq_or_lt_of_le hle with rfl | hlater
    · rw [emitColumn, hvalue] at hcolumn
      exact plain_of_emitExpr hcolumn
    · exact emitColumns_plain h hlater (by rw [List.length_cons] at hlt; omega) hvalue

theorem emitRows_plain {indexes : List OpenIndex} {cursor rowid base record : Int}
    (hindex : index < table.columns.length) : ∀ {rows : List (List (Nat × Resolved))} {b b' : Builder} {u : Unit},
    (emitRows table indexes cursor rowid base record rows).Gives b u b' → ∀ values ∈ rows,
      valueAt? values index = some e → e.containsAggregate = false
  | [], _, _, _, _ => nofun
  | _ :: _, _, _, _, h => by
    simp only [emitRows, gives_bind] at h
    obtain ⟨_, _, -, _, _, hcolumns, _, _, -, _, _, -, _, _, -, _, _, -, hrows⟩ := h
    exact List.forall_mem_cons.mpr ⟨emitColumns_plain hcolumns (Nat.zero_le _) (by rwa [Nat.zero_add]),
      emitRows_plain hindex hrows⟩

theorem misuses_iff {schema : Schema} {rows : List (List (Nat × Resolved))} (h : i.validate schema = .ok (table, rows)) :
    (∀ values ∈ rows, ∀ index e, valueAt? values index = some e → index < table.columns.length) ∧
      (i.misuses = true ↔ ∃ values ∈ rows, ∃ index e, valueAt? values index = some e ∧ e.containsAggregate = true) := by
  obtain ⟨-, -, positions, hpositions, hrows⟩ := gives_of_validate h
  obtain ⟨hto, hfrom⟩ := exists_of_forall₂ hrows
  rw [misuses, List.any_eq_true]
  refine ⟨fun values hvalues => ?_, ?_, ?_⟩
  · obtain ⟨terms, -, hrow⟩ := hfrom values hvalues
    exact (misuses_row hpositions hrow).1
  · rintro ⟨terms, hterms, hmisuses⟩
    obtain ⟨values, hvalues, hrow⟩ := hto terms hterms
    exact ⟨values, hvalues, (misuses_row hpositions hrow).2.mp hmisuses⟩
  · rintro ⟨values, hvalues, hcalls⟩
    obtain ⟨terms, hterms, hrow⟩ := hfrom values hvalues
    exact ⟨terms, hterms, (misuses_row hpositions hrow).2.mpr hcalls⟩

theorem emit_plain {options : Options} {rows : List (List (Nat × Resolved))} {b b' : Builder} {u : Unit}
    (h : (emit options table rows).Gives b u b') (hvalues : values ∈ rows) (hindex : index < table.columns.length)
    (he : valueAt? values index = some e) : e.containsAggregate = false := by
  simp only [emit, gives_bind] at h
  obtain ⟨_, _, -, _, _, -, _, _, -, _, _, -, _, _, -, _, _, -, _, _, -, _, _, hrows, -⟩ := h
  exact emitRows_plain hindex hrows values hvalues he

end Insertion

/-! ## Statements -/

namespace Insertion

variable {schema : Schema} {options : Options} {i : Insertion}

theorem misuses_of_ok {program : Program} (h : i.compile schema options = .ok program) : i.misuses = false := by
  obtain ⟨⟨table, rows⟩, hvalid, h⟩ := bind_eq_ok.mp h
  obtain ⟨⟨_, ⟨⟩⟩, hbuild, -⟩ := bind_eq_ok.mp h
  obtain ⟨final, hgives, -⟩ := build_gives hbuild
  obtain ⟨hlt, hiff⟩ := misuses_iff hvalid
  refine Bool.eq_false_iff.mpr fun hmisuses => ?_
  obtain ⟨values, hvalues, index, e, he, hcalls⟩ := hiff.mp hmisuses
  rw [emit_plain hgives hvalues (hlt values hvalues index e he) he] at hcalls
  cases hcalls

theorem misuses_of_error {x : Error} (h : i.compile schema options = .error x) (hx : x.isMisuse = true) :
    i.misuses = true := by
  by_contra hplain
  rw [Bool.not_eq_true] at hplain
  obtain h | ⟨⟨table, rows⟩, hvalid, h⟩ := bind_eq_error.mp h
  · exact Bool.eq_false_iff.mp (raises_of_validate (R := .sparing) h) hx
  · refine Bool.eq_false_iff.mp (Builds.isMisuse_of_compile (emit_builds fun values hvalues k => ?_) h) hx
    refine .of_plain inferInstance fun e he => ?_
    refine Bool.eq_false_iff.mpr fun hcalls => Bool.eq_false_iff.mp hplain ((misuses_iff hvalid).2.mpr ?_)
    exact ⟨values, hvalues, k, e, Option.mem_toList.mp he, hcalls⟩

end Insertion

namespace Change

variable {schema : Schema} {options : Options} {c : Change}

theorem misuses_of_ok {program : Program} (h : c.compile schema options = .ok program) : c.misuses = false := by
  obtain ⟨r, hvalid, -⟩ := bind_eq_ok.mp h
  obtain ⟨-, hlength, hassignments, hfilter⟩ := parts_of_validate hvalid
  rw [misuses, (Scope.resolvePlain?_ok hfilter).1, Bool.or_false, ← List.map_snd_zip (Nat.le_of_eq hlength.symm), List.any_map,
    List.any_eq_false]
  intro set hset
  obtain ⟨a, -, -, -, hresolve⟩ := (exists_of_forall₂ (resolves_of_assignments hassignments)).1 set hset
  obtain ⟨hresolve, hplain⟩ := Scope.plainly_of_resolvePlain hresolve
  exact Bool.eq_false_iff.mp ((Expr.containsAggregate_of_traverse hresolve).symm.trans hplain)

theorem misuses_of_error {x : Error} (h : c.compile schema options = .error x) (hx : x.isMisuse = true) :
    c.misuses = true := by
  by_contra hplain
  refine Bool.eq_false_iff.mp ?_ hx
  obtain h | ⟨r, hvalid, h⟩ := bind_eq_error.mp h
  · exact raises_of_validate (R := .sparing) (.inl (Bool.eq_false_iff.mpr hplain)) h
  · obtain ⟨-, -, -, hfilter⟩ := parts_of_validate hvalid
    have hplain : Rules.sparing.Loads [] r.filter.toList := .of_plain inferInstance (Scope.resolvePlain?_ok hfilter).2
    have hvalues : Rules.sparing.Loads [] (r.assignments.map (·.2)) :=
      .of_plain inferInstance (List.forall_mem_map.mpr fun a ha => (assigned_of_validate hvalid a ha).choose_spec.2.2)
    exact emit_builds.isMisuse_of_compile h

end Change

namespace Deletion

variable {schema : Schema} {options : Options} {d : Deletion}

theorem misuses_of_ok {program : Program} (h : d.compile schema options = .ok program) :
    d.filter.any (·.containsAggregate) = false := by
  obtain ⟨table, -, h⟩ := bind_eq_ok.mp h
  obtain ⟨filter, hfilter, -⟩ := bind_eq_ok.mp h
  exact (Scope.resolvePlain?_ok hfilter).1

theorem misuses_of_error {x : Error} (h : d.compile schema options = .error x) (hx : x.isMisuse = true) :
    d.filter.any (·.containsAggregate) = true := by
  by_contra hplain
  refine Bool.eq_false_iff.mp ?_ hx
  obtain hlookup | ⟨table, -, h⟩ := bind_eq_error.mp h
  · exact Schema.raises_of_lookup (R := .sparing) hlookup
  · obtain hfilter | ⟨filter, hfilter, h⟩ := bind_eq_error.mp h
    · exact Scope.raises_of_resolvePlain? (R := .sparing) (.inl (Bool.eq_false_iff.mpr hplain)) hfilter
    · have hplain : Rules.sparing.Loads [] filter.toList := .of_plain inferInstance (Scope.resolvePlain?_ok hfilter).2
      refine Builds.isMisuse_of_compile ?_ h
      split
      · exact emitTruncate_builds
      · exact emitRows_builds

end Deletion

/-! CREATE holds no expressions. -/

theorem TableDef.isMisuse_of_error {t : TableDef} (h : t.compile schema options = .error x) : x.isMisuse = false := by
  obtain h | ⟨fresh, -, h⟩ := bind_eq_error.mp h
  · exact raises_of_validate (R := .sparing) h
  · refine Builds.isMisuse_of_compile ?_ h
    split
    · exact emit_builds
    · exact Catalog.emitNothing_builds

theorem IndexDef.isMisuse_of_error {i : IndexDef} (h : i.compile schema options = .error x) : x.isMisuse = false := by
  obtain h | ⟨table, -, h⟩ := bind_eq_error.mp h
  · exact raises_of_validate (R := .sparing) h
  · refine Builds.isMisuse_of_compile ?_ h
    split
    · exact emit_builds
    · exact Catalog.emitNothing_builds

theorem Query.misuses_of_ok {r : Program × List String} (h : compileQuery schema options q = .ok r) :
    q.misuses schema = false := by
  obtain ⟨final, hgives, -⟩ := build_gives h
  simp only [gives_bind] at hgives
  obtain ⟨_, _, -, _, _, hquery, -⟩ := hgives
  exact emitQuery_gives hquery

theorem Query.misuses_of_error (h : compileQuery schema options q = .error x) (hx : x.isMisuse = true) :
    q.misuses schema = true ∨ q.callsNaN = true := by
  by_contra hnot
  simp only [not_or, Bool.not_eq_true] at hnot
  have hquery := emitQuery_spares hnot.1 hnot.2
  have hbuilds : Builds .sparing [] [] [] [.plain .halt 0 0 0] (emitInit >>= fun _ =>
      emitQuery schema q .output >>= fun names => emitHalt >>= fun _ => pure names) := inferInstance
  rw [hbuilds.isMisuse_of_build h] at hx
  cases hx

/-- **A statement that compiles has no aggregate call where none may stand, and one that is refused for a call has
such a call, or a call with a NaN in an argument.** -/
theorem Statement.misuse_reported (schema : Schema) (options : Options) (statement : Statement) :
    (∀ program, statement.compile schema options = .ok program → statement.misuses schema = false) ∧
      ∀ name, statement.compile schema options = .error (.misuseOfAggregate name) →
        statement.misuses schema = true ∨ statement.callsNaN = true := by
  constructor
  · intro program h
    cases statement with
    | select q =>
      obtain ⟨_, hquery, -⟩ := bind_eq_ok.mp h
      exact Query.misuses_of_ok hquery
    | insert i => exact Insertion.misuses_of_ok h
    | update c => exact Change.misuses_of_ok h
    | delete d => exact Deletion.misuses_of_ok h
    | createTable | createIndex => rfl
  · intro name h
    cases statement with
    | select q =>
      obtain h | ⟨_, -, h⟩ := bind_eq_error.mp h
      · exact Query.misuses_of_error h rfl
      · cases h
    | insert i => exact .inl (Insertion.misuses_of_error h rfl)
    | update c => exact .inl (Change.misuses_of_error h rfl)
    | delete d => exact .inl (Deletion.misuses_of_error h rfl)
    | createTable t => cases TableDef.isMisuse_of_error h
    | createIndex i => cases IndexDef.isMisuse_of_error h

/-- A column is listed twice, and its first value calls an aggregate. -/
def Insertion.overridden : Insertion := ⟨"t", ["a", "a"], [[.aggregate .count [], .lit (.int 1)]]⟩

/-- A NaN is counted. -/
def Query.countNaN : Query :=
  ⟨⟨false, [.term (.aggregate .count [.lit (.real .nan)]) none], [], none, [], none⟩, [], [], none⟩

/-- **A call in a value that is given twice is not reported, and a call with a NaN is where it may stand.** -/
theorem Statement.misuse_unreported :
    (Insertion.overridden.rows.any (·.any (·.containsAggregate)) = true ∧
      (compile [.ofColumns "t" 2 [⟨"a", "INTEGER", .integer, false, false, none⟩]] .standard
        (.insert .overridden)).toBool = true) ∧
    (select .countNaN).misuses [] = false ∧
      compile [] .standard (select .countNaN) = .error (.misuseOfAggregate "count") :=
  ⟨⟨rfl, by decide +kernel⟩, by decide +kernel, by rfl⟩

end QueryMachine
