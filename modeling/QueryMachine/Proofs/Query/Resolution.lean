import Mathlib.Data.List.Forall2
import QueryMachine.Compile.Statement
import QueryMachine.Proofs.Compile.Setting

/-!
# What plans read

Resolving keeps the form of expressions, and every expression of a plan is a column of a table in scope or what
a term of the selection is resolved to. A query in which no reference is a place already is planned over cursors
that are its own: every place in the plan is read through one of them.

* `Scope.yields_of_plan` — where the expressions of a plan come from.
* `Scope.raises_of_plan` — planning fails for a name, or for an aggregate call where none may stand.
* `Query.Named` — every reference of a query is a column name.
* `Scope.ranging` — the tables of a selection with consecutive cursors; `openScope` makes this scope.
* `Schema.plan` — the plan of a query.
* `Schema.plan_scoped` — the plan of a named query is scoped.
-/

namespace QueryMachine

open Emit

theorem exists_of_forall₂ {α β : Type} {R : α → β → Prop} {xs : List α} {ys : List β} (h : List.Forall₂ R xs ys) :
    (∀ x ∈ xs, ∃ y ∈ ys, R x y) ∧ ∀ y ∈ ys, ∃ x ∈ xs, R x y := by
  induction h with
  | nil => exact ⟨nofun, nofun⟩
  | cons hxy _ ih => exact ⟨by simpa using ⟨.inl hxy, fun x hx => .inr (ih.1 x hx)⟩,
      by simpa using ⟨.inl hxy, fun y hy => .inr (ih.2 y hy)⟩⟩

/-! ## Traversals -/

namespace Expr

variable {ε ρ τ : Type} {f : ρ → Except ε τ} {e : Expr ρ} {e' : Expr τ}

theorem firstAggregate?_eq_none : ∀ {e : Expr ρ}, e.firstAggregate? = none ↔ e.containsAggregate = false
  | .ref _ | .lit _ => by simp [firstAggregate?, containsAggregate]
  | .aggregate _ _ => by simp [firstAggregate?, containsAggregate]
  | .binary _ left right => by
    rw [containsAggregate, Bool.or_eq_false_iff, ← firstAggregate?_eq_none, ← firstAggregate?_eq_none, firstAggregate?]
    cases left.firstAggregate? <;> simp

/-- Every reference is a column name. -/
def Named (e : Term) : Prop := ∀ r ∈ e.refs, ∃ table name, r = .column table name

/-- The property of an expression and its traversal follows from that of their parts. -/
structure Mirrors (f : ρ → Except ε τ) (P : Expr ρ → Expr τ → Prop) : Prop where
  ref : ∀ {r s}, f r = .ok s → P (.ref r) (.ref s)
  lit : ∀ {v}, P (.lit v) (.lit v)
  binary : ∀ {op l r l' r'}, P l l' → P r r' → P (.binary op l r) (.binary op l' r')
  aggregate : ∀ {func es es'}, List.Forall₂ (fun e e' => e.traverse f = .ok e' ∧ P e e') es es' →
    P (.aggregate func es) (.aggregate func es')

mutual

theorem Mirrors.traverse {P : Expr ρ → Expr τ → Prop} (hP : Mirrors f P) :
    ∀ {e : Expr ρ} {e' : Expr τ}, e.traverse f = .ok e' → P e e'
  | .ref _, _, h => by
    unfold Expr.traverse at h
    split at h <;> cases h
    exact hP.ref (by assumption)
  | .lit _, _, h => by
    cases h
    exact hP.lit
  | .binary _ _ _, _, h => by
    unfold Expr.traverse at h
    repeat' split at h
    all_goals cases h
    exact hP.binary (hP.traverse (by assumption)) (hP.traverse (by assumption))
  | .aggregate _ _, _, h => by
    unfold Expr.traverse at h
    split at h <;> cases h
    exact hP.aggregate (hP.traverseAll (by assumption))

theorem Mirrors.traverseAll {P : Expr ρ → Expr τ → Prop} (hP : Mirrors f P) :
    ∀ {es : List (Expr ρ)} {es' : List (Expr τ)}, Expr.traverseAll f es = .ok es' →
      List.Forall₂ (fun e e' => e.traverse f = .ok e' ∧ P e e') es es'
  | [], _, h => by
    cases h
    exact .nil
  | _ :: _, _, h => by
    unfold Expr.traverseAll at h
    repeat' split at h
    all_goals cases h
    rename_i hfirst _ _ hrest
    exact .cons ⟨hfirst, hP.traverse hfirst⟩ (hP.traverseAll hrest)

end

theorem forall₂_of_traverseAll {es : List (Expr ρ)} {es' : List (Expr τ)} (h : traverseAll f es = .ok es') :
    List.Forall₂ (fun e e' => e.traverse f = .ok e') es es' := by
  have hform : Mirrors f fun _ _ => True := ⟨fun _ => trivial, trivial, fun _ _ => trivial, fun _ => trivial⟩
  exact (hform.traverseAll h).imp fun _ _ => And.left

/-- Aggregate calls are where they were. -/
theorem containsAggregate_of_traverse (h : e.traverse f = .ok e') : e'.containsAggregate = e.containsAggregate := by
  have hform : Mirrors f fun e e' => e'.containsAggregate = e.containsAggregate :=
    ⟨fun _ => rfl, rfl, fun hl hr => by simp only [containsAggregate, hl, hr], fun _ => rfl⟩
  exact hform.traverse h

/-- What is referred to after a replacement was referred to before it. -/
theorem mem_refs_of_traverse (h : e.traverse f = .ok e') : ∀ q ∈ e'.refs, ∃ r ∈ e.refs, f r = .ok q := by
  have hform : Mirrors f fun e e' => ∀ q ∈ e'.refs, ∃ r ∈ e.refs, f r = .ok q := by
    refine ⟨fun hr => by simpa [refs] using hr, nofun, fun hl hr q hq => ?_, fun hargs q hq => ?_⟩
    · rcases List.mem_append.mp hq with hq | hq
      · obtain ⟨r, hr, hfr⟩ := hl q hq
        exact ⟨r, List.mem_append_left _ hr, hfr⟩
      · obtain ⟨r, hr, hfr⟩ := hr q hq
        exact ⟨r, List.mem_append_right _ hr, hfr⟩
    · obtain ⟨arg', harg', hq⟩ := mem_refsAll.mp hq
      obtain ⟨arg, harg, -, hrefs⟩ := (exists_of_forall₂ hargs).2 arg' harg'
      obtain ⟨r, hr, hfr⟩ := hrefs q hq
      exact ⟨r, mem_refsAll.mpr ⟨arg, harg, hr⟩, hfr⟩
  exact hform.traverse h

mutual

/-- A traversal fails as one of the references does. -/
theorem traverse_error {x : ε} : ∀ {e : Expr ρ}, e.traverse f = .error x → ∃ r, f r = .error x
  | .ref r, h => by
    unfold traverse at h
    split at h <;> cases h
    exact ⟨r, by assumption⟩
  | .lit _, h => by cases h
  | .binary _ _ _, h => by
    unfold traverse at h
    repeat' split at h
    all_goals cases h
    all_goals exact traverse_error (by assumption)
  | .aggregate _ _, h => by
    unfold traverse at h
    split at h <;> cases h
    exact traverseAll_error (by assumption)

theorem traverseAll_error {x : ε} : ∀ {es : List (Expr ρ)}, traverseAll f es = .error x → ∃ r, f r = .error x
  | [], h => by cases h
  | _ :: _, h => by
    unfold traverseAll at h
    repeat' split at h
    all_goals cases h
    · exact traverse_error (by assumption)
    · exact traverseAll_error (by assumption)

end

end Expr

/-- The term of a result column; a wildcard has none. -/
def ResultColumn.term? : ResultColumn → Option Term
  | .term e _ => some e
  | _ => none

/-- The terms of a selection. -/
def Selection.terms (s : Selection) : List Term :=
  s.columns.filterMap (·.term?) ++ s.filter.toList ++ s.groupBy ++ s.having.toList

theorem Selection.forall_mem_terms {s : Selection} {P : Term → Prop} (hcolumns : ∀ c ∈ s.columns, ∀ e ∈ c.term?, P e)
    (hfilter : ∀ e ∈ s.filter, P e) (hgroup : ∀ e ∈ s.groupBy, P e) (hhaving : ∀ e ∈ s.having, P e) :
    ∀ e ∈ s.terms, P e := by
  simp only [terms, List.mem_append, List.mem_filterMap, Option.mem_toList]
  rintro e (((⟨c, hc, he⟩ | he) | he) | he)
  · exact hcolumns c hc e he
  · exact hfilter e he
  · exact hgroup e he
  · exact hhaving e he

def LimitClause.terms (l : LimitClause) : List Term := l.limit :: l.offset.toList

/-- A call stands in LIMIT or OFFSET. -/
def LimitClause.misuses (l : LimitClause) : Bool := l.limit.containsAggregate || l.offset.any (·.containsAggregate)

/-- Every reference of a result column is a column name. -/
def ResultColumn.Named : ResultColumn → Prop
  | .term e _ => e.Named
  | _ => True

/-- Every reference of a selection is a column name. -/
structure Selection.Named (s : Selection) : Prop where
  columns : ∀ c ∈ s.columns, c.Named
  filter : ∀ e, s.filter = some e → e.Named
  groupBy : ∀ e ∈ s.groupBy, e.Named
  having : ∀ e, s.having = some e → e.Named

theorem Selection.Named.terms {s : Selection} (h : s.Named) : ∀ e ∈ s.terms, e.Named := by
  refine forall_mem_terms (fun c hc e he => ?_) h.filter h.groupBy h.having
  cases c with
  | term _ _ =>
    cases he
    exact h.columns _ hc
  | star | tableStar => cases he

/-- Every reference of a query is a column name. -/
structure Query.Named (q : Query) : Prop where
  first : q.first.Named
  arms : ∀ arm ∈ q.arms, arm.2.Named
  orderBy : ∀ term ∈ q.orderBy, term.expr.Named
  limit : ∀ clause, q.limit = some clause → clause.limit.Named ∧
    ∀ e, clause.offset = some e → e.Named

/-! ## Scopes -/

namespace Schema

variable {schema : Schema} {table : Table} {name : String}

theorem table?_of_lookup (h : schema.lookup name = .ok table) : schema.table? name = some table := by
  unfold lookup at h
  repeat' split at h
  all_goals cases h
  assumption

theorem mem_of_lookup (h : schema.lookup name = .ok table) : table ∈ schema :=
  List.mem_of_find?_eq_some (table?_of_lookup h)

theorem raises_of_lookup {R : Rules} {x : Error} (h : schema.lookup name = .error x) : R.raises x := by
  unfold lookup at h
  repeat' split at h
  all_goals cases h
  all_goals exact R.reports nofun nofun

end Schema

/-- No aggregate is called, or its misuse may be reported. -/
def Rules.Excuses (R : Rules) (calls : Bool) : Prop := calls = false ∨ ∀ name, R.raises (.misuseOfAggregate name)

theorem Rules.Excuses.of_or {R : Rules} {a b : Bool} (h : R.Excuses (a || b)) : R.Excuses a ∧ R.Excuses b := by
  rcases h with h | h
  · exact ⟨.inl (Bool.or_eq_false_iff.mp h).1, .inl (Bool.or_eq_false_iff.mp h).2⟩
  · exact ⟨.inr h, .inr h⟩

namespace Scope

variable {scope : Scope} {name : String} {p : Place} {t : ScopeTable} {e : Term} {e' : Resolved}
  {items : List ResultItem} {i : Nat} {schema : Schema} {tables : List TableRef} {R : Rules} {x : Error}
  {limit : Option LimitClause} {s : Selection} {orderBy : List OrderingTerm} {terms : List Term}
  {columns : List ResultColumn} {b b' : Builder}

/-- The cursors of the tables in scope. -/
def cursors (scope : Scope) : List Int := scope.map (·.cursor)

theorem cursor_place (t : ScopeTable) (index : Nat) : (t.place index).cursor = t.cursor := by
  unfold ScopeTable.place
  split <;> rfl

theorem cursor_column? (h : t.column? name = some p) : p.cursor = t.cursor := by
  obtain ⟨index, -, rfl⟩ := Option.map_eq_some_iff.mp h
  exact cursor_place t index

theorem cursor_rowid? (h : t.rowid? name = some p) : p.cursor = t.cursor := by
  unfold ScopeTable.rowid? at h
  split at h
  · cases h
    rfl
  · cases h

/-- A name is resolved to a place of a table in scope. -/
theorem cursor_resolveName {table : Option String} (h : scope.resolveName (.column table name) = .ok p) :
    p.cursor ∈ scope.cursors := by
  cases table with
  | none =>
    simp only [resolveName] at h
    split at h
    · rename_i place hplace
      cases h
      unfold unqualified? at hplace
      split at hplace
      · rename_i found hfound
        cases hplace
        obtain ⟨t, ht, hcolumn⟩ := List.exists_of_findSome?_eq_some hfound
        rw [cursor_column? hcolumn]
        exact List.mem_map_of_mem ht
      · obtain ⟨t, ht, hrowid⟩ := Option.bind_eq_some_iff.mp hplace
        rw [cursor_rowid? hrowid]
        exact List.mem_map_of_mem (List.mem_of_head? ht)
    · cases h
  | some qualifier =>
    simp only [resolveName] at h
    split at h
    · cases h
    · rename_i t ht
      have hin := List.mem_of_find?_eq_some ht
      split at h
      · rename_i place hplace
        cases h
        have hcursor : p.cursor = t.cursor := by
          rcases Option.or_eq_some_iff.mp hplace with hcolumn | ⟨-, hrowid⟩
          · exact cursor_column? hcolumn
          · exact cursor_rowid? hrowid
        rw [hcursor]
        exact List.mem_map_of_mem hin
      · cases h

theorem cursor_resolve (h : scope.resolve e = .ok e') (he : e.Named) : ∀ q ∈ e'.refs, q.cursor ∈ scope.cursors := by
  intro q hq
  obtain ⟨r, hr, hq⟩ := Expr.mem_refs_of_traverse h q hq
  obtain ⟨table, name, rfl⟩ := he r hr
  exact cursor_resolveName hq

theorem raises_of_resolveName {r : Name} (h : scope.resolveName r = .error x) : R.raises x := by
  unfold resolveName at h
  repeat' split at h
  all_goals cases h
  all_goals exact R.reports (by simp) (by simp)

theorem raises_of_resolve (h : scope.resolve e = .error x) : R.raises x := by
  obtain ⟨r, hr⟩ := Expr.traverse_error h
  exact raises_of_resolveName hr

theorem rejectAggregates_ok {e : Resolved} (h : rejectAggregates e = .ok ()) : e.containsAggregate = false := by
  unfold rejectAggregates at h
  split at h
  · cases h
  · exact Expr.firstAggregate?_eq_none.mp (by assumption)

theorem raises_of_rejectAggregates {e : Resolved} (he : R.Excuses e.containsAggregate)
    (h : rejectAggregates e = .error x) : R.raises x := by
  unfold rejectAggregates at h
  split at h <;> cases h
  rename_i hcalls
  rcases he with hplain | hall
  · rw [Expr.firstAggregate?_eq_none.mpr hplain] at hcalls
    cases hcalls
  · exact hall _

/-- The term is resolved to an expression without aggregate calls. -/
def Plainly (scope : Scope) (e : Term) (e' : Resolved) : Prop :=
  scope.resolve e = .ok e' ∧ e'.containsAggregate = false

theorem plainly_of_resolvePlain (h : scope.resolvePlain e = .ok e') : scope.Plainly e e' := by
  unfold resolvePlain at h
  repeat' split at h
  all_goals cases h
  exact ⟨by assumption, rejectAggregates_ok (by assumption)⟩

theorem raises_of_resolvePlain (he : R.Excuses e.containsAggregate) (h : scope.resolvePlain e = .error x) :
    R.raises x := by
  unfold resolvePlain at h
  repeat' split at h
  all_goals cases h
  · exact raises_of_resolve (by assumption)
  · rename_i hresolve _ hcalls
    exact raises_of_rejectAggregates (Expr.containsAggregate_of_traverse hresolve ▸ he) hcalls

theorem plainly_of_resolvePlain? {e : Option Term} {e' : Option Resolved} (h : scope.resolvePlain? e = .ok e') :
    List.Forall₂ scope.Plainly e.toList e'.toList := by
  unfold resolvePlain? at h
  repeat' split at h
  all_goals cases h
  · exact .nil
  · exact .cons (plainly_of_resolvePlain (by assumption)) .nil

theorem exists_of_resolvePlain? {e : Option Term} {f : Option Resolved} (h : scope.resolvePlain? e = .ok f) :
    ∀ e' ∈ f, ∃ term ∈ e, scope.Plainly term e' := by
  simpa using (exists_of_forall₂ (plainly_of_resolvePlain? h)).2

theorem raises_of_resolvePlain? {e : Option Term} (he : R.Excuses (e.any (·.containsAggregate)))
    (h : scope.resolvePlain? e = .error x) : R.raises x := by
  unfold resolvePlain? at h
  repeat' split at h
  all_goals cases h
  exact raises_of_resolvePlain he (by assumption)

theorem resolve_of_resolve? {e : Option Term} {e' : Option Resolved} (h : scope.resolve? e = .ok e') :
    List.Forall₂ (fun t r => scope.resolve t = .ok r) e.toList e'.toList := by
  unfold resolve? at h
  repeat' split at h
  all_goals cases h
  · exact .nil
  · exact .cons (by assumption) .nil

theorem raises_of_resolve? {e : Option Term} (h : scope.resolve? e = .error x) : R.raises x := by
  unfold resolve? at h
  repeat' split at h
  all_goals cases h
  exact raises_of_resolve (by assumption)

/-! ## Result lists -/

/-- The expression is a column of a table in scope, or what one of the terms is resolved to. -/
def Yields (scope : Scope) (terms : List Term) (e : Resolved) : Prop :=
  (∃ t ∈ scope, ∃ index < t.table.columns.length, e = .ref (t.place index)) ∨
    ∃ term ∈ terms, scope.resolve term = .ok e

theorem Yields.mono {more : List Term} (h : scope.Yields terms e') (hmore : terms ⊆ more) : scope.Yields more e' :=
  h.imp_right fun ⟨term, hterm, hresolve⟩ => ⟨term, hmore hterm, hresolve⟩

theorem Yields.cursor (h : scope.Yields terms e') (hterms : ∀ term ∈ terms, term.Named) :
    ∀ q ∈ e'.refs, q.cursor ∈ scope.cursors := by
  rcases h with ⟨t, ht, index, -, rfl⟩ | ⟨term, hterm, hresolve⟩
  · intro q hq
    rw [List.mem_singleton.mp hq, cursor_place]
    exact List.mem_map_of_mem ht
  · exact cursor_resolve hresolve (hterms term hterm)

theorem yields_items (ht : t ∈ scope) (nameOf : String → String) :
    ∀ item ∈ t.items nameOf, scope.Yields [] item.expr := by
  intro item hitem
  obtain ⟨⟨column, index⟩, hin, rfl⟩ := List.mem_map.mp hitem
  obtain ⟨hlt, -⟩ := List.getElem?_eq_some_iff.mp (List.mk_mem_zipIdx_iff_getElem?.mp hin)
  exact .inl ⟨t, ht, index, hlt, rfl⟩

theorem yields_of_expand {column : ResultColumn} (h : scope.expand column = .ok items) :
    ∀ item ∈ items, scope.Yields column.term?.toList item.expr := by
  cases column with
  | star =>
    simp only [expand] at h
    split at h <;> cases h
    intro item hitem
    obtain ⟨t, ht, hitem⟩ := List.mem_flatMap.mp hitem
    exact yields_items ht _ item hitem
  | tableStar name =>
    simp only [expand] at h
    split at h <;> cases h
    exact yields_items (List.mem_of_find?_eq_some (by assumption)) id
  | term e newName =>
    simp only [expand] at h
    split at h <;> cases h
    exact List.forall_mem_singleton.mpr (.inr ⟨e, List.mem_singleton_self e, by assumption⟩)

theorem yields_of_expandAll (h : scope.expandAll columns = .ok items) :
    ∀ item ∈ items, scope.Yields (columns.filterMap (·.term?)) item.expr := by
  induction columns generalizing items with
  | nil =>
    cases h
    exact nofun
  | cons column columns ih =>
    unfold expandAll at h
    repeat' split at h
    all_goals cases h
    rename_i hhere _ more hmore
    refine List.forall_mem_append.mpr ⟨fun item hitem => ?_, fun item hitem => ?_⟩
    · refine (yields_of_expand hhere item hitem).mono fun term hterm => ?_
      exact List.mem_filterMap.mpr ⟨column, List.mem_cons_self, Option.mem_toList.mp hterm⟩
    · refine (ih hmore item hitem).mono fun term hterm => ?_
      obtain ⟨c, hc, hterm⟩ := List.mem_filterMap.mp hterm
      exact List.mem_filterMap.mpr ⟨c, List.mem_cons_of_mem _ hc, hterm⟩

theorem raises_of_expandAll (h : scope.expandAll columns = .error x) : R.raises x := by
  induction columns with
  | nil => cases h
  | cons column columns ih =>
    unfold expandAll at h
    repeat' split at h
    all_goals cases h
    · rename_i hcolumn
      unfold expand at hcolumn
      repeat' split at hcolumn
      all_goals cases hcolumn
      · exact R.reports nofun nofun
      · exact R.reports nofun nofun
      · exact raises_of_resolve (by assumption)
    · exact ih (by assumption)

/-! ## Terms -/

theorem yields_of_resolveTerm {term : Term} (hitems : ∀ item ∈ items, scope.Yields terms item.expr)
    (hterm : term ∈ terms) (h : scope.resolveTerm items i term = .ok e') : scope.Yields terms e' := by
  unfold resolveTerm at h
  split at h
  · split at h <;> cases h
    rename_i item hitem
    split at hitem
    · exact hitems item (List.mem_of_getElem? hitem)
    · cases hitem
  · split at h
    · rename_i item hitem
      cases h
      exact hitems item (List.mem_of_find?_eq_some hitem)
    · exact .inr ⟨_, hterm, h⟩
  · exact .inr ⟨_, hterm, h⟩

theorem raises_of_resolveTerm {term : Term} (h : scope.resolveTerm items i term = .error x) : R.raises x := by
  unfold resolveTerm at h
  split at h
  · split at h <;> cases h
    exact R.reports nofun nofun
  · split at h
    · cases h
    · exact raises_of_resolve h
  · exact raises_of_resolve h

theorem resolveTerm_of_groupTerms {es : List Resolved} (h : scope.groupTerms items i terms = .ok es) :
    List.Forall₂ (fun t e => (∃ i, scope.resolveTerm items i t = .ok e) ∧ e.containsAggregate = false) terms es := by
  induction terms generalizing i es with
  | nil =>
    cases h
    exact .nil
  | cons term terms ih =>
    unfold groupTerms at h
    repeat' split at h
    all_goals cases h
    rename_i e hresolve _ hplain _ es hrest
    exact .cons ⟨⟨i, hresolve⟩, rejectAggregates_ok hplain⟩ (ih hrest)

theorem raises_of_groupTerms
    (hterms : ∀ i, ∀ t ∈ terms, ∀ e, scope.resolveTerm items i t = .ok e → R.Excuses e.containsAggregate)
    (h : scope.groupTerms items i terms = .error x) : R.raises x := by
  induction terms generalizing i with
  | nil => cases h
  | cons term terms ih =>
    unfold groupTerms at h
    repeat' split at h
    all_goals cases h
    · exact raises_of_resolveTerm (by assumption)
    · rename_i hresolve _ hcalls
      exact raises_of_rejectAggregates (hterms i term List.mem_cons_self _ hresolve) hcalls
    · exact ih (fun i t ht => hterms i t (List.mem_cons_of_mem _ ht)) (by assumption)

theorem resolveTerm_of_orderTerms {terms : List OrderingTerm} {es : List (Resolved × Direction)}
    (h : scope.orderTerms items i terms = .ok es) :
    List.Forall₂ (fun t e => ∃ i, scope.resolveTerm items i t.expr = .ok e.1) terms es := by
  induction terms generalizing i es with
  | nil =>
    cases h
    exact .nil
  | cons term terms ih =>
    unfold orderTerms at h
    repeat' split at h
    all_goals cases h
    exact .cons ⟨i, by assumption⟩ (ih (by assumption))

theorem raises_of_orderTerms {terms : List OrderingTerm} (h : scope.orderTerms items i terms = .error x) :
    R.raises x := by
  induction terms generalizing i with
  | nil => cases h
  | cons term terms ih =>
    unfold orderTerms at h
    repeat' split at h
    all_goals cases h
    · exact raises_of_resolveTerm (by assumption)
    · exact ih (by assumption)

theorem refs_resolve_nil (h : Scope.resolve [] e = .ok e') (he : e.Named) : e'.refs = [] := by
  rw [List.eq_nil_iff_forall_not_mem]
  intro q hq
  exact List.not_mem_nil (cursor_resolve h he q hq)

/-- LIMIT and OFFSET see no table and call no aggregate. -/
theorem plainly_of_resolveLimit {clause : Option LimitClause} {limit offset : Option Resolved}
    (h : resolveLimit clause = .ok (limit, offset)) :
    List.Forall₂ (Plainly []) (clause.toList.flatMap (·.terms)) (limit.toList ++ offset.toList) := by
  unfold resolveLimit at h
  repeat' split at h
  all_goals cases h
  · exact .nil
  · rename_i hlimit _ hoffset
    simpa [LimitClause.terms] using ⟨plainly_of_resolvePlain hlimit, plainly_of_resolvePlain? hoffset⟩

theorem raises_of_resolveLimit {clause : Option LimitClause} (hclause : R.Excuses (clause.any (·.misuses)))
    (h : resolveLimit clause = .error x) : R.raises x := by
  unfold resolveLimit at h
  repeat' split at h
  all_goals cases h
  · exact raises_of_resolvePlain hclause.of_or.1 (by assumption)
  · exact raises_of_resolvePlain? hclause.of_or.2 (by assumption)

theorem refs_resolveLimit {clause : Option LimitClause} {limit offset : Option Resolved}
    (h : resolveLimit clause = .ok (limit, offset))
    (hclause : ∀ c, clause = some c → c.limit.Named ∧ ∀ e, c.offset = some e → e.Named) :
    (∀ e, limit = some e → e.refs = []) ∧ ∀ e, offset = some e → e.refs = [] := by
  have hall : ∀ e ∈ limit.toList ++ offset.toList, e.refs = [] := by
    intro e he
    obtain ⟨term, hterm, hresolve, -⟩ := (exists_of_forall₂ (plainly_of_resolveLimit h)).2 e he
    obtain ⟨c, hc, hterm⟩ := List.mem_flatMap.mp hterm
    obtain ⟨hlimit, hoffset⟩ := hclause c (Option.mem_toList.mp hc)
    rcases List.mem_cons.mp hterm with rfl | hterm
    · exact refs_resolve_nil hresolve hlimit
    · exact refs_resolve_nil hresolve (hoffset term (Option.mem_toList.mp hterm))
  exact ⟨fun e he => hall e (by simp [he]), fun e he => hall e (by simp [he])⟩

/-! ## Plans -/

/-- What a selection is planned to. -/
theorem plan_gives {p : Plan} (h : scope.plan s orderBy limit = .ok p) :
    ∃ items, scope.expandAll s.columns = .ok items ∧ p.projection = items.map (·.expr) ∧
      scope.resolvePlain? s.filter = .ok p.filter ∧ scope.groupTerms items 0 s.groupBy = .ok p.groupBy ∧
      scope.resolve? s.having = .ok p.having ∧ scope.orderTerms items 0 orderBy = .ok p.orderBy ∧
      resolveLimit limit = .ok (p.limit, p.offset) ∧ p.distinct = s.distinct ∧
      p.sources = scope.map fun t => ⟨t.cursor, some (t.table.root, t.table.name)⟩ := by
  simp only [Scope.plan, bind_eq_ok] at h
  obtain ⟨items, hitems, filter, hfilter, groupBy, hgroupBy, having, hhaving, order, horder,
    ⟨limit', offset⟩, hlimit, hcheck⟩ := h
  unfold Plan.checkHaving at hcheck
  split at hcheck
  · cases hcheck
  · cases hcheck
    exact ⟨items, hitems, rfl, hfilter, hgroupBy, hhaving, horder, hlimit, rfl, rfl⟩

theorem plan_names {p : Plan} (h : scope.plan s orderBy limit = .ok p) : p.names.length = p.projection.length := by
  simp only [plan, bind_eq_ok] at h
  obtain ⟨items, -, filter, -, groupBy, -, having, -, order, -, ⟨limit', offset⟩, -, hcheck⟩ := h
  unfold Plan.checkHaving at hcheck
  split at hcheck
  · cases hcheck
  · cases hcheck
    simp only [List.length_map]

theorem plan_cursors {p : Plan} (h : scope.plan s orderBy limit = .ok p) : p.cursors = scope.cursors := by
  obtain ⟨-, -, -, -, -, -, -, -, -, hsources⟩ := plan_gives h
  rw [Plan.cursors, hsources, List.map_map]
  rfl

/-- **Where the expressions of a plan come from.** -/
theorem yields_of_plan {p : Plan} (h : scope.plan s orderBy limit = .ok p) :
    ∀ e ∈ p.exprs, scope.Yields (s.terms ++ orderBy.map (·.expr)) e := by
  obtain ⟨items, hitems, hprojection, hfilter, hgroupBy, hhaving, horderBy, -⟩ := plan_gives h
  have hall : ∀ item ∈ items, scope.Yields (s.terms ++ orderBy.map (·.expr)) item.expr := fun item hitem =>
    (yields_of_expandAll hitems item hitem).mono fun term hterm => by simp [Selection.terms, hterm]
  intro e he
  simp only [Plan.exprs, List.mem_append] at he
  rcases he with (((he | he) | he) | he) | he
  · rw [hprojection] at he
    obtain ⟨item, hitem, rfl⟩ := List.mem_map.mp he
    exact hall item hitem
  · obtain ⟨term, hterm, hresolve, -⟩ := exists_of_resolvePlain? hfilter e (Option.mem_toList.mp he)
    exact .inr ⟨term, by simp [Selection.terms, Option.mem_def.mp hterm], hresolve⟩
  · obtain ⟨term, hterm, ⟨i, hresolve⟩, -⟩ := (exists_of_forall₂ (resolveTerm_of_groupTerms hgroupBy)).2 e he
    exact yields_of_resolveTerm hall (by simp [Selection.terms, hterm]) hresolve
  · obtain ⟨term, hterm, hresolve⟩ := (exists_of_forall₂ (resolve_of_resolve? hhaving)).2 e he
    exact .inr ⟨term, by simp [Selection.terms, Option.mem_toList.mp hterm], hresolve⟩
  · obtain ⟨pair, hpair, rfl⟩ := List.mem_map.mp he
    obtain ⟨term, hterm, i, hresolve⟩ := (exists_of_forall₂ (resolveTerm_of_orderTerms horderBy)).2 pair hpair
    exact yields_of_resolveTerm hall (List.mem_append_right _ (List.mem_map_of_mem hterm)) hresolve

/-- Planning fails for a name, or for a call where none may stand. -/
theorem raises_of_plan
    (hfilter : R.Excuses (s.filter.any (·.containsAggregate))) (hlimit : R.Excuses (limit.any (·.misuses)))
    (hgroup : ∀ items, scope.expandAll s.columns = .ok items → ∀ i, ∀ t ∈ s.groupBy, ∀ e,
      scope.resolveTerm items i t = .ok e → R.Excuses e.containsAggregate)
    (h : scope.plan s orderBy limit = .error x) : R.raises x := by
  simp only [plan, bind_eq_error] at h
  rcases h with h | ⟨items, hitems, h | ⟨_, -, h | ⟨_, -, h | ⟨_, -, h | ⟨_, -, h | ⟨_, -, h⟩⟩⟩⟩⟩⟩
  · exact raises_of_expandAll h
  · exact raises_of_resolvePlain? hfilter h
  · exact raises_of_groupTerms (hgroup items hitems) h
  · exact raises_of_resolve? h
  · exact raises_of_orderTerms h
  · exact raises_of_resolveLimit hlimit h
  · unfold Plan.checkHaving at h
    split at h <;> cases h
    exact R.reports nofun nofun

/-- **The plan of a named selection is scoped.** -/
theorem plan_scoped {p : Plan} (h : scope.plan s orderBy limit = .ok p) (hs : s.Named)
    (horder : ∀ term ∈ orderBy, term.expr.Named)
    (hlimit : ∀ clause, limit = some clause → clause.limit.Named ∧ ∀ e, clause.offset = some e → e.Named)
    (hnodup : scope.cursors.Nodup) : p.Scoped := by
  obtain ⟨-, -, -, -, -, -, -, hlimits, -, -⟩ := plan_gives h
  have hcursors := plan_cursors h
  obtain ⟨hlimits, hoffsets⟩ := refs_resolveLimit hlimits hlimit
  refine ⟨hcursors ▸ hnodup, fun e he => hcursors ▸ (yields_of_plan h e he).cursor ?_, hlimits, hoffsets⟩
  exact List.forall_mem_append.mpr ⟨hs.terms, List.forall_mem_map.mpr horder⟩

/-! ## Scopes of selections -/

/-- The tables, with consecutive cursors. -/
def ranging (schema : Schema) : (cursor : Int) → List TableRef → Except Error Scope
  | _, [] => .ok []
  | cursor, t :: tables => do
    let table ← schema.lookup t.name
    let scope ← ranging schema (cursor + 1) tables
    pure (⟨table, t.visibleName, cursor⟩ :: scope)

/-- Opening a scope hands out cursors and does nothing else. -/
theorem openScope_gives {scope : Scope} :
    (openScope schema tables).Gives b scope b' ↔ ranging schema b.cursors tables = .ok scope ∧
      b' = { b with cursors := b.cursors + tables.length } := by
  induction tables generalizing b b' scope with
  | nil =>
    simp only [openScope, gives_pure, ranging, Except.ok.injEq, List.length_nil, Int.natCast_zero,
      Int.add_zero]
    exact and_congr_left fun _ => eq_comm
  | cons t tables ih =>
    simp only [openScope, gives_bind, gives_check, gives_newCursor, gives_pure, ih, ranging, bind_eq_ok]
    simp only [pure, Except.pure, Except.ok.injEq]
    constructor
    · rintro ⟨table, b1, ⟨htable, rfl⟩, cursor, b2, ⟨rfl, rfl⟩, rest, b3, ⟨hrest, rfl⟩, rfl, rfl⟩
      refine ⟨⟨table, htable, rest, hrest, rfl⟩, ?_⟩
      simp only [Builder.newCursor, List.length_cons]
      congr 1
      omega
    · rintro ⟨⟨table, htable, rest, hrest, rfl⟩, rfl⟩
      refine ⟨table, b, ⟨htable, rfl⟩, b.cursors, b.newCursor.2, ⟨rfl, rfl⟩, rest, _, ⟨hrest, rfl⟩,
        rfl, ?_⟩
      simp only [Builder.newCursor, List.length_cons]
      congr 1
      omega

theorem planSelection_gives {p : Plan} (h : (planSelection schema s orderBy limit).Gives b p b') :
    ∃ scope, ranging schema b.cursors s.tables = .ok scope ∧ scope.plan s orderBy limit = .ok p ∧
      b' = { b with cursors := b.cursors + s.tables.length } := by
  simp only [planSelection, gives_bind, gives_check, openScope_gives] at h
  obtain ⟨scope, b1, ⟨hover, rfl⟩, hplan, rfl⟩ := h
  exact ⟨scope, hover, hplan, rfl⟩

/-- Every table in scope is one that the schema has under a name that was asked for. -/
theorem lookup_of_over {cursor : Int} {scope : Scope} (h : ranging schema cursor tables = .ok scope) :
    ∀ t ∈ scope, ∃ ref ∈ tables, schema.lookup ref.name = .ok t.table := by
  induction tables generalizing cursor scope with
  | nil =>
    cases h
    intro t ht
    exact (List.not_mem_nil ht).elim
  | cons first tables ih =>
    simp only [ranging, bind_eq_ok, pure, Except.pure, Except.ok.injEq] at h
    obtain ⟨table, htable, rest, hrest, rfl⟩ := h
    intro t ht
    rcases List.mem_cons.mp ht with rfl | ht
    · exact ⟨first, List.mem_cons_self, htable⟩
    · obtain ⟨ref, hin, href⟩ := ih hrest t ht
      exact ⟨ref, List.mem_cons_of_mem _ hin, href⟩

theorem cursors_over {cursor : Int} {scope : Scope} (h : ranging schema cursor tables = .ok scope) :
    scope.cursors.Nodup ∧ ∀ k ∈ scope.cursors, cursor ≤ k ∧ k < cursor + tables.length := by
  induction tables generalizing cursor scope with
  | nil =>
    cases h
    exact ⟨List.nodup_nil, fun k hk => (List.not_mem_nil hk).elim⟩
  | cons t tables ih =>
    simp only [ranging, bind_eq_ok, pure, Except.pure, Except.ok.injEq] at h
    obtain ⟨table, -, rest, hrest, rfl⟩ := h
    obtain ⟨hnodup, hrange⟩ := ih hrest
    constructor
    · refine List.nodup_cons.mpr ⟨fun hin => ?_, hnodup⟩
      have := (hrange cursor hin).1
      omega
    · intro k hk
      simp only [List.length_cons]
      rcases List.mem_cons.mp hk with hk | hk
      · have hk : k = cursor := hk
        omega
      · have := hrange k hk
        omega

end Scope

/-! ## Entries of the result list -/

/-- The number of columns of a table that a query names. -/
def Schema.arity (schema : Schema) (t : TableRef) : Nat :=
  match schema.lookup t.name with
  | .ok table => table.columns.length
  | .error _ => 0

/-- The new name of an entry of the result list, and whether it calls an aggregate. -/
def ResultItem.profile (i : ResultItem) : Option String × Bool := (i.newName, i.expr.containsAggregate)

namespace Selection

variable (schema : Schema) (s : Selection)

/-- What a result column stands for: a term and its new name, or the columns of a wildcard. -/
def entries : ResultColumn → List (Option (Term × Option String))
  | .star => List.replicate (s.tables.map schema.arity).sum none
  | .tableStar name => List.replicate ((s.tables.find? (·.visibleName == name)).elim 0 schema.arity) none
  | .term e newName => [some (e, newName)]

/-- The new name of an entry of the result list, and whether it calls an aggregate. -/
def profile (entry : Option (Term × Option String)) : Option String × Bool :=
  (entry.bind (·.2), (entry.map (·.1)).any (·.containsAggregate))

end Selection

namespace Scope

variable {scope : Scope} {schema : Schema} {s : Selection} {items : List ResultItem}

theorem widths_of_ranging {cursor : Int} {tables : List TableRef} (h : ranging schema cursor tables = .ok scope) :
    scope.map (fun t => (t.visibleName, t.table.columns.length)) = tables.map fun r => (r.visibleName, schema.arity r) := by
  induction tables generalizing cursor scope with
  | nil =>
    cases h
    rfl
  | cons t tables ih =>
    simp only [ranging, bind_eq_ok, pure, Except.pure, Except.ok.injEq] at h
    obtain ⟨table, htable, rest, hrest, rfl⟩ := h
    simp [ih hrest, Schema.arity, htable]

theorem profile_items (t : ScopeTable) (nameOf : String → String) :
    (t.items nameOf).map (·.profile) = List.replicate t.table.columns.length (none, false) := by
  rw [List.eq_replicate_iff]
  simp only [ScopeTable.items, List.map_map, List.length_map, List.length_zipIdx, List.mem_map, true_and]
  rintro _ ⟨_, -, rfl⟩
  rfl

section

variable (hwidths : scope.map (fun t => (t.visibleName, t.table.columns.length)) =
    s.tables.map fun r => (r.visibleName, schema.arity r))

include hwidths

theorem profile_expand {column : ResultColumn} (h : scope.expand column = .ok items) :
    items.map (·.profile) = (s.entries schema column).map Selection.profile := by
  cases column with
  | star =>
    simp only [expand] at h
    split at h <;> cases h
    have hsum := congrArg (fun l : List (String × Nat) => (l.map (·.2)).sum) hwidths
    simp only [List.map_map, Function.comp_def] at hsum
    rw [Selection.entries, List.map_replicate, List.map_flatMap, ← hsum]
    simp only [profile_items]
    rw [List.eq_replicate_iff]
    exact ⟨by simp [List.length_flatMap], by simp [Selection.profile]⟩
  | tableStar name =>
    simp only [expand] at h
    split at h <;> cases h
    rename_i t ht
    rw [profile_items, Selection.entries, List.map_replicate]
    have hfind := congrArg (List.find? fun p => p.1 == name) hwidths
    simp only [List.find?_map, Function.comp_def] at hfind
    rw [show List.find? (fun t : ScopeTable => t.visibleName == name) scope = some t from ht] at hfind
    cases href : s.tables.find? (·.visibleName == name) with
    | none => simp [href] at hfind
    | some r =>
      simp only [href, Option.map_some, Option.some.injEq, Prod.mk.injEq] at hfind
      rw [Option.elim_some, hfind.2]
      rfl
  | term e newName =>
    simp only [expand] at h
    split at h <;> cases h
    simp [ResultItem.profile, Selection.entries, Selection.profile, Expr.containsAggregate_of_traverse (by assumption)]

theorem profile_expandAll {columns : List ResultColumn} (h : scope.expandAll columns = .ok items) :
    items.map (·.profile) = (columns.flatMap (s.entries schema)).map Selection.profile := by
  induction columns generalizing items with
  | nil =>
    cases h
    rfl
  | cons column columns ih =>
    unfold expandAll at h
    repeat' split at h
    all_goals cases h
    simp only [List.map_append, List.flatMap_cons, ih (by assumption), profile_expand hwidths (by assumption)]

end

end Scope

/-! ## Plans of queries -/

/-- The plan of the first selection of a query, with the query's ORDER BY and LIMIT. -/
def Schema.plan (schema : Schema) (q : Query) : Except Error Plan := do
  let scope ← Scope.ranging schema 0 q.first.tables
  scope.plan q.first q.orderBy q.limit

namespace Schema

variable {schema : Schema} {q : Query} {p : Plan}

theorem plan_scoped (h : schema.plan q = .ok p) (hq : q.Named) : p.Scoped := by
  obtain ⟨scope, hover, hplan⟩ := bind_eq_ok.mp h
  exact Scope.plan_scoped hplan hq.first hq.orderBy hq.limit (Scope.cursors_over hover).1

theorem lookup_of_plan (h : schema.plan q = .ok p) :
    ∀ source ∈ p.sources, ∃ ref ∈ q.first.tables, ∃ table, schema.lookup ref.name = .ok table ∧
      source.table = some (table.root, table.name) := by
  obtain ⟨scope, hover, hplan⟩ := bind_eq_ok.mp h
  obtain ⟨-, -, -, -, -, -, -, -, -, hsources⟩ := Scope.plan_gives hplan
  intro source hin
  rw [hsources] at hin
  obtain ⟨t, ht, rfl⟩ := List.mem_map.mp hin
  obtain ⟨ref, href, hlookup⟩ := Scope.lookup_of_over hover t ht
  exact ⟨ref, href, t.table, hlookup, rfl⟩

/-- Planning in a builder that has handed out no cursor. -/
theorem planSelection_gives {b b' : Builder} (hb : b.cursors = 0)
    (h : (planSelection schema q.first q.orderBy q.limit).Gives b p b') :
    schema.plan q = .ok p ∧ (∀ k ∈ p.cursors, k < b'.cursors) ∧
      b' = { b with cursors := (q.first.tables.length : Int) } := by
  obtain ⟨scope, hover, hplan, rfl⟩ := Scope.planSelection_gives h
  rw [hb] at hover
  refine ⟨bind_eq_ok.mpr ⟨scope, hover, hplan⟩, ?_, ?_⟩
  · intro k hk
    rw [Scope.plan_cursors hplan] at hk
    show k < b.cursors + _
    rw [hb]
    exact ((Scope.cursors_over hover).2 k hk).2
  · simp only [hb, Int.zero_add]

end Schema

end QueryMachine
