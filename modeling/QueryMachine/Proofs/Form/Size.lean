import QueryMachine.Proofs.Query.Resolution

/-!
# Statements of a size that operands can hold

An operand has 32 bits and the number of arguments of a call has eight. A statement is `Sized` when
its literals, positions and calls fit; planning it keeps that, and refuses only what is wrong with the
statement itself.

* `Expr.Sized`, `Table.Sized`, `Statement.Sized` — what fits.
* `Scope.plan_sized` — a plan of a sized selection is sized, and has a name for every result column.
-/

namespace QueryMachine

/-! ## Errors -/

/-- The error is not one that the compiler reports about itself. -/
def Error.Ordinary (e : Error) : Prop := ∀ detail, e ≠ .internal detail

/-- The answer has the property, or is an ordinary error. -/
def Except.Ends {α : Type} (r : Except Error α) (P : α → Prop) : Prop :=
  match r with
  | .ok a => P a
  | .error e => e.Ordinary

namespace Except.Ends

variable {α β : Type} {r : Except Error α} {P P' : α → Prop}

theorem bind {f : α → Except Error β} {Q : β → Prop} (h : Ends r P)
    (k : ∀ a, P a → Ends (f a) Q) : Ends (r >>= f) Q := by
  cases r with
  | ok a => exact k a h
  | error e => exact h

theorem of (hok : ∀ a, r = .ok a → P a) (herror : ∀ e, r = .error e → e.Ordinary) : Ends r P := by
  cases r with
  | ok a => exact hok a rfl
  | error e => exact herror e rfl

theorem mono (h : Ends r P) (k : ∀ a, P a → P' a) : Ends r P' := by
  cases r with
  | ok a => exact k a h
  | error e => exact h

theorem ok {a : α} (h : Ends r P) (hr : r = .ok a) : P a := by
  subst hr
  exact h

theorem error {e : Error} (h : Ends r P) (hr : r = .error e) : e.Ordinary := by
  subst hr
  exact h

end Except.Ends

/-! ## Expressions -/

/-- Lengths and positions are below this number. -/
def sizeLimit : Nat := 0x80000000

/-- A blob has a length that an operand can hold. -/
def Value.Sized : Value → Prop
  | .blob bytes => bytes.length < sizeLimit
  | _ => True

/-- A field has a position that an operand can hold. -/
def Place.Sized : Place → Prop
  | .field _ index => index < sizeLimit
  | .rowid _ => True

def Name.Sized : Name → Prop
  | .place p => p.Sized
  | .column .. => True

namespace Expr

variable {ρ σ : Type}

mutual

/-- Literals and references have a size that operands can hold, and no call has more than 255
arguments. -/
def Sized (R : ρ → Prop) : Expr ρ → Prop
  | .ref r => R r
  | .lit v => v.Sized
  | .binary _ left right => left.Sized R ∧ right.Sized R
  | .aggregate _ args => args.length < 256 ∧ SizedAll R args

/-- Every expression of a list is sized. -/
def SizedAll (R : ρ → Prop) : List (Expr ρ) → Prop
  | [] => True
  | e :: es => e.Sized R ∧ SizedAll R es

end

theorem sizedAll_iff {R : ρ → Prop} : ∀ {es : List (Expr ρ)}, SizedAll R es ↔ ∀ e ∈ es, e.Sized R := by
  intro es
  induction es with
  | nil => simp [SizedAll]
  | cons e es ih => simp [SizedAll, ih]

/-- A traversal keeps the sizes. -/
theorem Sized.traverse {R : ρ → Prop} {R' : σ → Prop} {f : ρ → Except Error σ}
    (hf : ∀ {r s}, R r → f r = .ok s → R' s) {e : Expr ρ} {e' : Expr σ} (he : e.Sized R) (h : e.traverse f = .ok e') :
    e'.Sized R' := by
  have hform : Mirrors f fun e e' => e.Sized R → e'.Sized R' := by
    refine ⟨fun hr he => hf he hr, id, fun hl hr he => ⟨hl he.1, hr he.2⟩, fun hargs he => ⟨hargs.length_eq ▸ he.1, ?_⟩⟩
    refine sizedAll_iff.mpr fun arg' harg' => ?_
    obtain ⟨arg, harg, -, hsized⟩ := (exists_of_forall₂ hargs).2 arg' harg'
    exact hsized (sizedAll_iff.mp he.2 arg harg)
  exact hform.traverse h he

mutual

theorem Sized.refs {R : ρ → Prop} : ∀ {e : Expr ρ}, e.Sized R → ∀ r ∈ e.refs, R r
  | .ref _, h, _, hr => List.mem_singleton.mp hr ▸ h
  | .binary _ _ _, h, r, hr => (List.mem_append.mp hr).elim (h.1.refs r) (h.2.refs r)
  | .aggregate _ _, h, r, hr => SizedAll.refs h.2 r hr

theorem SizedAll.refs {R : ρ → Prop} : ∀ {es : List (Expr ρ)}, SizedAll R es → ∀ r ∈ refsAll es, R r
  | _ :: _, h, r, hr => (List.mem_append.mp hr).elim (h.1.refs r) (SizedAll.refs h.2 r)

end

/-- The terms of a conjunction are sized when it is. -/
theorem Sized.conjuncts {R : ρ → Prop} {e : Expr ρ} (h : e.Sized R) : ∀ c ∈ e.conjuncts, c.Sized R := by
  fun_induction Expr.conjuncts e with
  | case1 left right ihl ihr =>
    intro c hc
    rcases List.mem_append.mp hc with hc | hc
    · exact ihl h.1 c hc
    · exact ihr h.2 c hc
  | case2 e _ =>
    intro c hc
    rw [List.mem_singleton.mp hc]
    exact h

end Expr

/-! ## Schemas and statements -/

/-- The columns can be counted in an operand, and their defaults loaded. -/
structure Table.Sized (t : Table) : Prop where
  columns : t.columns.length < sizeLimit
  defaults : ∀ c ∈ t.columns, ∀ v, c.default = some v → v.Sized

/-- Every table is sized. -/
def Schema.Sized (s : Schema) : Prop := ∀ t ∈ s, t.Sized

/-- A term as written is sized. -/
abbrev Expr.SizedTerm (e : Term) : Prop := e.Sized Name.Sized

/-- An expression over places is sized. -/
abbrev Expr.SizedPlaces (e : Resolved) : Prop := e.Sized Place.Sized

def ResultColumn.Sized : ResultColumn → Prop
  | .term e _ => e.SizedTerm
  | _ => True

/-- How many columns the table of a name has. -/
def Schema.width (schema : Schema) (name : String) : Nat :=
  match schema.lookup name with
  | .ok t => t.columns.length
  | .error _ => 0

/-- How many result columns an entry of the result list stands for. -/
def ResultColumn.width (schema : Schema) (tables : List TableRef) : ResultColumn → Nat
  | .star => (tables.map fun t => schema.width t.name).sum
  | .tableStar name =>
    ((tables.find? fun t => t.visibleName == name).map fun t => schema.width t.name).getD 0
  | .term .. => 1

/-- How many result columns a selection has. -/
def Selection.width (schema : Schema) (s : Selection) : Nat :=
  (s.columns.map (·.width schema s.tables)).sum

structure Selection.Sized (schema : Schema) (s : Selection) : Prop where
  width : s.width schema < sizeLimit
  columns : ∀ c ∈ s.columns, c.Sized
  filter : ∀ e ∈ s.filter, e.SizedTerm
  groupBy : ∀ e ∈ s.groupBy, e.SizedTerm
  having : ∀ e ∈ s.having, e.SizedTerm

theorem Selection.Sized.terms {schema : Schema} {s : Selection} (h : s.Sized schema) : ∀ e ∈ s.terms, e.SizedTerm := by
  refine forall_mem_terms (fun c hc e he => ?_) h.filter h.groupBy h.having
  cases c with
  | term _ _ =>
    cases he
    exact h.columns _ hc
  | star | tableStar => cases he

structure LimitClause.Sized (l : LimitClause) : Prop where
  limit : l.limit.SizedTerm
  offset : ∀ e ∈ l.offset, e.SizedTerm

structure Query.Sized (schema : Schema) (q : Query) : Prop where
  first : q.first.Sized schema
  arms : ∀ arm ∈ q.arms, arm.2.Sized schema
  orderBy : ∀ term ∈ q.orderBy, term.expr.SizedTerm
  limit : ∀ l ∈ q.limit, l.Sized

/-- Everything in the statement fits into operands. -/
def Statement.Sized (schema : Schema) : Statement → Prop
  | select q => q.Sized schema
  | insert i => ∀ row ∈ i.rows, ∀ e ∈ row, e.SizedTerm
  | update c => (∀ e ∈ c.values, e.SizedTerm) ∧ ∀ e ∈ c.filter, e.SizedTerm
  | delete d => ∀ e ∈ d.filter, e.SizedTerm
  | createTable _ => True
  | createIndex _ => True

/-! ## Names -/

/-- Every table in the scope is sized. -/
def Scope.Sized (scope : Scope) : Prop := ∀ s ∈ scope, s.table.Sized

variable {name : String} {s : ScopeTable}

theorem Table.lt_columnIndex? {t : Table} {index : Nat} (h : t.columnIndex? name = some index) :
    index < t.columns.length :=
  (List.findIdx?_eq_some_iff_getElem.mp h).1

theorem ScopeTable.sized_place (h : s.table.Sized) {index : Nat} (hlt : index < s.table.columns.length) :
    (s.place index).Sized := by
  unfold place
  split
  · trivial
  · exact Nat.lt_trans hlt h.columns

theorem ScopeTable.sized_column? (h : s.table.Sized) {p : Place} (hp : s.column? name = some p) : p.Sized := by
  obtain ⟨index, hindex, rfl⟩ := Option.map_eq_some_iff.mp hp
  exact sized_place h (Table.lt_columnIndex? hindex)

theorem ScopeTable.sized_rowid? {p : Place} (hp : s.rowid? name = some p) : p.Sized := by
  unfold rowid? at hp
  split at hp
  · cases hp
    trivial
  · cases hp

namespace Scope

variable {scope : Scope} {schema : Schema} {cursor : Int} {tables : List TableRef} {e : Term} {e' : Resolved}

theorem sized_of_ranging (hschema : schema.Sized) (h : ranging schema cursor tables = .ok scope) : scope.Sized := by
  intro s hs
  obtain ⟨ref, -, hlookup⟩ := lookup_of_over h s hs
  exact hschema s.table (Schema.mem_of_lookup hlookup)

theorem sized_resolveName (h : scope.Sized) {n : Name} {p : Place} (hn : n.Sized) (hp : scope.resolveName n = .ok p) :
    p.Sized := by
  unfold resolveName at hp
  split at hp
  · cases hp
    exact hn
  · split at hp <;> cases hp
    rename_i hp
    unfold unqualified? at hp
    split at hp
    · rename_i found hfound
      cases hp
      obtain ⟨s, hs, hcolumn⟩ := List.exists_of_findSome?_eq_some hfound
      exact ScopeTable.sized_column? (h s hs) hcolumn
    · obtain ⟨s, -, hrowid⟩ := Option.bind_eq_some_iff.mp hp
      exact ScopeTable.sized_rowid? hrowid
  · split at hp
    · cases hp
    rename_i s hs
    split at hp <;> cases hp
    rename_i hp
    rcases Option.or_eq_some_iff.mp hp with hcolumn | ⟨-, hrowid⟩
    · exact ScopeTable.sized_column? (h s (List.mem_of_find?_eq_some hs)) hcolumn
    · exact ScopeTable.sized_rowid? hrowid

theorem sized_resolve (h : scope.Sized) (he : e.SizedTerm) (hresolve : scope.resolve e = .ok e') : e'.SizedPlaces :=
  he.traverse (sized_resolveName h) hresolve

theorem Yields.sized {terms : List Term} (h : scope.Yields terms e') (hscope : scope.Sized)
    (hterms : ∀ e ∈ terms, e.SizedTerm) : e'.SizedPlaces := by
  rcases h with ⟨s, hs, index, hindex, rfl⟩ | ⟨term, hterm, hresolve⟩
  · exact ScopeTable.sized_place (hscope s hs) hindex
  · exact sized_resolve hscope (hterms term hterm) hresolve

/-! ## Plans -/

theorem length_of_expandAll {s : Selection} {items : List ResultItem} (hscope : ranging schema cursor s.tables = .ok scope)
    (h : scope.expandAll s.columns = .ok items) : items.length = s.width schema := by
  have hprofile := congrArg List.length (profile_expandAll (widths_of_ranging hscope) h)
  rw [List.length_map, List.length_map, List.length_flatMap] at hprofile
  rw [hprofile, Selection.width]
  congr 2
  funext c
  cases c with
  | star => exact List.length_replicate
  | tableStar name =>
    rw [Selection.entries, List.length_replicate, ResultColumn.width]
    cases s.tables.find? (·.visibleName == name) <;> rfl
  | term => rfl

end Scope

theorem sized_resolveLimit {clause : Option LimitClause} {limit offset : Option Resolved}
    (h : resolveLimit clause = .ok (limit, offset)) (hclause : ∀ l ∈ clause, l.Sized) :
    ∀ e ∈ limit.toList ++ offset.toList, e.SizedPlaces := by
  have hempty : Scope.Sized [] := nofun
  intro e he
  obtain ⟨term, hterm, hresolve, -⟩ := (exists_of_forall₂ (Scope.plainly_of_resolveLimit h)).2 e he
  obtain ⟨c, hc, hterm⟩ := List.mem_flatMap.mp hterm
  have hc := hclause c (Option.mem_toList.mp hc)
  rcases List.mem_cons.mp hterm with rfl | hterm
  · exact Scope.sized_resolve hempty hc.limit hresolve
  · exact Scope.sized_resolve hempty (hc.offset term (Option.mem_toList.mp hterm)) hresolve

/-- The expressions of a plan are sized, and every result column has a name. -/
structure Plan.Sized (p : Plan) : Prop where
  projection : ∀ e ∈ p.projection, e.SizedPlaces
  width : p.projection.length < sizeLimit
  names : p.names.length = p.projection.length
  filter : ∀ e ∈ p.filter, e.SizedPlaces
  groupBy : ∀ e ∈ p.groupBy, e.SizedPlaces
  having : ∀ e ∈ p.having, e.SizedPlaces
  orderBy : ∀ e ∈ p.orderBy, e.1.SizedPlaces
  limit : ∀ e ∈ p.limit, e.SizedPlaces
  offset : ∀ e ∈ p.offset, e.SizedPlaces

/-- **The plan of a sized selection is sized**, and has as many result columns as the selection. -/
theorem Scope.plan_sized {scope : Scope} {schema : Schema} {cursor : Int} {s : Selection} {orderBy : List OrderingTerm}
    {limit : Option LimitClause} {p : Plan} (hschema : schema.Sized) (hscope : ranging schema cursor s.tables = .ok scope)
    (h : scope.plan s orderBy limit = .ok p) (hs : s.Sized schema) (horder : ∀ t ∈ orderBy, t.expr.SizedTerm)
    (hlimit : ∀ l ∈ limit, l.Sized) : p.Sized ∧ p.projection.length = s.width schema := by
  have hall : ∀ e ∈ p.exprs, e.SizedPlaces := fun e he => (yields_of_plan h e he).sized (sized_of_ranging hschema hscope)
    (List.forall_mem_append.mpr ⟨hs.terms, List.forall_mem_map.mpr horder⟩)
  obtain ⟨items, hitems, hprojection, -, -, -, -, hlimits, -⟩ := plan_gives h
  have hcounts := sized_resolveLimit hlimits hlimit
  have hwidth : p.projection.length = s.width schema := by
    rw [hprojection, List.length_map, length_of_expandAll hscope hitems]
  simp only [Plan.exprs, List.forall_mem_append, List.forall_mem_map, Option.mem_toList] at hall hcounts
  obtain ⟨⟨⟨⟨hall, hfilter⟩, hgroup⟩, hhaving⟩, horder⟩ := hall
  exact ⟨⟨hall, hwidth ▸ hs.width, plan_names h, hfilter, hgroup, hhaving, horder, hcounts.1, hcounts.2⟩, hwidth⟩

end QueryMachine
