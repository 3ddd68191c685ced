import QueryMachine.Proofs.Compile.Calls
import QueryMachine.Proofs.Query.Validation

/-!
# Statements over names

A statement whose references are names, as a parser makes them, reads the tables it names and nothing else:
every place in what it is resolved to belongs to the cursor of one of them.

* `Statement.Named` — every reference is a name.
* `Query.Plans` — the plans of the selections of a query.
* `Insertion.refs_of_validate`, `Change.cursor_of_validate` — what the values of a statement read.
* `Scope.projection_ne_nil` — a result list that is not empty has result columns.
-/

namespace QueryMachine

/-- Every reference of a statement is a column name. -/
def Statement.Named : Statement → Prop
  | .select q => q.Named
  | .insert i => ∀ row ∈ i.rows, ∀ e ∈ row, e.Named
  | .update c => (∀ e ∈ c.values, e.Named) ∧ ∀ e, c.filter = some e → e.Named
  | .delete d => ∀ e, d.filter = some e → e.Named
  | .createTable _ | .createIndex _ => True

/-- A plan of a selection of the query, over cursors from some number on. ORDER BY and LIMIT belong to the
only selection, if there is one only. -/
inductive Query.Plans (schema : Schema) (q : Query) (p : Plan) : Prop
  | alone (cursor : Int) (scope : Scope) (harms : q.arms = [])
      (hover : Scope.ranging schema cursor q.first.tables = .ok scope)
      (hplan : scope.plan q.first q.orderBy q.limit = .ok p)
  | joined (s : Selection) (cursor : Int) (scope : Scope) (hs : s ∈ q.first :: q.arms.map (·.2))
      (hover : Scope.ranging schema cursor s.tables = .ok scope) (hplan : scope.plan s [] none = .ok p)

/-- No result list is empty. -/
def Statement.Projects : Statement → Prop
  | .select q => ∀ s ∈ q.first :: q.arms.map (·.2), s.columns ≠ []
  | _ => True

/-- HAVING reads what a group has, however it is taken apart. -/
def Statement.HavingBound (schema : Schema) : Statement → Prop
  | .select q => ∀ p, q.Plans schema p → p.HavingBound
  | _ => True

variable {schema : Schema}

/-! ## Values -/

/-- The values of an INSERT read nothing. -/
theorem Insertion.refs_of_validate {i : Insertion} {table : Table} {values : List (List (Nat × Resolved))}
    (h : i.validate schema = .ok (table, values)) (hrows : ∀ row ∈ i.rows, ∀ e ∈ row, e.Named) :
    ∀ row ∈ values, ∀ v ∈ row, v.2.refs = [] := by
  intro row hrow v hv
  obtain ⟨terms, hterms, term, hterm, hresolve⟩ := values_of_validate h row hrow v hv
  exact Scope.refs_resolve_nil hresolve (hrows terms hterms term hterm)

/-- An UPDATE reads the row that it changes. -/
theorem Change.cursor_of_validate {c : Change} {r : Resolution} (h : c.validate schema = .ok r)
    (hvalues : ∀ e ∈ c.values, e.Named) (hfilter : ∀ e, c.filter = some e → e.Named) :
    (∀ a ∈ r.assignments, ∀ q ∈ a.2.refs, q.cursor = tableCursor) ∧
      ∀ e, r.filter = some e → ∀ q ∈ e.refs, q.cursor = tableCursor := by
  obtain ⟨-, -, -, hresolved⟩ := parts_of_validate h
  refine ⟨fun a ha q hq => ?_, fun e he q hq => ?_⟩
  · obtain ⟨term, hterm, hresolve, -⟩ := assigned_of_validate h a ha
    exact List.mem_singleton.mp (Scope.cursor_resolve hresolve (hvalues term hterm) q hq)
  · obtain ⟨term, hterm, hresolve, -⟩ := Scope.exists_of_resolvePlain? hresolved e he
    exact List.mem_singleton.mp (Scope.cursor_resolve hresolve (hfilter term hterm) q hq)

theorem Deletion.cursor_of_filter {d : Deletion} {table : Table} {e : Resolved}
    (h : (Scope.single table 0).resolvePlain? d.filter = .ok (some e))
    (hfilter : ∀ e, d.filter = some e → e.Named) : ∀ q ∈ e.refs, q.cursor = 0 := by
  obtain ⟨term, hterm, hresolve, -⟩ := Scope.exists_of_resolvePlain? h e rfl
  exact fun q hq => List.mem_singleton.mp (Scope.cursor_resolve hresolve (hfilter term hterm) q hq)

theorem isSome_of_resolveLimit {clause : Option LimitClause} {limit offset : Option Resolved} {e : Resolved}
    (h : resolveLimit clause = .ok (limit, offset)) (he : limit = some e ∨ offset = some e) : clause.isSome = true := by
  cases clause with
  | some c => rfl
  | none =>
    cases h
    rcases he with he | he <;> cases he

/-! ## Result columns -/

namespace Scope

variable {scope : Scope}

theorem items_ne_nil {t : ScopeTable} (h : t.table.columns ≠ []) (nameOf : String → String) : t.items nameOf ≠ [] := by
  simpa [ScopeTable.items] using h

theorem expand_ne_nil {column : ResultColumn} {items : List ResultItem}
    (h : scope.expand column = .ok items) (htables : ∀ t ∈ scope, t.table.columns ≠ []) : items ≠ [] := by
  unfold expand at h
  split at h
  · split at h
    · cases h
    · rename_i hscope
      cases h
      cases scope with
      | nil => exact absurd rfl hscope
      | cons t rest => exact List.append_ne_nil_of_left_ne_nil (items_ne_nil (htables t (.head _)) _) _
  · split at h
    · rename_i t ht
      cases h
      exact items_ne_nil (htables t (List.mem_of_find?_eq_some ht)) id
    · cases h
  · split at h
    · cases h
      exact List.cons_ne_nil _ _
    · cases h

/-- A result list that is not empty has result columns. -/
theorem projection_ne_nil {s : Selection} {orderBy : List OrderingTerm} {limit : Option LimitClause} {p : Plan}
    (h : scope.plan s orderBy limit = .ok p) (hs : s.columns ≠ [])
    (htables : ∀ t ∈ scope, t.table.columns ≠ []) : p.projection ≠ [] := by
  obtain ⟨items, hitems, hprojection, -⟩ := plan_gives h
  obtain ⟨column, columns, hcolumns⟩ := List.exists_cons_of_ne_nil hs
  rw [hcolumns] at hitems
  unfold expandAll at hitems
  repeat' split at hitems
  all_goals cases hitems
  intro hnil
  have happend := List.map_eq_nil_iff.mp (hprojection.symm.trans hnil)
  exact expand_ne_nil (by assumption) htables (List.append_eq_nil_iff.mp happend).1

end Scope

end QueryMachine
