import QueryMachine.Proofs.Query.Resolution

/-!
# What checking a statement gives

INSERT and UPDATE are checked before any code is written for them: their terms are resolved one by one. A
statement that is refused has a wrong name or a wrong number of values, or calls an aggregate where none may stand.

* `Insertion.gives_of_validate`, `Insertion.values_of_validate` — the rows of an INSERT.
* `Change.parts_of_validate`, `Change.assigned_of_validate` — the assignments of an UPDATE.
* `Insertion.raises_of_validate`, `Change.raises_of_validate` — the errors of both.
-/

namespace QueryMachine

variable {R : Rules} {schema : Schema} {table : Table} {x : Error}

/-! ## INSERT -/

/-- The values of a row: one expression for each position that is listed. -/
def Insertion.RowOf (positions : List Nat) (terms : List Term) (values : List (Nat × Resolved)) : Prop :=
  terms.length = positions.length ∧
    ∃ es, Expr.traverseAll (Scope.resolveName []) terms = .ok es ∧ values = positions.zip es

namespace Insertion

variable {i : Insertion} {positions : List Nat} {rows : List (List (Nat × Resolved))}

theorem forall₂_of_targets : ∀ {names : List String} {positions : List Nat}, targets table names = .ok positions →
    List.Forall₂ (fun name position => table.columnIndex? name = some position) names positions
  | [], _, h => by
    cases h
    exact .nil
  | _ :: _, _, h => by
    unfold targets at h
    repeat' split at h
    all_goals cases h
    exact .cons (by assumption) (forall₂_of_targets (by assumption))

theorem raises_of_targets : ∀ {names : List String}, targets table names = .error x → R.raises x
  | _ :: _, h => by
    unfold targets at h
    repeat' split at h
    all_goals cases h
    · exact R.reports nofun nofun
    · exact raises_of_targets (by assumption)

theorem forall₂_of_allRowValues : ∀ {rows : List (List Term)} {row : Nat} {values : List (List (Nat × Resolved))},
    allRowValues positions row rows = .ok values → List.Forall₂ (RowOf positions) rows values
  | [], _, _, h => by
    cases h
    exact .nil
  | _ :: _, _, _, h => by
    unfold allRowValues at h
    repeat' split at h
    all_goals cases h
    rename_i hrow _ _ hrest
    refine .cons ?_ (forall₂_of_allRowValues hrest)
    unfold rowValues at hrow
    repeat' split at hrow
    all_goals cases hrow
    exact ⟨by assumption, _, by assumption, rfl⟩

theorem raises_of_allRowValues : ∀ {rows : List (List Term)} {row : Nat},
    allRowValues positions row rows = .error x → R.raises x
  | _ :: _, _, h => by
    unfold allRowValues at h
    repeat' split at h
    all_goals cases h
    · rename_i hrow
      unfold rowValues at hrow
      repeat' split at hrow
      all_goals cases hrow
      · obtain ⟨r, hr⟩ := Expr.traverseAll_error (by assumption)
        exact Scope.raises_of_resolveName hr
      · exact R.reports nofun nofun
    · exact raises_of_allRowValues (by assumption)

/-- What an INSERT that passes its checks gives: a table, and for each row the values by position. -/
theorem gives_of_validate (h : i.validate schema = .ok (table, rows)) :
    schema.lookup i.table = .ok table ∧ i.rows ≠ [] ∧ ∃ positions,
      (if i.columns.isEmpty then .ok (List.range table.columns.length) else targets table i.columns) =
        .ok positions ∧ List.Forall₂ (RowOf positions) i.rows rows := by
  unfold validate at h
  obtain ⟨table', hlookup, h⟩ := bind_eq_ok.mp h
  dsimp only at h
  split at h
  · cases h
  · rename_i hrows
    have hne : i.rows ≠ [] := fun hnil => hrows (by rw [hnil]; rfl)
    split at h
    · rename_i hcolumns
      rw [pure_bind] at h
      obtain ⟨values, hvalues, h⟩ := bind_eq_ok.mp h
      cases h
      exact ⟨hlookup, hne, _, if_pos hcolumns, forall₂_of_allRowValues hvalues⟩
    · rename_i hcolumns
      obtain ⟨positions, hpositions, h⟩ := bind_eq_ok.mp h
      obtain ⟨values, hvalues, h⟩ := bind_eq_ok.mp h
      cases h
      exact ⟨hlookup, hne, positions, (if_neg hcolumns).trans hpositions, forall₂_of_allRowValues hvalues⟩

/-- The values of an INSERT see no table. -/
theorem values_of_validate (h : i.validate schema = .ok (table, rows)) : ∀ row ∈ rows, ∀ v ∈ row,
    ∃ terms ∈ i.rows, ∃ term ∈ terms, Scope.resolve [] term = .ok v.2 := by
  intro row hrow v hv
  obtain ⟨-, -, _, -, hrows⟩ := gives_of_validate h
  obtain ⟨terms, hterms, -, es, hes, rfl⟩ := (exists_of_forall₂ hrows).2 row hrow
  exact ⟨terms, hterms, (exists_of_forall₂ (Expr.forall₂_of_traverseAll hes)).2 v.2 (List.of_mem_zip hv).2⟩

theorem raises_of_validate (h : i.validate schema = .error x) : R.raises x := by
  unfold validate at h
  obtain hlookup | ⟨table, -, h⟩ := bind_eq_error.mp h
  · exact Schema.raises_of_lookup hlookup
  · dsimp only at h
    split at h
    · cases h
      exact R.reports nofun nofun
    · split at h
      · obtain hnone | ⟨positions, -, h⟩ := bind_eq_error.mp h
        · cases hnone
        · obtain hrows | ⟨_, -, h⟩ := bind_eq_error.mp h
          · exact raises_of_allRowValues hrows
          · cases h
      · obtain htargets | ⟨positions, -, h⟩ := bind_eq_error.mp h
        · exact raises_of_targets htargets
        · obtain hrows | ⟨_, -, h⟩ := bind_eq_error.mp h
          · exact raises_of_allRowValues hrows
          · cases h

end Insertion

/-! ## UPDATE -/

/-- A call stands in a new value or in WHERE. -/
def Change.misuses (c : Change) : Bool :=
  c.values.any (·.containsAggregate) || c.filter.any (·.containsAggregate)

namespace Change

variable {scope : Scope} {c : Change} {r : Resolution}

/-- What an assignment becomes. -/
def Resolves (table : Table) (scope : Scope) (pair : String × Term) (a : Nat × Resolved) : Prop :=
  table.columnIndex? pair.1 = some a.1 ∧ table.isRowidAt a.1 = false ∧ scope.resolvePlain pair.2 = .ok a.2

theorem resolves_of_assignments {pairs : List (String × Term)} :
    ∀ {assigned : List (Nat × Resolved)}, assignments table scope pairs = .ok assigned →
      List.Forall₂ (Resolves table scope) pairs assigned := by
  induction pairs with
  | nil =>
    intro assigned h
    cases h
    exact .nil
  | cons pair pairs ih =>
    intro assigned h
    unfold assignments at h
    repeat' split at h
    all_goals cases h
    rename_i hmore
    exact .cons ⟨by assumption, Bool.eq_false_iff.mpr (by assumption), by assumption⟩ (ih hmore)

theorem raises_of_assignments : ∀ {sets : List (String × Term)}, R.Excuses ((sets.map (·.2)).any (·.containsAggregate)) →
    assignments table scope sets = .error x → R.raises x
  | _ :: _, hsets, h => by
    unfold assignments at h
    repeat' split at h
    all_goals cases h
    · exact R.reports nofun nofun
    · exact R.reports nofun nofun
    · exact Scope.raises_of_resolvePlain hsets.of_or.1 (by assumption)
    · exact raises_of_assignments hsets.of_or.2 (by assumption)

theorem parts_of_validate (h : c.validate schema = .ok r) :
    schema.lookup c.table = .ok r.table ∧ c.columns.length = c.values.length ∧
      assignments r.table (Scope.single r.table tableCursor) (c.columns.zip c.values) = .ok r.assignments ∧
      (Scope.single r.table tableCursor).resolvePlain? c.filter = .ok r.filter := by
  obtain ⟨table, hlookup, h⟩ := bind_eq_ok.mp h
  dsimp only at h
  split at h
  · cases h
  · rename_i hlength
    obtain ⟨_, hassignments, h⟩ := bind_eq_ok.mp h
    obtain ⟨_, hfilter, h⟩ := bind_eq_ok.mp h
    cases h
    exact ⟨hlookup, not_ne_iff.mp hlength, hassignments, hfilter⟩

/-- The terms of an UPDATE see the row that is changed. -/
theorem assigned_of_validate (h : c.validate schema = .ok r) : ∀ a ∈ r.assignments,
    ∃ term ∈ c.values, (Scope.single r.table tableCursor).Plainly term a.2 := by
  intro a ha
  obtain ⟨-, -, hassignments, -⟩ := parts_of_validate h
  obtain ⟨pair, hpair, -, -, hresolve⟩ := (exists_of_forall₂ (resolves_of_assignments hassignments)).2 a ha
  exact ⟨pair.2, (List.of_mem_zip hpair).2, Scope.plainly_of_resolvePlain hresolve⟩

theorem raises_of_validate (hc : R.Excuses c.misuses) (h : c.validate schema = .error x) : R.raises x := by
  unfold validate at h
  obtain hlookup | ⟨table, -, h⟩ := bind_eq_error.mp h
  · exact Schema.raises_of_lookup hlookup
  dsimp only at h
  split at h
  · cases h
    exact R.reports nofun nofun
  rename_i hlength
  obtain hsets | ⟨_, -, h⟩ := bind_eq_error.mp h
  · refine raises_of_assignments ?_ hsets
    rw [List.map_snd_zip (Nat.le_of_eq (not_ne_iff.mp hlength).symm)]
    exact hc.of_or.1
  · obtain hfilter | ⟨_, -, h⟩ := bind_eq_error.mp h
    · exact Scope.raises_of_resolvePlain? hc.of_or.2 hfilter
    · cases h

end Change

/-! ## CREATE -/

/-- What CREATE TABLE that passes its checks says about the schema, if there is a table to make and if there is not. -/
theorem TableDef.gives_of_validate {t : TableDef} {fresh : Bool} (h : t.validate schema = .ok fresh) :
    match fresh with
    | true => t.name.isEmpty = false ∧ schema.table? t.name = none ∧ schema.index? t.name = none ∧ t.columns ≠ []
    | false => (schema.table? t.name).isSome = true := by
  unfold validate at h
  repeat' split at h
  all_goals cases h
  · assumption
  · simp_all

theorem IndexDef.gives_of_validate {i : IndexDef} {found : Option Table} (h : i.validate schema = .ok found) :
    match found with
    | some table => schema.table? i.name = none ∧ schema.index? i.name = none ∧ schema.lookup i.table = .ok table
    | none => (schema.index? i.name).isSome = true := by
  unfold validate at h
  simp only [bind, Except.bind, pure, Except.pure] at h
  repeat' split at h
  all_goals cases h
  all_goals simp_all [throw, throwThe, MonadExceptOf.throw]

theorem TableDef.raises_of_validate {t : TableDef} (h : t.validate schema = .error x) : R.raises x := by
  unfold validate at h
  repeat' split at h
  all_goals cases h
  all_goals exact R.reports nofun nofun

theorem IndexDef.raises_of_validate {i : IndexDef} (h : i.validate schema = .error x) : R.raises x := by
  unfold validate at h
  dsimp only at h
  split at h
  · cases h
    exact R.reports nofun nofun
  split at h
  · split at h <;> cases h
    exact R.reports nofun nofun
  obtain hlookup | ⟨table, -, h⟩ := bind_eq_error.mp h
  · exact Schema.raises_of_lookup hlookup
  repeat' split at h
  all_goals cases h
  all_goals exact R.reports nofun nofun

end QueryMachine
