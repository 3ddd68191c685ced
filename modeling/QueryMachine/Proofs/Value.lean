import Mathlib.Algebra.Ring.Int.Defs
import Mathlib.Algebra.Ring.Nat
import QueryMachine.Machine.Access
import QueryMachine.Schema

/-!
# Values: order and affinity

* `Value.orderRows_self` — every row equals itself, one with a NaN included.
* `Value.eq_of_orderRows_concat` — equal keys end in the same rowid.
* `Value.Conforms` — the values that an affinity leaves as they are.
* `Value.withAffinity_withAffinity` — a value that was stored is stored as it is.
* `Table.getD_applyAffinities` — the columns of a record, each with its own affinity.
-/

namespace QueryMachine

namespace Value

/-! ## Order -/

theorem order_self (v : Value) : v.order v = .eq := by
  cases v with
  | null => rfl
  | int i => simp [order, compare?]
  | real x =>
    simp only [order, compare?, Binary64.compare?]
    split
    · rfl
    · simp
  | text s => simp [order, compare?]
  | blob bytes => simp [order, compare?]

theorem orderRows_self : ∀ row : List Value, orderRows row row = .eq
  | [] => rfl
  | v :: row => by
    rw [orderRows, order_self, orderRows_self row]
    rfl

theorem length_eq_of_orderRows : ∀ {row row' : List Value}, orderRows row row' = .eq → row.length = row'.length
  | [], [], _ => rfl
  | [], _ :: _, h => by cases h
  | _ :: _, [], h => by cases h
  | v :: row, w :: row', h => by
    rw [orderRows, Ordering.then_eq_eq] at h
    exact congrArg (· + 1) (length_eq_of_orderRows h.2)

/-- Keys that are equal end in the same rowid. -/
theorem eq_of_orderRows_concat {row row' : List Value} {i j : Int64}
    (h : orderRows (row ++ [.int i]) (row' ++ [.int j]) = .eq) : i = j := by
  have hlength : row.length = row'.length := by
    simpa using length_eq_of_orderRows h
  induction row generalizing row' with
  | nil =>
    obtain rfl := List.length_eq_zero_iff.mp hlength.symm
    rw [List.nil_append, List.nil_append, orderRows, Ordering.then_eq_eq] at h
    have hcompare : compare i.toInt j.toInt = .eq := h.1
    exact Int64.toInt_inj.mp (Std.LawfulEqCmp.compare_eq_iff_eq.mp hcompare)
  | cons v row ih =>
    obtain ⟨w, row', rfl⟩ := List.exists_cons_of_length_eq_add_one hlength.symm
    rw [List.cons_append, List.cons_append, orderRows, Ordering.then_eq_eq] at h
    exact ih h.2 (Nat.succ.inj hlength)

/-! ## Affinity -/

/-- The values that a column of an affinity holds as they are. -/
def Conforms (v : Value) : Affinity → Prop
  | .blob => True
  | .text => (∀ i, v ≠ int i) ∧ ∀ x, v ≠ real x
  | .numeric => ∀ s, v = text s → numberOfText? s = none
  | .integer => (∀ s, v = text s → numberOfText? s = none) ∧ ∀ x, v = real x → x.toInt64? = none
  | .real => (∀ s, v = text s → numberOfText? s = none) ∧ ∀ i, v ≠ int i

theorem narrow_cases (x : Binary64) : (∃ i, narrow x = .int i) ∨ narrow x = .real x ∧ x.toInt64? = none := by
  unfold narrow
  cases x.toInt64? with
  | some i => exact .inl ⟨i, rfl⟩
  | none => exact .inr ⟨rfl, rfl⟩

theorem numberOfText?_cases {s : String} {v : Value} (h : numberOfText? s = some v) :
    (∃ i, v = .int i) ∨ ∃ x, v = .real x ∧ x.toInt64? = none := by
  unfold numberOfText? at h
  dsimp only at h
  split at h
  · cases h
    exact .inl ⟨_, rfl⟩
  · split at h
    · cases h
    · split at h
      · cases h
      · cases h
        rename_i x _ _
        rcases narrow_cases x with hint | hreal
        · exact .inl hint
        · exact .inr ⟨x, hreal⟩

/-- An affinity leaves the values that conform to it, and no others. -/
theorem withAffinity_eq_self_iff {a : Affinity} {v : Value} : v.withAffinity a = v ↔ v.Conforms a := by
  cases v with
  | text s =>
    cases hs : numberOfText? s with
    | none => cases a <;> simp [withAffinity, Conforms, hs]
    | some w =>
      rcases numberOfText?_cases hs with ⟨i, rfl⟩ | ⟨x, rfl, -⟩ <;> cases a <;> simp [withAffinity, Conforms, hs]
  | real x => cases hx : x.toInt64? <;> cases a <;> simp [withAffinity, Conforms, narrow, hx]
  | null | int | blob => cases a <;> simp [withAffinity, Conforms]

/-- What an affinity makes of a value conforms to it. -/
theorem conforms_withAffinity (a : Affinity) (v : Value) : (v.withAffinity a).Conforms a := by
  cases v with
  | text s =>
    cases hs : numberOfText? s with
    | none => cases a <;> simp [withAffinity, Conforms, hs]
    | some w =>
      rcases numberOfText?_cases hs with ⟨i, rfl⟩ | ⟨x, rfl, hx⟩ <;> cases a <;>
        simp_all [withAffinity, Conforms]
  | real x => cases hx : x.toInt64? <;> cases a <;> simp [withAffinity, Conforms, narrow, hx]
  | null | int | blob => cases a <;> simp [withAffinity, Conforms]

/-- A value that was stored under an affinity is stored as it is. -/
theorem withAffinity_withAffinity (a : Affinity) (v : Value) : (v.withAffinity a).withAffinity a = v.withAffinity a :=
  withAffinity_eq_self_iff.mpr (conforms_withAffinity a v)

theorem withAffinity_integer_ne_null {v : Value} (h : v ≠ .null) : v.withAffinity .integer ≠ .null := by
  cases v with
  | null => exact absurd rfl h
  | text s =>
    cases hs : numberOfText? s with
    | none => simp [withAffinity, hs]
    | some w => rcases numberOfText?_cases hs with ⟨i, rfl⟩ | ⟨x, rfl, -⟩ <;> simp [withAffinity, hs]
  | real x =>
    show narrow x ≠ .null
    rcases narrow_cases x with ⟨i, hx⟩ | ⟨hx, -⟩ <;> simp [hx]
  | int | blob => nofun

theorem withAffinity_null (a : Affinity) : Value.null.withAffinity a = .null := by
  cases a <;> rfl

end Value

theorem Affinity.ofChar_toChar (a : Affinity) : Affinity.ofChar a.toChar = a := by
  cases a <;> decide

/-! ## The columns of a record -/

namespace Table

/-- The affinity of the column at a position. -/
def affinityAt (table : Table) (i : Nat) : Affinity := (table.columns[i]?.map (·.affinity)).getD .blob

/-- Values as a record of the table stores them. -/
def stored (table : Table) (values : List Value) : List Value :=
  Machine.applyAffinities table.affinityCodes.toList values

theorem length_applyAffinities : ∀ (codes : List Char) (values : List Value),
    (Machine.applyAffinities codes values).length = values.length
  | [], _ => rfl
  | _ :: _, [] => rfl
  | _ :: codes, _ :: values => congrArg (· + 1) (length_applyAffinities codes values)

theorem applyAffinities_twice : ∀ (codes : List Char) (values : List Value),
    Machine.applyAffinities codes (Machine.applyAffinities codes values) = Machine.applyAffinities codes values
  | [], _ => rfl
  | _ :: _, [] => rfl
  | c :: codes, v :: values => by
    simp only [Machine.applyAffinities, Value.withAffinity_withAffinity, applyAffinities_twice codes values]

theorem getD_applyAffinities : ∀ (columns : List Column) (values : List Value) (i : Nat),
    (Machine.applyAffinities (columns.map fun c => c.affinity.toChar) values).getD i .null =
      (values.getD i .null).withAffinity ((columns[i]?.map (·.affinity)).getD .blob)
  | [], values, i => by
    show values.getD i .null = _
    cases values.getD i .null <;> rfl
  | c :: columns, [], i => (Value.withAffinity_null _).symm
  | c :: columns, v :: values, 0 => by
    simp [Machine.applyAffinities, Affinity.ofChar_toChar]
  | c :: columns, v :: values, i + 1 => by
    simpa [Machine.applyAffinities] using getD_applyAffinities columns values i

theorem length_stored (table : Table) (values : List Value) :
    (table.stored values).length = values.length := length_applyAffinities ..

theorem getD_stored (table : Table) (values : List Value) (i : Nat) :
    (table.stored values).getD i .null = (values.getD i .null).withAffinity (table.affinityAt i) := by
  simp only [stored, affinityCodes, String.toList_ofList]
  exact getD_applyAffinities table.columns values i

/-- A row as the table stores it: a value for every column, each under the affinity of its column. -/
structure Fits (table : Table) (values : List Value) : Prop where
  length : values.length = table.columns.length
  affinity : ∀ i, (values.getD i .null).withAffinity (table.affinityAt i) = values.getD i .null

theorem fits_stored {table : Table} {values : List Value} (h : values.length = table.columns.length) :
    table.Fits (table.stored values) where
  length := (table.length_stored values).trans h
  affinity i := by rw [getD_stored, Value.withAffinity_withAffinity]

end Table

end QueryMachine
