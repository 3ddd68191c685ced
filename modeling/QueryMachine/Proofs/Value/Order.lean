import Mathlib.Data.List.Forall2
import QueryMachine.Proofs.Binary64
import QueryMachine.Tree

/-!
# The order of values that are no NaN

A NaN compares as equal to every real, which equal each other in no other way, so the order of values is
none. Without NaNs it is the order of a tuple: the rank of the storage class, the worth of a number, the
text and the blob. That order is total and transitive, and so is the one it gives to rows.

* `Value.grade`, `Value.gradeRows` — the orders without exception.
* `Value.order_eq_grade`, `Value.orderRows_eq_gradeRows` — where there is no NaN, they are those of keys.
-/

namespace QueryMachine.Value

open Std

/-- Whether a value is a NaN. -/
def isNaN : Value → Bool
  | .real x => x.isNaN
  | _ => false

/-- A row without NaNs. -/
def Comparable (row : List Value) : Prop := ∀ v ∈ row, v.isNaN = false

instance (row : List Value) : Decidable (Comparable row) := inferInstanceAs (Decidable (∀ v ∈ row, _))

/-- What a number is worth, in the units of reals. -/
def worth : Value → Int
  | .int i => i.toInt * Binary64.unitsPerOne
  | .real x => x.units
  | _ => 0

def textPart : Value → String
  | .text t => t
  | _ => ""

def blobPart : Value → Bytes
  | .blob bytes => bytes
  | _ => []

/-- The order of values as tuples. -/
def grade : Value → Value → Ordering :=
  compareLex (compareOn rank) (compareLex (compareOn worth) (compareLex (compareOn textPart) (compareOn blobPart)))

instance : TransCmp grade := by
  unfold grade
  infer_instance

theorem grade_of_rank {a b : Value} (ha : a.rank = 1) (hb : b.rank = 1) : grade a b = compare a.worth b.worth := by
  have hparts : ∀ v : Value, v.rank = 1 → v.textPart = "" ∧ v.blobPart = [] := by
    intro v hv
    cases v <;> first | exact ⟨rfl, rfl⟩ | cases hv
  obtain ⟨hat, hab⟩ := hparts a ha
  obtain ⟨hbt, hbb⟩ := hparts b hb
  simp only [grade, compareLex, compareOn, ha, hb, hat, hab, hbt, hbb, ReflCmp.compare_self,
    Ordering.eq_then, Ordering.then_eq]

theorem compare_mul_units (i j : Int) :
    compare (i * Binary64.unitsPerOne) (j * Binary64.unitsPerOne) = compare i j := by
  have hpos : (0 : Int) < Binary64.unitsPerOne := Int.natCast_pos.mpr Binary64.unitsPerOne_pos
  rcases Int.lt_trichotomy i j with h | rfl | h
  · rw [Int.compare_eq_lt.mpr h, Int.compare_eq_lt.mpr (Int.mul_lt_mul_of_pos_right h hpos)]
  · rw [Int.compare_eq_eq.mpr rfl, Int.compare_eq_eq.mpr rfl]
  · rw [Int.compare_eq_gt.mpr h, Int.compare_eq_gt.mpr (Int.mul_lt_mul_of_pos_right h hpos)]

/-- Without NaNs, values compare as tuples. -/
theorem order_eq_grade {a b : Value} (ha : a.isNaN = false) (hb : b.isNaN = false) : a.order b = grade a b := by
  cases a with
  | null => cases b <;> rfl
  | int i =>
    cases b with
    | int j =>
      rw [grade_of_rank rfl rfl]
      exact (compare_mul_units i.toInt j.toInt).symm
    | real y =>
      rw [grade_of_rank rfl rfl]
      exact Binary64.compareInt_eq i.le_toInt i.toInt_lt hb
    | _ => rfl
  | real x =>
    cases b with
    | int j =>
      rw [grade_of_rank rfl rfl]
      show (Binary64.compareInt j.toInt x).swap = _
      rw [Binary64.compareInt_eq j.le_toInt j.toInt_lt ha]
      exact (OrientedCmp.eq_swap).symm
    | real y =>
      rw [grade_of_rank rfl rfl]
      show (Binary64.compare? x y).getD .eq = _
      rw [Binary64.compare?, show x.isNaN = false from ha, show y.isNaN = false from hb]
      rfl
    | _ => rfl
  | text t =>
    cases b with
    | text u =>
      show compare t u = (compare t u).then .eq
      rw [Ordering.then_eq]
    | _ => rfl
  | blob bytes => cases b <;> rfl

/-! ## Rows -/

theorem orderRows_eq_eq_iff : ∀ {a b : List Value}, orderRows a b = .eq ↔ List.Forall₂ (fun v w => order v w = .eq) a b
  | [], [] => by simp [orderRows]
  | [], _ :: _ => by simp [orderRows]
  | _ :: _, [] => by simp [orderRows]
  | v :: a, w :: b => by
    rw [orderRows, Ordering.then_eq_eq, List.forall₂_cons, orderRows_eq_eq_iff]

/-- The order of rows as lists of tuples. -/
def gradeRows : List Value → List Value → Ordering := List.compareLex grade

instance : TransCmp gradeRows := by
  unfold gradeRows
  infer_instance

/-- Without NaNs, rows compare as lists of tuples. -/
theorem orderRows_eq_gradeRows : ∀ {a b : List Value}, Comparable a → Comparable b → orderRows a b = gradeRows a b
  | [], [], _, _ => rfl
  | [], _ :: _, _, _ => rfl
  | _ :: _, [], _, _ => rfl
  | v :: a, w :: b, ha, hb => by
    obtain ⟨hv, ha⟩ := List.forall_mem_cons.mp ha
    obtain ⟨hw, hb⟩ := List.forall_mem_cons.mp hb
    rw [orderRows, order_eq_grade hv hw, orderRows_eq_gradeRows ha hb, gradeRows, List.compareLex_cons_cons]

end QueryMachine.Value
