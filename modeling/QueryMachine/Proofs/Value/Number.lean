import Mathlib.Algebra.Order.Field.Power
import Mathlib.Algebra.Order.Ring.Rat
import Mathlib.Order.Compare
import Mathlib.Order.WithBot
import Mathlib.Tactic.FieldSimp
import Mathlib.Tactic.Ring
import QueryMachine.Proofs.Value
import QueryMachine.Proofs.Value.Order

/-!
# Values as numbers

A finite binary64 number denotes a rational with a power of two below the line, and the infinities are
the two ends of the order. Integers and reals compare as what they denote, whatever their kinds and
however large they are, and the order of values that this is a part of is a total preorder; so is the
lexicographic order of rows.

* `Binary64.dyadic`, `Value.number?` — what numbers denote.
* `Value.order_compares` — the order of numbers is the order of what they denote.
* `Value.orderRows_eq_lt_iff` — rows compare at the first place where they differ.
* `Value.order_total_preorder` — the order as a whole.
-/

namespace QueryMachine

open Std

/-! ## What a number denotes -/

/-- Rationals with a least and a greatest element. -/
abbrev Extended := WithBot (WithTop ℚ)

namespace Binary64

variable {n m : Extended} {u : Int} {x : Binary64}

/-- What a finite number denotes without its sign: a fraction, and one more where the exponent field
is not zero, times a power of two. -/
def dyadicMagnitude (x : Binary64) : ℚ :=
  if x.exponentField = 0 then (2 : ℚ) ^ (-1022 : ℤ) * (x.fraction / 2 ^ 52)
  else (2 : ℚ) ^ ((x.exponentField : ℤ) - 1023) * (1 + x.fraction / 2 ^ 52)

/-- The rational that a finite number denotes. -/
def dyadic (x : Binary64) : ℚ := if x.isNegative then -x.dyadicMagnitude else x.dyadicMagnitude

/-- What a number denotes; nothing for a NaN. -/
def number? (x : Binary64) : Option Extended :=
  if x.isNaN then none
  else if x.isInfinite then some (if x.isNegative then ⊥ else ⊤)
  else some ((x.dyadic : WithTop ℚ) : Extended)

/-- The units of the infinities. -/
def infiniteUnits : Nat := hiddenBit * Nat.pow 2 2046

/-- A number in units denotes an element of the extended rationals. -/
inductive Denotes : Int → Extended → Prop
  | finite {u : Int} {q : ℚ} : u.natAbs < infiniteUnits → q * unitsPerOne = u →
      Denotes u ((q : WithTop ℚ) : Extended)
  | low : Denotes (-infiniteUnits) ⊥
  | high : Denotes infiniteUnits ⊤

theorem Denotes.natAbs_le (h : Denotes u n) : u.natAbs ≤ infiniteUnits := by
  cases h with
  | finite hu => exact Nat.le_of_lt hu
  | low => rw [Int.natAbs_neg, Int.natAbs_natCast]
  | high => rw [Int.natAbs_natCast]

/-- More units denote more. -/
theorem Denotes.lt {v : Int} (hm : Denotes u m) (hn : Denotes v n) (h : u < v) : m < n := by
  have hleu := hm.natAbs_le
  have hlev := hn.natAbs_le
  cases hm with
  | high => omega
  | low =>
    cases hn with
    | low => omega
    | finite => exact WithBot.bot_lt_coe _
    | high => exact WithBot.bot_lt_coe ⊤
  | @finite _ q _ hq =>
    cases hn with
    | low => omega
    | high => exact WithBot.coe_lt_coe.mpr (WithTop.coe_lt_top q)
    | @finite _ r _ hr =>
      refine WithBot.coe_lt_coe.mpr (WithTop.coe_lt_coe.mpr ?_)
      refine lt_of_mul_lt_mul_right (a := (unitsPerOne : ℚ)) ?_ (Nat.cast_nonneg _)
      rw [hq, hr]
      exact_mod_cast h

/-- Units denote one number. -/
theorem Denotes.unique (hm : Denotes u m) (hn : Denotes u n) : m = n := by
  have hpos : (0 : Int) < infiniteUnits := Int.natCast_pos.mpr (by decide +kernel)
  generalize hv : u = v at hn
  cases hm with
  | low =>
    cases hn with
    | low => rfl
    | finite => omega
    | high => omega
  | high =>
    cases hn with
    | low => omega
    | finite => omega
    | high => rfl
  | @finite _ q _ hq =>
    cases hn with
    | low => omega
    | high => omega
    | @finite _ r _ hr =>
      have hone : (unitsPerOne : ℚ) ≠ 0 := Nat.cast_ne_zero.mpr (Nat.ne_of_gt unitsPerOne_pos)
      rw [mul_right_cancel₀ hone (hq.trans ((congrArg Int.cast hv).trans hr.symm))]

theorem zpow_mul_pow {a : ℤ} {k n : ℕ} (h : a + k = n) : (2 : ℚ) ^ a * 2 ^ k = 2 ^ n := by
  rw [← zpow_natCast, ← zpow_natCast, ← zpow_add₀ two_ne_zero, h]

theorem dyadicMagnitude_mul (x : Binary64) : x.dyadicMagnitude * unitsPerOne = x.unitMagnitude := by
  obtain ⟨k, hk, hone⟩ := unitsPerOne_eq
  have hhidden : (hiddenBit : ℚ) = 2 ^ 52 := by norm_num [hiddenBit]
  unfold dyadicMagnitude unitMagnitude
  rw [hone, Nat.cast_pow, Nat.cast_ofNat]
  split
  · have hpow : (2 : ℚ) ^ (-1022 : ℤ) * 2 ^ k = 2 ^ 52 := zpow_mul_pow (by omega)
    rw [mul_right_comm, hpow, mul_div_cancel₀ _ (by positivity)]
  · have hpow : (2 : ℚ) ^ ((x.exponentField : ℤ) - 1023) * 2 ^ k = 2 ^ (52 + (x.exponentField - 1)) :=
      zpow_mul_pow (by omega)
    rw [mul_right_comm, hpow, pow_add, Nat.cast_mul, Nat.cast_add, hhidden, Nat.pow_eq, Nat.cast_pow,
      Nat.cast_ofNat]
    field_simp

theorem dyadic_mul (x : Binary64) : x.dyadic * unitsPerOne = x.units := by
  unfold dyadic units
  split
  · rw [neg_mul, dyadicMagnitude_mul]
    norm_cast
  · rw [dyadicMagnitude_mul]
    norm_cast

theorem unitMagnitude_of_isInfinite (h : x.isInfinite = true) : x.unitMagnitude = infiniteUnits := by
  have hmagnitude : x.magnitude = 2047 * hiddenBit := of_decide_eq_true h
  have hfield : x.exponentField = 2047 := by
    rw [exponentField, hmagnitude]
    exact Nat.mul_div_cancel _ (by decide)
  have hfraction : x.fraction = 0 := by
    rw [fraction, hmagnitude]
    exact Nat.mul_mod_left ..
  rw [unitMagnitude, hfield, hfraction]
  decide +kernel

theorem unitMagnitude_lt (hnan : x.isNaN = false) (hinf : x.isInfinite = false) : x.unitMagnitude < infiniteUnits := by
  have hmagnitude : x.magnitude < 2047 * hiddenBit := by
    have hle := of_decide_eq_false hnan
    have hne := of_decide_eq_false hinf
    simp only [infiniteMagnitude] at hle hne
    omega
  have hfield : x.exponentField < 2047 := (Nat.div_lt_iff_lt_mul (by decide)).mpr hmagnitude
  have hfraction : x.fraction < hiddenBit := Nat.mod_lt _ (by decide)
  obtain ⟨top, htop⟩ : ∃ top, top = 2045 := ⟨_, rfl⟩
  have hpow : 2 ^ (x.exponentField - 1) ≤ 2 ^ top := Nat.pow_le_pow_right (by omega) (by omega)
  unfold unitMagnitude infiniteUnits
  split
  · exact Nat.lt_of_lt_of_le hfraction (by decide +kernel)
  · calc (hiddenBit + x.fraction) * 2 ^ (x.exponentField - 1)
        < 2 * hiddenBit * 2 ^ (x.exponentField - 1) :=
          Nat.mul_lt_mul_of_pos_right (by omega) (Nat.two_pow_pos _)
      _ ≤ 2 * hiddenBit * 2 ^ top := Nat.mul_le_mul_left _ hpow
      _ = hiddenBit * Nat.pow 2 2046 := by
        rw [htop]
        decide +kernel

/-- A number that denotes something has the units of it. -/
theorem denotes_of_number? (h : x.number? = some n) : Denotes x.units n := by
  unfold number? at h
  split at h
  · cases h
  · rename_i hnan
    split at h
    · rename_i hinf
      cases h
      unfold units
      rw [unitMagnitude_of_isInfinite hinf]
      split
      · exact .low
      · exact .high
    · rename_i hinf
      cases h
      refine .finite ?_ x.dyadic_mul
      have hlt := unitMagnitude_lt (Bool.eq_false_iff.mpr hnan) (Bool.eq_false_iff.mpr hinf)
      unfold units
      split <;> simpa using hlt

end Binary64

/-! ## The order of numbers -/

namespace Value

/-- What a value denotes as a number; nothing for a NaN and for what is no number. -/
def number? : Value → Option Extended
  | .int i => some (((i.toInt : ℚ) : WithTop ℚ) : Extended)
  | .real x => x.number?
  | _ => none

theorem isSome_number? (v : Value) : v.number?.isSome = (v.rank == 1 && !v.isNaN) := by
  cases v with
  | real x =>
    simp only [number?, Binary64.number?, isNaN, rank]
    cases x.isNaN <;> cases x.isInfinite <;> rfl
  | _ => rfl

theorem denotes_of_number? {v : Value} {n : Extended} (h : v.number? = some n) : Binary64.Denotes v.worth n := by
  cases v with
  | int i =>
    cases h
    refine .finite ?_ (by rw [worth, Int.cast_mul, Int.cast_natCast])
    have hlow := i.le_toInt
    have hhigh := i.toInt_lt
    rw [worth, Int.natAbs_mul, Int.natAbs_natCast]
    exact Nat.lt_of_le_of_lt (Nat.mul_le_mul_right _ (show i.toInt.natAbs ≤ 0x8000000000000000 by omega))
      (by decide +kernel)
  | real x => exact Binary64.denotes_of_number? h
  | _ => cases h

/-- **Numbers compare as what they denote**, integers with reals too. -/
theorem order_compares {a b : Value} {m n : Extended} (ha : a.number? = some m) (hb : b.number? = some n) :
    (order a b).Compares m n := by
  have hnumber : ∀ {v : Value} {k : Extended}, v.number? = some k → v.rank = 1 ∧ v.isNaN = false := by
    intro v k hv
    have hsome := isSome_number? v
    rw [hv] at hsome
    simpa using hsome.symm
  obtain ⟨harank, hanan⟩ := hnumber ha
  obtain ⟨hbrank, hbnan⟩ := hnumber hb
  have hm := denotes_of_number? ha
  have hn := denotes_of_number? hb
  rw [order_eq_grade hanan hbnan, grade_of_rank harank hbrank]
  rcases Int.lt_trichotomy a.worth b.worth with h | h | h
  · rw [Int.compare_eq_lt.mpr h]
    exact hm.lt hn h
  · rw [Int.compare_eq_eq.mpr h]
    exact hm.unique (h ▸ hn)
  · rw [Int.compare_eq_gt.mpr h]
    exact hn.lt hm h

theorem order_of_rank_lt {a b : Value} (h : a.rank < b.rank) : order a b = .lt := by
  have hcompare : compare a.rank b.rank = .lt := Nat.compare_eq_lt.mpr h
  cases a <;> cases b <;> simp_all [rank, order, compare?]

/-! ## Rows -/

/-- Of two rows the first has the lesser value at the first place where they differ, or ends there. -/
def Precedes (a b : List Value) : Prop :=
  ∃ lead lead' rest rest', a = lead ++ rest ∧ b = lead' ++ rest' ∧
    List.Forall₂ (fun v w => order v w = .eq) lead lead' ∧
    (rest = [] ∧ rest' ≠ [] ∨
      ∃ v w, rest.head? = some v ∧ rest'.head? = some w ∧ order v w = .lt)

/-- **Rows compare at the first place where they differ.** -/
theorem orderRows_eq_lt_iff {a b : List Value} : orderRows a b = .lt ↔ Precedes a b := by
  constructor
  · intro h
    fun_induction orderRows a b with
    | case1 => cases h
    | case2 w b => exact ⟨[], [], [], w :: b, rfl, rfl, .nil, .inl ⟨rfl, List.cons_ne_nil _ _⟩⟩
    | case3 => cases h
    | case4 v a w b ih =>
      rcases Ordering.then_eq_lt.mp h with hlt | ⟨heq, hrest⟩
      · exact ⟨[], [], v :: a, w :: b, rfl, rfl, .nil, .inr ⟨v, w, rfl, rfl, hlt⟩⟩
      · obtain ⟨lead, lead', rest, rest', rfl, rfl, hsame, hdiffer⟩ := ih hrest
        exact ⟨v :: lead, w :: lead', rest, rest', rfl, rfl, .cons heq hsame, hdiffer⟩
  · rintro ⟨lead, lead', rest, rest', rfl, rfl, hsame, hdiffer⟩
    induction hsame with
    | nil =>
      rcases hdiffer with ⟨rfl, hne⟩ | ⟨v, w, hv, hw, hlt⟩
      · obtain ⟨w, b, rfl⟩ := List.exists_cons_of_ne_nil hne
        rfl
      · obtain ⟨a, rfl⟩ := List.head?_eq_some_iff.mp hv
        obtain ⟨b, rfl⟩ := List.head?_eq_some_iff.mp hw
        simp only [List.nil_append, orderRows, hlt]
        rfl
    | cons heq _ ih =>
      rw [List.cons_append, List.cons_append, orderRows, heq]
      exact ih

/-! ## The order as a whole -/

/-- A comparison is a total preorder of what satisfies `p`. -/
structure TotalPreorderOn {α : Type} (p : α → Prop) (cmp : α → α → Ordering) : Prop where
  refl : ∀ a, p a → cmp a a = .eq
  swap : ∀ a b, p a → p b → cmp a b = (cmp b a).swap
  trans : ∀ a b c, p a → p b → p c → (cmp a b).isLE → (cmp b c).isLE → (cmp a c).isLE

theorem TotalPreorderOn.of_eq {α : Type} {p : α → Prop} {cmp lawful : α → α → Ordering}
    [TransCmp lawful] (h : ∀ {a b}, p a → p b → cmp a b = lawful a b) : TotalPreorderOn p cmp where
  refl a ha := by
    rw [h ha ha]
    exact ReflCmp.compare_self
  swap a b ha hb := by
    rw [h ha hb, h hb ha]
    exact OrientedCmp.eq_swap
  trans a b c ha hb hc hab hbc := by
    rw [h ha hb] at hab
    rw [h hb hc] at hbc
    rw [h ha hc]
    exact TransCmp.isLE_trans hab hbc

/-- **The order of values is a total preorder of what is no NaN.** Numbers compare as what they denote,
values of different classes by the rank of the class, and rows lexicographically, which is a total
preorder of the rows without NaNs. -/
theorem order_total_preorder :
    TotalPreorderOn (fun v => v.isNaN = false) order ∧
      (∀ v : Value, v.number?.isSome = (v.rank == 1 && !v.isNaN)) ∧
      (∀ (a b : Value) (m n : Extended), a.number? = some m → b.number? = some n →
        (order a b).Compares m n) ∧
      (∀ a b : Value, a.rank < b.rank → order a b = .lt) ∧
      TotalPreorderOn Comparable orderRows ∧
      (∀ a b, orderRows a b = .lt ↔ Precedes a b) ∧
      (∀ a b, orderRows a b = .eq ↔ List.Forall₂ (fun v w => order v w = .eq) a b) :=
  ⟨.of_eq order_eq_grade, isSome_number?, fun _ _ _ _ => order_compares, fun _ _ => order_of_rank_lt,
    .of_eq orderRows_eq_gradeRows, fun _ _ => orderRows_eq_lt_iff, fun _ _ => orderRows_eq_eq_iff⟩

/-- The first integer that no real is lies above the real that it is rounded to, and the row of it
above that of the real with more fields. -/
theorem order_total_preorder_unrepresentable :
    (Value.int 0x20000000000001).isNaN = false ∧ (Value.real ⟨0x4340000000000000⟩).isNaN = false ∧
      (∃ m n, (Value.int 0x20000000000001).number? = some m ∧
        (Value.real ⟨0x4340000000000000⟩).number? = some n ∧ n < m) ∧
      order (.real ⟨0x4340000000000000⟩) (.int 0x20000000000001) = .lt ∧
      Precedes [.real ⟨0x4340000000000000⟩, .null] [.int 0x20000000000001] := by
  obtain ⟨hlawful, hnumber, hcompares, -, -, hlex, -⟩ := order_total_preorder
  have hbelow : ∀ a b : Value, a.rank = 1 → b.rank = 1 → a.isNaN = false → b.isNaN = false →
      order a b = .gt → ∃ m n, a.number? = some m ∧ b.number? = some n ∧ n < m := by
    intro a b ha hb hanan hbnan hgt
    obtain ⟨m, hm⟩ := Option.isSome_iff_exists.mp ((hnumber a).trans (by rw [ha, hanan]; rfl))
    obtain ⟨n, hn⟩ := Option.isSome_iff_exists.mp ((hnumber b).trans (by rw [hb, hbnan]; rfl))
    have hmn := hcompares a b m n hm hn
    rw [hgt] at hmn
    exact ⟨m, n, hm, hn, hmn⟩
  have hgt : order (.int 0x20000000000001) (.real ⟨0x4340000000000000⟩) = .gt := by decide +kernel
  have hswap := hlawful.swap (.real ⟨0x4340000000000000⟩) (.int 0x20000000000001) rfl rfl
  exact ⟨rfl, rfl, hbelow _ _ rfl rfl rfl rfl hgt, hswap.trans (congrArg Ordering.swap hgt),
    (hlex _ _).mp (by decide +kernel)⟩

end Value

end QueryMachine
