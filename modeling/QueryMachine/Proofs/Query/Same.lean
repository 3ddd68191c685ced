import Mathlib.Data.Bool.Basic
import QueryMachine.Proofs.Binary64
import QueryMachine.Proofs.Query.Meaning

/-!
# Expressions that are the same

Two expressions are the same where their trees are, real literals numerically: `0.0` is the same as
`-0.0`, and so is what is computed from them. Their values can differ in the sign of a zero only, and
that is a difference which no comparison and no filter sees.

* `Binary64.eq_of_units` — apart from the zeros, a number is known by its units.
* `Value.Alike` — values that differ at most in the sign of a zero.
* `Operator.apply_alike` — an operator does not see that sign.
* `Expr.alike_eval` — expressions that are the same have values that are alike.
-/

namespace QueryMachine

namespace Binary64

variable {x y : Binary64}

/-! ## Numbers by their units -/

/-- The larger the bits without the sign, the larger the number of units. -/
theorem unitMagnitude_lt_of_magnitude (h : x.magnitude < y.magnitude) : x.unitMagnitude < y.unitMagnitude := by
  obtain ⟨s, k, hs, hk, hx, hxunits⟩ := x.magnitude_split
  obtain ⟨t, l, ht, hl, hy, hyunits⟩ := y.magnitude_split
  rw [hx, hy] at h
  rw [hxunits, hyunits]
  rcases Nat.lt_trichotomy k l with hlt | rfl | hlt
  · -- A larger shift exceeds what the significand can make up for.
    have hnormal : hiddenBit ≤ t := by omega
    calc s * 2 ^ k
        < 2 * hiddenBit * 2 ^ k := Nat.mul_lt_mul_of_pos_right hs (Nat.two_pow_pos k)
      _ = hiddenBit * 2 ^ (k + 1) := by rw [Nat.pow_succ, Nat.mul_comm 2 hiddenBit, Nat.mul_assoc,
          Nat.mul_comm 2]
      _ ≤ t * 2 ^ l := Nat.mul_le_mul hnormal (Nat.pow_le_pow_right (by omega) hlt)
  · exact Nat.mul_lt_mul_of_pos_right (by omega) (Nat.two_pow_pos k)
  · obtain ⟨n, rfl⟩ := Nat.exists_eq_add_of_lt hlt
    rw [show l + n + 1 = l + (n + 1) by omega, Nat.add_mul, Nat.succ_mul] at h
    omega

theorem magnitude_eq_of_unitMagnitude (h : x.unitMagnitude = y.unitMagnitude) : x.magnitude = y.magnitude := by
  rcases Nat.lt_trichotomy x.magnitude y.magnitude with hlt | heq | hlt
  · exact absurd h (Nat.ne_of_lt (unitMagnitude_lt_of_magnitude hlt))
  · exact heq
  · exact absurd h.symm (Nat.ne_of_lt (unitMagnitude_lt_of_magnitude hlt))

theorem unitMagnitude_of_zero (h : x.magnitude = 0) : x.unitMagnitude = 0 := by
  simp [unitMagnitude, exponentField, fraction, h]

theorem eq_of_magnitude (hsign : x.isNegative = y.isNegative) (h : x.magnitude = y.magnitude) : x = y := by
  have hside : signBit ≤ x.bits.toNat ↔ signBit ≤ y.bits.toNat := decide_eq_decide.mp hsign
  have hx := x.bits.toNat_lt
  have hy := y.bits.toNat_lt
  have hbits : x.bits.toNat = y.bits.toNat := by
    simp only [magnitude, signBit] at h hside
    omega
  exact congrArg Binary64.mk (UInt64.toNat_inj.mp hbits)

/-- Apart from the zeros, a number is known by its units. -/
theorem eq_of_units (h : x.units = y.units) (hzero : x.magnitude ≠ 0) : x = y := by
  have hmagnitude : x.unitMagnitude = y.unitMagnitude := by
    unfold units at h
    split at h <;> split at h <;> omega
  have hbits := magnitude_eq_of_unitMagnitude hmagnitude
  have hpos : 0 < x.unitMagnitude := by
    refine Nat.pos_of_ne_zero fun hunits => hzero ?_
    have hsame : x.unitMagnitude = zero.unitMagnitude := hunits
    exact magnitude_eq_of_unitMagnitude hsame
  refine eq_of_magnitude ?_ hbits
  unfold units at h
  cases hx : x.isNegative <;> cases hy : y.isNegative <;>
    simp only [hx, hy, if_true, Bool.false_eq_true, if_false] at h ⊢ <;> omega

/-! ## The two zeros -/

/-- Numbers that differ at most in the sign of a zero. -/
def Alike (x y : Binary64) : Prop := x = y ∨ x.magnitude = 0 ∧ y.magnitude = 0

theorem Alike.refl (x : Binary64) : x.Alike x := .inl rfl

theorem alike_of_equal (h : x.equal y = true) : x.Alike y := by
  rw [equal, beq_iff_eq, compare?] at h
  split at h
  · cases h
  · have hunits := Int.compare_eq_eq.mp (Option.some.inj h)
    by_cases hx : x.magnitude = 0
    · by_cases hy : y.magnitude = 0
      · exact .inr ⟨hx, hy⟩
      · exact .inl (eq_of_units hunits.symm hy).symm
    · exact .inl (eq_of_units hunits hx)

section Zero

variable (h : x.magnitude = 0)
include h

theorem isNaN_of_zero : x.isNaN = false := by
  rw [isNaN, h]
  rfl

theorem isInfinite_of_zero : x.isInfinite = false := by
  rw [isInfinite, h]
  rfl

theorem units_of_zero : x.units = 0 := by
  rw [units, unitMagnitude_of_zero h]
  exact ite_self _

end Zero

theorem Alike.isNaN (h : x.Alike y) : x.isNaN = y.isNaN := by
  rcases h with rfl | ⟨hx, hy⟩
  · rfl
  · rw [isNaN_of_zero hx, isNaN_of_zero hy]

theorem Alike.units (h : x.Alike y) : x.units = y.units := by
  rcases h with rfl | ⟨hx, hy⟩
  · rfl
  · rw [units_of_zero hx, units_of_zero hy]

theorem Alike.compare? {x' y' : Binary64} (h : x.Alike x') (h' : y.Alike y') : x.compare? y = x'.compare? y' := by
  simp only [Binary64.compare?, h.isNaN, h'.isNaN, h.units, h'.units]

theorem Alike.equal {x' y' : Binary64} (h : x.Alike x') (h' : y.Alike y') : x.equal y = x'.equal y' := by
  simp only [Binary64.equal, h.compare? h']

theorem Alike.compareInt (h : x.Alike y) (i : Int) : Binary64.compareInt i x = Binary64.compareInt i y := by
  simp only [Binary64.compareInt, truncate, Binary64.compare?, h.isNaN, h.units]

theorem magnitude_signedZero (negative : Bool) : (signedZero negative).magnitude = 0 :=
  magnitude_ofMagnitude negative (by decide)

theorem magnitude_ofUnits_zero (negative : Bool) {num : Nat} (h : num = 0) (den : Nat) :
    (ofUnits negative num den).magnitude = 0 := by
  have hnone : roundHalfEven 0 (den * Nat.pow 2 0) = 0 := by simp [roundHalfEven]
  simp only [h, ofUnits, Nat.zero_div, Nat.log2_zero, Nat.zero_sub, Nat.zero_mul, hnone]
  exact magnitude_signedZero negative

section Arithmetic

variable {x' y' : Binary64} (h : x.Alike x') (h' : y.Alike y')
include h h'

theorem Alike.add : (x.add y).Alike (x'.add y') := by
  simp only [Binary64.add, h.isNaN, h'.isNaN, h.units, h'.units]
  grind [Alike, isInfinite_of_zero, magnitude_signedZero]

theorem Alike.mul : (x.mul y).Alike (x'.mul y') := by
  simp only [Binary64.mul, h.isNaN, h'.isNaN]
  grind [Alike, isInfinite_of_zero, unitMagnitude_of_zero, magnitude_ofUnits_zero]

theorem Alike.div (hy : y.magnitude ≠ 0) : (x.div y).Alike (x'.div y') := by
  simp only [Binary64.div, h.isNaN, h'.isNaN]
  grind [Alike, isInfinite_of_zero, unitMagnitude_of_zero, magnitude_ofUnits_zero, magnitude_signedZero]

end Arithmetic

theorem Alike.neg (h : x.Alike y) : x.neg.Alike y.neg := by
  rcases h with rfl | ⟨hx, hy⟩
  · exact .refl _
  · refine .inr ⟨?_, ?_⟩
    · rw [Binary64.neg, hx]
      exact magnitude_signedZero _
    · rw [Binary64.neg, hy]
      exact magnitude_signedZero _

end Binary64

/-! ## Values -/

namespace Value

variable {a a' b b' : Value}

/-- Values that differ at most in the sign of a zero. -/
inductive Alike : Value → Value → Prop where
  | refl (a : Value) : Alike a a
  | real {x y : Binary64} (h : x.Alike y) : Alike (.real x) (.real y)

theorem Alike.isNull (h : Alike a b) : a.isNull = b.isNull := by
  cases h <;> rfl

theorem Alike.toReal (h : Alike a b) : a.toReal.Alike b.toReal := by
  cases h with
  | refl => exact .refl _
  | real h => exact h

theorem Alike.truth? (h : Alike a b) : a.truth? = b.truth? := by
  cases h with
  | refl => rfl
  | real h => exact congrArg (fun zero => some (!zero)) (h.equal (.refl Binary64.zero))

/-- The order does not see the sign of a zero. -/
theorem Alike.order (h : Alike a a') (h' : Alike b b') : a.order b = a'.order b' := by
  cases h with
  | refl =>
    cases h' with
    | refl => rfl
    | real h' =>
      cases a with
      | int i => exact h'.compareInt i.toInt
      | real x => simp only [Value.order, Value.compare?, (Binary64.Alike.refl x).compare? h']
      | _ => rfl
  | real h =>
    cases h' with
    | refl =>
      cases b with
      | int i => exact congrArg Ordering.swap (h.compareInt i.toInt)
      | real y => simp only [Value.order, Value.compare?, h.compare? (Binary64.Alike.refl y)]
      | _ => rfl
    | real h' => simp only [Value.order, Value.compare?, h.compare? h']

theorem Alike.ofReal {x y : Binary64} (h : x.Alike y) : Alike (ofReal x) (ofReal y) := by
  simp only [Value.ofReal, h.isNaN]
  split
  · exact .refl _
  · exact .real h

/-- An operation that gives reals which are alike where it is given such reals, does so on values. -/
theorem Alike.arithmetic {onInts : Int → Int → Int} {onReals : Binary64 → Binary64 → Binary64}
    (hreals : (onReals a.toReal b.toReal).Alike (onReals a'.toReal b'.toReal)) (h : Alike a a')
    (h' : Alike b b') : Alike (arithmetic onInts onReals a b) (arithmetic onInts onReals a' b') := by
  cases h with
  | refl =>
    cases h' with
    | refl => exact .refl _
    | real =>
      cases a with
      | null => exact .refl _
      | _ => exact .ofReal hreals
  | real =>
    cases h' with
    | refl =>
      cases b with
      | null => exact .refl _
      | _ => exact .ofReal hreals
    | real => exact .ofReal hreals

theorem Alike.div (h : Alike a a') (h' : Alike b b') : Alike (a.div b) (a'.div b') := by
  unfold Value.div
  have hzero := h'.toReal.equal (.refl Binary64.zero)
  rw [h.isNull, h'.isNull, ← hzero]
  split
  · exact .refl _
  · split
    · exact .refl _
    · rename_i hdivisor
      refine .arithmetic (h.toReal.div h'.toReal fun hzero => hdivisor ?_) h h'
      rw [Binary64.equal, Binary64.compare?, Binary64.isNaN_of_zero hzero, Binary64.units_of_zero hzero]
      rfl

end Value

/-! ## Expressions -/

open Value (Alike)

/-- **An operator does not see the sign of a zero**, other than in the sign of a zero that it gives. -/
theorem Operator.apply_alike (operator : Operator) {a a' b b' : Value} (h : Alike a a') (h' : Alike b b') :
    Alike (operator.apply a b) (operator.apply a' b') := by
  cases operator with
  | add => exact .arithmetic (h.toReal.add h'.toReal) h h'
  | subtract => exact .arithmetic (h.toReal.add h'.toReal.neg) h h'
  | multiply => exact .arithmetic (h.toReal.mul h'.toReal) h h'
  | divide => exact h.div h'
  | and | or =>
    simp only [Operator.apply, h.truth?, h'.truth?]
    exact .refl _
  | eq | ne | lt | le | gt | ge =>
    simp only [Operator.apply, h.isNull, h'.isNull, h.order h']
    exact .refl _

theorem Value.alike_of_sameLiteral : ∀ {a b : Value}, a.sameLiteral b = true → Alike a b
  | .real _, .real _, h => .real (Binary64.alike_of_equal h)
  | .null, .null, _ => .refl _
  | .int _, .int _, h => by rw [eq_of_beq h]; exact .refl _
  | .text _, .text _, h => by rw [eq_of_beq h]; exact .refl _
  | .blob _, .blob _, h => by rw [eq_of_beq h]; exact .refl _

/-- **Expressions that are the same have values that are alike.** -/
theorem Expr.alike_eval (read : Place → Value) : ∀ {e e' : Resolved}, e.same e' = true →
    Alike (e.eval read) (e'.eval read)
  | .ref _, .ref _, h => by
    rw [eq_of_beq (show (_ == _) = true from h)]
    exact .refl _
  | .lit _, .lit _, h => Value.alike_of_sameLiteral h
  | .binary operator left right, .binary operator' left' right', h => by
    simp only [same, Bool.and_eq_true, beq_iff_eq] at h
    obtain ⟨⟨rfl, hleft⟩, hright⟩ := h
    exact operator.apply_alike (alike_eval read hleft) (alike_eval read hright)
  | .aggregate _ _, .aggregate _ _, _ => .refl _

end QueryMachine
