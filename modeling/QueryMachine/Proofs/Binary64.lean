import Mathlib.Algebra.Ring.Int.Defs
import Mathlib.Algebra.Ring.Nat
import QueryMachine.Binary64

/-!
# Exact order of integers and binary64 numbers

A number is a significand of 53 bits times a power of two. What has that form is its own rounding, and
from `2 ^ 53` on every number is whole. So an integer is rounded only where that does not change it.

* `units_ofUnits` — a number that has a place in the format is its own rounding.
* `compareInt_eq` — an integer and a number compare as what they are, without rounding.
-/

namespace QueryMachine.Binary64

variable {x : Binary64} {i : Int} {m one : Nat}

/-- The exponent is a variable, so that the power is not computed where the lemma is used. -/
theorem unitsPerOne_eq : ∃ k, k = 1074 ∧ unitsPerOne = 2 ^ k := ⟨1074, rfl, by decide +kernel⟩

theorem unitsPerOne_pos : 0 < unitsPerOne := by
  obtain ⟨k, -, hk⟩ := unitsPerOne_eq
  exact hk ▸ Nat.two_pow_pos k

/-! ## Sign and magnitude -/

theorem magnitude_ofMagnitude (negative : Bool) (h : m < signBit) : (ofMagnitude negative m).magnitude = m := by
  simp only [signBit] at h
  unfold magnitude ofMagnitude
  cases negative with
  | false =>
    simp only [Bool.false_eq_true, if_false, UInt64.toNat_ofNat', signBit]
    omega
  | true =>
    simp only [if_true, UInt64.toNat_ofNat', signBit]
    omega

theorem isNegative_ofMagnitude (negative : Bool) (h : m < signBit) :
    (ofMagnitude negative m).isNegative = negative := by
  simp only [signBit] at h
  unfold isNegative ofMagnitude
  cases negative with
  | false =>
    simp only [Bool.false_eq_true, if_false, UInt64.toNat_ofNat', signBit, decide_eq_false_iff_not]
    omega
  | true =>
    simp only [if_true, UInt64.toNat_ofNat', signBit, decide_eq_true_eq]
    omega

/-- The bits without the sign are a shift and a significand, which is normal where it is shifted. -/
theorem magnitude_split (x : Binary64) :
    ∃ significand shift, significand < 2 * hiddenBit ∧ (shift = 0 ∨ hiddenBit ≤ significand) ∧
      x.magnitude = shift * hiddenBit + significand ∧ x.unitMagnitude = significand * 2 ^ shift := by
  have hfraction : x.fraction < hiddenBit := Nat.mod_lt _ (by decide)
  have hfields : x.magnitude = x.exponentField * hiddenBit + x.fraction :=
    (Nat.div_add_mod' x.magnitude hiddenBit).symm
  unfold unitMagnitude
  split
  · rename_i hzero
    exact ⟨x.fraction, 0, by omega, .inl rfl, by rw [hfields, hzero], by simp⟩
  · rename_i hnormal
    refine ⟨hiddenBit + x.fraction, x.exponentField - 1, by omega, .inr (by omega), ?_, rfl⟩
    obtain ⟨k, hk⟩ := Nat.exists_eq_succ_of_ne_zero hnormal
    rw [hfields, hk, Nat.succ_mul, Nat.succ_sub_one]
    omega

/-- From `2 ^ 53` on every number is whole. -/
theorem unitsPerOne_dvd_of_le (h : 2 * hiddenBit * unitsPerOne ≤ x.unitMagnitude) : unitsPerOne ∣ x.unitMagnitude := by
  obtain ⟨significand, exponent, hsmall, -, -, heq⟩ := x.magnitude_split
  obtain ⟨k, -, hk⟩ := unitsPerOne_eq
  rw [heq, hk] at h ⊢
  have hexponent : k ≤ exponent := by
    refine Nat.le_of_not_lt fun hlow => Nat.not_lt_of_le h ?_
    calc significand * 2 ^ exponent
        < 2 * hiddenBit * 2 ^ exponent := Nat.mul_lt_mul_of_pos_right hsmall (Nat.two_pow_pos _)
      _ ≤ 2 * hiddenBit * 2 ^ k :=
        Nat.mul_le_mul_left _ (Nat.pow_le_pow_right (by omega) (Nat.le_of_lt hlow))
  exact Nat.dvd_mul_left_of_dvd (Nat.pow_dvd_pow 2 hexponent) _

/-! ## Numbers of the format are their own rounding -/

theorem roundHalfEven_of_dvd {num den : Nat} (hpos : 0 < den) (h : den ∣ num) : roundHalfEven num den = num / den := by
  have hrest : num % den = 0 := Nat.mod_eq_zero_of_dvd h
  have hzero : ¬(decide (den < 2 * 0) || (2 * 0 == den && num / den % 2 == 1)) = true := by
    simp only [Bool.or_eq_true, decide_eq_true_eq, Bool.and_eq_true, beq_iff_eq]
    omega
  simp only [roundHalfEven, hrest, if_neg hzero]

/-- A significand and a shift are read back from the bits, where the shifted ones are normal. -/
theorem unitMagnitude_ofMagnitude (negative : Bool) {shift significand : Nat} (hsmall : significand < 2 * hiddenBit)
    (hnormal : shift = 0 ∨ hiddenBit ≤ significand) (hshift : shift ≤ 2045) :
    (ofMagnitude negative (shift * hiddenBit + significand)).unitMagnitude = significand * 2 ^ shift := by
  have hmagnitude := magnitude_ofMagnitude negative
    (m := shift * hiddenBit + significand) (by simp only [hiddenBit, signBit] at *; omega)
  unfold unitMagnitude exponentField fraction
  simp only [hmagnitude]
  by_cases hsub : significand < hiddenBit
  · obtain rfl : shift = 0 := by omega
    have hfield : (0 * hiddenBit + significand) / hiddenBit = 0 := by
      rw [Nat.zero_mul, Nat.zero_add, Nat.div_eq_of_lt hsub]
    rw [if_pos hfield, Nat.zero_mul, Nat.zero_add, Nat.mod_eq_of_lt hsub, Nat.pow_zero, Nat.mul_one]
  · have hfield : (shift * hiddenBit + significand) / hiddenBit = shift + 1 := by
      simp only [hiddenBit] at *
      omega
    have hfraction : (shift * hiddenBit + significand) % hiddenBit = significand - hiddenBit := by
      simp only [hiddenBit] at *
      omega
    rw [hfield, if_neg (Nat.succ_ne_zero shift), hfraction, Nat.add_sub_cancel' (Nat.le_of_not_lt hsub),
      Nat.add_sub_cancel]
    rfl

/-- **A number that has a place in the format is its own rounding.** -/
theorem units_ofUnits (negative : Bool) {n significand exponent : Nat} (hsmall : significand < 2 * hiddenBit)
    (hsplit : n = significand * 2 ^ exponent) (hfit : n < 2 ^ 2098) : (ofUnits negative n 1).isNaN = false ∧
      (ofUnits negative n 1).units = if negative then -(n : Int) else n := by
  have hbits : 2 * hiddenBit = 2 ^ 53 := by decide
  -- The shift takes away only factors of two that the number has.
  have hlog : n.log2 - 52 ≤ exponent ∧ n.log2 - 52 ≤ 2045 := by
    rcases Nat.eq_zero_or_pos n with rfl | hpos
    · simp
    · have hlarge : n < 2 ^ (53 + exponent) := by
        rw [Nat.pow_add, ← hbits, hsplit]
        exact Nat.mul_lt_mul_of_pos_right hsmall (Nat.two_pow_pos exponent)
      have hbelow := (Nat.log2_lt (Nat.ne_of_gt hpos)).mpr hlarge
      have hfits := (Nat.log2_lt (Nat.ne_of_gt hpos)).mpr hfit
      omega
  obtain ⟨hexponent, hshift⟩ := hlog
  generalize hs : n.log2 - 52 = shift at hexponent hshift
  have hdvd : 2 ^ shift ∣ n := hsplit ▸ Nat.dvd_mul_left_of_dvd (Nat.pow_dvd_pow 2 hexponent) _
  obtain ⟨q, rfl⟩ := hdvd
  have hquotient : 2 ^ shift * q / 2 ^ shift = q := Nat.mul_div_cancel_left q (Nat.two_pow_pos shift)
  have hround : roundHalfEven (2 ^ shift * q) (1 * Nat.pow 2 shift) = q := by
    rw [Nat.one_mul, Nat.pow_eq, roundHalfEven_of_dvd (Nat.two_pow_pos shift) (Nat.dvd_mul_right ..),
      hquotient]
  have hq : q < 2 * hiddenBit := by
    have hupper : 2 ^ shift * q < 2 ^ shift * 2 ^ 53 := by
      rw [← Nat.pow_add]
      exact Nat.lt_of_lt_of_le Nat.lt_log2_self (Nat.pow_le_pow_right (by omega) (by omega))
    exact hbits ▸ Nat.lt_of_mul_lt_mul_left hupper
  have hnormal : shift = 0 ∨ hiddenBit ≤ q := by
    by_cases hzero : shift = 0
    · exact .inl hzero
    · refine .inr ?_
      have hne : 2 ^ shift * q ≠ 0 := by
        intro h
        rw [h] at hs
        simp at hs
        omega
      have hlower : 2 ^ shift * 2 ^ 52 ≤ 2 ^ shift * q := by
        rw [← Nat.pow_add, show shift + 52 = (2 ^ shift * q).log2 by omega]
        exact Nat.log2_self_le hne
      exact Nat.le_of_mul_le_mul_left hlower (Nat.two_pow_pos shift)
  have hlow : shift * hiddenBit + q < infiniteMagnitude := by
    simp only [hiddenBit, infiniteMagnitude] at *
    omega
  have hsign : shift * hiddenBit + q < signBit := Nat.lt_trans hlow (by decide)
  have hof : ofUnits negative (2 ^ shift * q) 1 = ofMagnitude negative (shift * hiddenBit + q) := by
    simp only [ofUnits, Nat.div_one, hs, hround, Nat.min_eq_left (Nat.le_of_lt hlow)]
  rw [hof]
  constructor
  · simp only [isNaN, magnitude_ofMagnitude negative hsign, decide_eq_false_iff_not]
    omega
  · simp only [units, isNegative_ofMagnitude negative hsign,
      unitMagnitude_ofMagnitude negative hq hnormal hshift, Nat.mul_comm q]

/-! ## Integers -/

/-- An integer that is the integer part of a number is not changed by rounding. -/
theorem units_ofInt (hrange : i.natAbs ≤ 0x8000000000000000) (hpart : x.units.tdiv unitsPerOne = i) :
    (ofInt i).isNaN = false ∧ (ofInt i).units = i * unitsPerOne := by
  have hunits : (x.units.natAbs : Int) = x.unitMagnitude := by
    unfold units
    split <;> simp
  have habs : x.unitMagnitude / unitsPerOne = i.natAbs := by
    rw [← hpart, Int.natAbs_tdiv, Int.natAbs_natCast, Int.natCast_inj.mp hunits]
    rfl
  have hfit : i.natAbs * unitsPerOne < 2 ^ 2098 :=
    Nat.lt_of_le_of_lt (Nat.mul_le_mul_right _ hrange) (by decide +kernel)
  -- Either the integer has at most 53 bits, or the number is whole and so is the integer itself.
  obtain ⟨significand, exponent, hsmall, hsplit⟩ : ∃ significand exponent,
      significand < 2 * hiddenBit ∧ i.natAbs * unitsPerOne = significand * 2 ^ exponent := by
    by_cases hlow : i.natAbs < 2 * hiddenBit
    · obtain ⟨k, -, hk⟩ := unitsPerOne_eq
      exact ⟨i.natAbs, k, hlow, by rw [hk]⟩
    · have hle : 2 * hiddenBit * unitsPerOne ≤ x.unitMagnitude :=
        (Nat.le_div_iff_mul_le unitsPerOne_pos).mp (habs ▸ Nat.le_of_not_lt hlow)
      rw [← habs, Nat.div_mul_cancel (unitsPerOne_dvd_of_le hle)]
      obtain ⟨significand, exponent, hsmall, -, -, heq⟩ := x.magnitude_split
      exact ⟨significand, exponent, hsmall, heq⟩
  obtain ⟨hnan, hround⟩ := units_ofUnits (decide (i < 0)) hsmall hsplit hfit
  refine ⟨hnan, ?_⟩
  rw [ofInt, hround]
  split
  · rename_i hneg
    have hneg : i < 0 := of_decide_eq_true hneg
    rw [Int.natCast_mul, ← Int.neg_mul, show -(i.natAbs : Int) = i by omega]
  · rename_i hpos
    have hpos : ¬ i < 0 := fun h => hpos (decide_eq_true h)
    rw [Int.natCast_mul, show (i.natAbs : Int) = i by omega]

theorem toInt_clamp (hlow : -0x8000000000000000 ≤ i) (hhigh : i < 0x8000000000000000) :
    (Integer.clamp i).toInt = i := by
  unfold Integer.clamp
  rw [Int64.toInt_ofInt_of_le (by omega) (by omega)]
  omega

theorem tdiv_bounds (u : Int) (hone : 0 < one) :
    (u.tdiv one - 1) * one < u ∧ u < (u.tdiv one + 1) * one ∧ (0 ≤ u → u.tdiv one * one ≤ u) := by
  have hsplit := Int.mul_tdiv_add_tmod u one
  have hrest : (u.tmod one).natAbs < one := by
    rw [Int.natAbs_tmod, Int.natAbs_natCast]
    exact Nat.mod_lt _ hone
  have hsign : 0 ≤ u → 0 ≤ u.tmod one := Int.tmod_nonneg _
  rw [Int.sub_mul, Int.add_mul, Int.mul_comm (u.tdiv one)]
  omega

/-- The integer part of a number in the 64-bit range is in it. -/
theorem tdiv_range {u : Int} (hone : 0 < one) (hlow : -0x8000000000000000 * one ≤ u)
    (hhigh : u < 0x8000000000000000 * one) : -0x8000000000000000 ≤ u.tdiv one ∧ u.tdiv one < 0x8000000000000000 := by
  have hpos : (0 : Int) < one := Int.natCast_pos.mpr hone
  obtain ⟨hbelow, habove, hside⟩ := tdiv_bounds u hone
  constructor
  · have := Int.lt_of_mul_lt_mul_right (Int.lt_of_le_of_lt hlow habove) (Int.le_of_lt hpos)
    omega
  · rcases Int.le_total 0 u with hu | hu
    · exact Int.lt_of_mul_lt_mul_right (Int.lt_of_le_of_lt (hside hu) hhigh) (Int.le_of_lt hpos)
    · have hzero : (u.tdiv one - 1) * one < 0 * one := by
        rw [Int.zero_mul]
        exact Int.lt_of_lt_of_le hbelow hu
      have := Int.lt_of_mul_lt_mul_right hzero (Int.le_of_lt hpos)
      omega

/-- **An integer and a number compare as what they are**, without rounding. -/
theorem compareInt_eq (hlow : -0x8000000000000000 ≤ i) (hhigh : i < 0x8000000000000000) (hx : x.isNaN = false) :
    compareInt i x = compare (i * unitsPerOne) x.units := by
  have hone : (0 : Int) ≤ unitsPerOne := Int.natCast_nonneg _
  rw [compareInt, hx, if_neg Bool.false_ne_true]
  by_cases hbelow : x.units < -0x8000000000000000 * unitsPerOne
  · have hi := Int.mul_le_mul_of_nonneg_right hlow hone
    rw [if_pos hbelow]
    exact (Int.compare_eq_gt.mpr (by omega)).symm
  by_cases habove : 0x8000000000000000 * unitsPerOne ≤ x.units
  · have hi := Int.mul_lt_mul_of_pos_right hhigh (Int.natCast_pos.mpr unitsPerOne_pos)
    rw [if_neg hbelow, if_pos habove]
    exact (Int.compare_eq_lt.mpr (by omega)).symm
  obtain ⟨hfloor, hceil⟩ :=
    tdiv_range unitsPerOne_pos (Int.not_lt.mp hbelow) (Int.not_le.mp habove)
  obtain ⟨hunder, hover, -⟩ := tdiv_bounds x.units unitsPerOne_pos
  have hpart : x.truncate.toInt = x.units.tdiv unitsPerOne := by
    rw [truncate, hx, if_neg Bool.false_ne_true, toInt_clamp hfloor hceil]
  rw [if_neg hbelow, if_neg habove, hpart]
  rcases Int.lt_trichotomy i (x.units.tdiv unitsPerOne) with hlt | heq | hgt
  · have hi := Int.mul_le_mul_of_nonneg_right (Int.le_sub_one_of_lt hlt) hone
    rw [Int.compare_eq_lt.mpr hlt, Int.compare_eq_lt.mpr (by omega)]
    rfl
  · -- The integer parts are the same, so the integer keeps its worth as a number of the format.
    obtain ⟨hnan, hunits⟩ := units_ofInt (x := x) (by omega) heq.symm
    rw [Int.compare_eq_eq.mpr heq, compare?, hnan, hx, hunits]
    rfl
  · have hi := Int.mul_le_mul_of_nonneg_right (Int.add_one_le_of_lt hgt) hone
    rw [Int.compare_eq_gt.mpr hgt, Int.compare_eq_gt.mpr (by omega)]
    rfl

end QueryMachine.Binary64
