import Mathlib.Algebra.Ring.Int.Defs
import Mathlib.Algebra.Ring.Nat
import QueryMachine.Varint

/-!
# Variable-length integers read back

* `decode?_encode` — what was written is read back, and the bytes after it are untouched.
* `encode_length` — the shortest form takes `length` bytes.
-/

namespace QueryMachine.Varint

theorem toNat_ofNat_byte {n : Nat} (h : n < 256) : (UInt8.ofNat n).toNat = n := by
  rw [UInt8.toNat_ofNat']
  exact Nat.mod_eq_of_lt h

theorem marked_length : ∀ (count n : Nat), (marked count n).length = count
  | 0, _ => rfl
  | count + 1, n => by simp [marked, marked_length count]

theorem lt_pow_shortLength (n : Nat) : n < 128 ^ shortLength n := by
  induction n using Nat.strongRecOn with
  | ind n ih =>
    rw [shortLength]
    split
    · simpa using ‹n < 128›
    · have := ih (n / 128) (by omega)
      rw [Nat.pow_succ]
      omega

theorem shortLength_pos (n : Nat) : 0 < shortLength n := by
  rw [shortLength]
  split <;> omega

theorem shortLength_le {n count : Nat} (hc : 0 < count) (h : n < 128 ^ count) : shortLength n ≤ count := by
  induction count generalizing n with
  | zero => omega
  | succ count ih =>
    rw [shortLength]
    split
    · omega
    · rename_i hn
      rw [Nat.pow_succ] at h
      have hpos : 0 < count := by
        rcases Nat.eq_zero_or_pos count with rfl | hpos
        · simp at h
          omega
        · exact hpos
      have := ih (n := n / 128) hpos (by omega)
      omega

theorem shortLength_le_eight {n : Nat} (h : n < longFrom) : shortLength n ≤ 8 :=
  shortLength_le (by omega) (by simpa [longFrom] using h)

/-- Marked bytes only add to the number read so far. -/
theorem decodeFrom_marked (rest : Bytes) : ∀ (k count value n : Nat), k ≤ count →
    decodeFrom count value (marked k n ++ rest) = decodeFrom (count - k) (value * 128 ^ k + n % 128 ^ k) rest := by
  intro k
  induction k generalizing rest with
  | zero =>
    intro count value n _
    simp [marked, Nat.mod_one]
  | succ k ih =>
    intro count value n h
    have hbyte : (UInt8.ofNat (n % 128 + 128)).toNat = n % 128 + 128 :=
      toNat_ofNat_byte (by omega)
    obtain ⟨m, hm⟩ : ∃ m, count - k = m + 1 := ⟨count - k - 1, by omega⟩
    have hmod : n % 128 ^ (k + 1) = (n / 128) % 128 ^ k * 128 + n % 128 := by
      rw [Nat.pow_succ, Nat.mul_comm, Nat.mod_mul]
      omega
    rw [marked, List.append_assoc, ih _ count value (n / 128) (by omega), hm]
    simp only [List.cons_append, List.nil_append, decodeFrom, hbyte]
    have hvalue : (value * 128 ^ k + n / 128 % 128 ^ k) * 128 + (n % 128 + 128 - 128) =
        value * 128 ^ (k + 1) + n % 128 ^ (k + 1) := by
      rw [hmod, Nat.pow_succ, ← Nat.mul_assoc, Nat.add_mul]
      omega
    rw [if_neg (by omega), show count - (k + 1) = m by omega, hvalue]

theorem decodeFrom_encode (value : UInt64) (rest : Bytes) :
    decodeFrom 8 0 (encode value ++ rest) = some (value.toNat, rest) := by
  have hmax := value.toNat_lt
  unfold encode
  simp only
  split
  · -- Nine bytes: the last one carries eight bits.
    rename_i hlong
    rw [List.append_assoc, decodeFrom_marked _ 8 8 0 _ (by omega)]
    simp only [List.cons_append, List.nil_append, decodeFrom,
      toNat_ofNat_byte (show value.toNat % 256 < 256 by omega), Nat.sub_self]
    rw [Nat.mod_eq_of_lt (show value.toNat / 256 < 128 ^ 8 by omega)]
    congr 2
    omega
  · rename_i hshort
    have hlen := shortLength_le_eight (Nat.lt_of_not_le hshort)
    have hpos := shortLength_pos value.toNat
    have hfit : value.toNat / 128 < 128 ^ (shortLength value.toNat - 1) := by
      have := lt_pow_shortLength value.toNat
      rw [show shortLength value.toNat = shortLength value.toNat - 1 + 1 by omega,
        Nat.pow_succ] at this
      omega
    obtain ⟨m, hm⟩ : ∃ m, 8 - (shortLength value.toNat - 1) = m + 1 :=
      ⟨8 - shortLength value.toNat, by omega⟩
    rw [List.append_assoc, decodeFrom_marked _ _ 8 0 _ (by omega), hm, Nat.mod_eq_of_lt hfit]
    simp only [List.cons_append, List.nil_append, decodeFrom,
      toNat_ofNat_byte (show value.toNat % 128 < 256 by omega)]
    rw [if_pos (by omega)]
    congr 2
    omega

/-- **What was written is read back, and the bytes after it are untouched.** -/
theorem decode?_encode (value : UInt64) (rest : Bytes) : decode? (encode value ++ rest) = some (value, rest) := by
  unfold decode?
  rw [decodeFrom_encode]
  simp

/-- The shortest form takes as many bytes as `length` says. -/
theorem encode_length (value : UInt64) : (encode value).length = length value.toNat := by
  have := shortLength_pos value.toNat
  unfold encode length
  simp only
  split
  · simp [marked_length]
  · simp [marked_length]
    omega

theorem length_eq_min (n : Nat) : length n = min 9 (shortLength n) := by
  unfold length
  split
  · rename_i hlong
    have hlt := lt_pow_shortLength n
    have hnine : ¬ shortLength n ≤ 8 := by
      intro hle
      have hpow : 128 ^ shortLength n ≤ 128 ^ 8 := Nat.pow_le_pow_right (by omega) hle
      simp only [longFrom] at hlong
      omega
    omega
  · have := shortLength_le_eight (n := n) (by omega)
    omega

theorem length_mono {m n : Nat} (h : m ≤ n) : length m ≤ length n := by
  have hshort : shortLength m ≤ shortLength n :=
    shortLength_le (shortLength_pos n) (Nat.lt_of_le_of_lt h (lt_pow_shortLength n))
  rw [length_eq_min, length_eq_min]
  omega

/-- A number that is a little larger takes at most one byte more. -/
theorem length_add_le (n : Nat) {more : Nat} (h : more ≤ 128) : length (n + more) ≤ length n + 1 := by
  have hlt := lt_pow_shortLength n
  have hpow : 128 ^ 1 ≤ 128 ^ shortLength n := Nat.pow_le_pow_right (by omega) (shortLength_pos n)
  have hshort : shortLength (n + more) ≤ shortLength n + 1 := by
    refine shortLength_le (Nat.succ_pos _) ?_
    rw [Nat.pow_succ]
    omega
  rw [length_eq_min, length_eq_min]
  omega

theorem length_pos (n : Nat) : 0 < length n := by
  unfold length
  split
  · omega
  · exact shortLength_pos n

end QueryMachine.Varint
