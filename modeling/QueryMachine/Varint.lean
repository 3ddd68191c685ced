import QueryMachine.Bytes

/-!
# Variable-length integers

A 64-bit number takes one to nine bytes, most significant first. The first eight bytes carry seven
bits each and a mark that more follow; a ninth byte carries eight bits and needs no mark.

* `encode` — the shortest form.
* `decode?` — the number at the front and the bytes after it; nothing when the bytes end inside it.
* `write` — the shortest form put into the front of a buffer, if it fits.
-/

namespace QueryMachine.Varint

/-- The least number that takes nine bytes: eight of them carry seven bits each. -/
def longFrom : Nat := 0x100000000000000

/-- How many bytes a number below `longFrom` takes. -/
def shortLength (n : Nat) : Nat :=
  if n < 128 then 1 else shortLength (n / 128) + 1
termination_by n
decreasing_by omega

/-- How many bytes a number takes. -/
def length (n : Nat) : Nat := if longFrom ≤ n then 9 else shortLength n

/-- Seven more bits take one more byte. -/
theorem shortLength_le_succ {bound count : Nat} (h : ∀ n, n < bound → shortLength n ≤ count)
    (positive : 1 ≤ count) : ∀ n, n < bound * 128 → shortLength n ≤ count + 1 := by
  intro n small
  rw [shortLength]
  split
  · omega
  · have shorter := h (n / 128) (by omega)
    omega

/-- No number takes more than nine bytes. -/
theorem length_le_nine (n : Nat) : length n ≤ 9 := by
  have one : ∀ n, n < 128 → shortLength n ≤ 1 := by
    intro n small
    rw [shortLength]
    split <;> omega
  have two := shortLength_le_succ one (by omega)
  have three := shortLength_le_succ two (by omega)
  have four := shortLength_le_succ three (by omega)
  have five := shortLength_le_succ four (by omega)
  have six := shortLength_le_succ five (by omega)
  have seven := shortLength_le_succ six (by omega)
  have eight := shortLength_le_succ seven (by omega)
  unfold length
  split
  · omega
  · rename_i small
    have := eight n (by simp only [longFrom] at small; omega)
    omega

/-- `count` bytes of seven bits each, all marked as followed by more. -/
def marked : (count n : Nat) → Bytes
  | 0, _ => []
  | count + 1, n => marked count (n / 128) ++ [UInt8.ofNat (n % 128 + 128)]

/-- The shortest form of a number. -/
def encode (value : UInt64) : Bytes :=
  let n := value.toNat
  if longFrom ≤ n then marked 8 (n / 256) ++ [UInt8.ofNat (n % 256)]
  else marked (shortLength n - 1) (n / 128) ++ [UInt8.ofNat (n % 128)]

/-- Reads on with `count` bytes of seven bits left before the byte of eight. -/
def decodeFrom : (count value : Nat) → Bytes → Option (Nat × Bytes)
  | _, _, [] => none
  | 0, value, b :: rest => some (value * 256 + b.toNat, rest)
  | count + 1, value, b :: rest =>
    if b.toNat < 128 then some (value * 128 + b.toNat, rest)
    else decodeFrom count (value * 128 + (b.toNat - 128)) rest

/-- The number at the front of the bytes, and the bytes after it. -/
def decode? (bytes : Bytes) : Option (UInt64 × Bytes) :=
  match decodeFrom 8 0 bytes with
  | some (n, rest) => some (UInt64.ofNat n, rest)
  | none => none

/-- The number at the front of the bytes, and how many bytes it takes. -/
def read? (bytes : Bytes) : Option (UInt64 × Nat) :=
  match decode? bytes with
  | some (n, rest) => some (n, bytes.length - rest.length)
  | none => none

/-- The buffer with the number at its front, and how many bytes that took: none when the buffer is
too short, which is then left as it is. -/
def write (buffer : Bytes) (value : UInt64) : Nat × Bytes :=
  let form := encode value
  if buffer.length < form.length then (0, buffer)
  else (form.length, form ++ buffer.drop form.length)

theorem decodeFrom_shortens {count value : Nat} {bytes rest : Bytes} {n : Nat}
    (h : decodeFrom count value bytes = some (n, rest)) : rest.length < bytes.length := by
  induction bytes generalizing count value with
  | nil => cases count <;> simp [decodeFrom] at h
  | cons b bytes ih =>
    cases count with
    | zero =>
      simp only [decodeFrom, Option.some.injEq, Prod.mk.injEq] at h
      simp [← h.2]
    | succ count =>
      simp only [decodeFrom] at h
      split at h
      · simp only [Option.some.injEq, Prod.mk.injEq] at h
        simp [← h.2]
      · exact Nat.lt_succ_of_lt (ih h)

/-- Reading takes at least one byte. -/
theorem decode?_shortens {bytes rest : Bytes} {n : UInt64} (h : decode? bytes = some (n, rest)) :
    rest.length < bytes.length := by
  unfold decode? at h
  split at h
  · rename_i read
    simp only [Option.some.injEq, Prod.mk.injEq] at h
    exact h.2 ▸ decodeFrom_shortens read
  · cases h

end QueryMachine.Varint
