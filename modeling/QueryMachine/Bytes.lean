/-!
# Byte strings

Big-endian numbers in bytes, and the digits in which bytes are shown.
-/

namespace QueryMachine

abbrev Bytes := List UInt8

namespace Bytes

/-- The `width` low bytes of `n`, most significant first. -/
def ofNat : (width n : Nat) → Bytes
  | 0, _ => []
  | width + 1, n => ofNat width (n / 256) ++ [UInt8.ofNat (n % 256)]

/-- The number that bytes write, most significant first. -/
def toNat (bytes : Bytes) : Nat := bytes.foldl (fun n b => n * 256 + b.toNat) 0

/-- A hexadecimal digit, with letters in capitals. -/
def hexDigit (n : Nat) : Char :=
  if n < 10 then Char.ofNat ('0'.toNat + n) else Char.ofNat ('A'.toNat + (n - 10))

/-- Two hexadecimal digits for each byte. -/
def hex (bytes : Bytes) : List Char :=
  bytes.flatMap fun b => [hexDigit (b.toNat / 16), hexDigit (b.toNat % 16)]

end Bytes

end QueryMachine
