import QueryMachine.Value

/-!
# Serial types

The code in a record's header that says what a value is and how many bytes its body takes.

| code | body | meaning |
|---|---|---|
| 0 | none | NULL |
| 1 to 6 | 1, 2, 3, 4, 6, 8 bytes | an integer, most significant byte first |
| 7 | 8 bytes | a real |
| 8, 9 | none | the integers 0 and 1 |
| 10, 11 | | reserved |
| even from 12 | (code - 12) / 2 bytes | a blob |
| odd from 13 | (code - 13) / 2 bytes | a text |
-/

namespace QueryMachine.SerialType

/-- What a code describes. -/
inductive Kind where
  | null
  | integer
  | real
  | zero
  | one
  | reserved
  | blob
  | text
deriving DecidableEq, Repr

def kind (code : Nat) : Kind :=
  if code = 0 then .null
  else if code ≤ 6 then .integer
  else if code = 7 then .real
  else if code = 8 then .zero
  else if code = 9 then .one
  else if code ≤ 11 then .reserved
  else if code % 2 = 0 then .blob
  else .text

/-- How many bytes the body takes; undefined for the reserved codes. -/
def bodyLength? (code : Nat) : Option Nat :=
  match kind code with
  | .null => some 0
  | .zero => some 0
  | .one => some 0
  | .integer => some (if code ≤ 4 then code else if code = 5 then 6 else 8)
  | .real => some 8
  | .reserved => none
  | .blob => some ((code - 12) / 2)
  | .text => some ((code - 13) / 2)

/-- The code with the shortest body that holds an integer. -/
def ofInt (i : Int) : Nat :=
  if i = 0 then 8
  else if i = 1 then 9
  else if -0x80 ≤ i ∧ i < 0x80 then 1
  else if -0x8000 ≤ i ∧ i < 0x8000 then 2
  else if -0x800000 ≤ i ∧ i < 0x800000 then 3
  else if -0x80000000 ≤ i ∧ i < 0x80000000 then 4
  else if -0x800000000000 ≤ i ∧ i < 0x800000000000 then 5
  else 6

def ofValue : Value → Nat
  | .null => 0
  | .int i => ofInt i.toInt
  | .real _ => 7
  | .text s => 13 + 2 * s.utf8ByteSize
  | .blob bytes => 12 + 2 * bytes.length

end QueryMachine.SerialType
