import QueryMachine.Error
import QueryMachine.Record.SerialType
import QueryMachine.Varint

/-!
# Records

A record is a row as bytes: the length of its header, one serial type for each value, then the
bodies of the values in the same order. Lengths and types are variable-length integers, and the
header's length counts itself.

* `encode` — a row as bytes, in the shortest form; a row has at least one value.
* `decodeHeader`, `decode` — the reading side, with an exact refusal for malformed bytes.
-/

namespace QueryMachine.Record

/-! ## Writing -/

/-- The least header length from `guess` on that has room for itself and the types: a guess that is
too small is replaced by the room it would need. -/
def headerLengthFrom (typesLength guess : Nat) : Nat :=
  if Varint.length guess + typesLength ≤ guess then guess
  else headerLengthFrom typesLength (Varint.length guess + typesLength)
termination_by typesLength + 9 - guess
decreasing_by
  have := Varint.length_le_nine guess
  omega

def headerLength (typesLength : Nat) : Nat := headerLengthFrom typesLength (typesLength + 1)

/-- A serial type or a length as bytes. -/
def encodeNat (n : Nat) : Bytes := Varint.encode (UInt64.ofNat n)

/-- The body of a value: an integer takes as many of its low bytes as its serial type says. -/
def encodeBody : Value → Bytes
  | .null => []
  | .int i =>
    Bytes.ofNat ((SerialType.bodyLength? (SerialType.ofInt i.toInt)).getD 0) i.toUInt64.toNat
  | .real x => Bytes.ofNat 8 x.bits.toNat
  | .text s => Text.toBytes s
  | .blob bytes => bytes

/-- How many bytes the serial types of a row take. -/
def typesLength (values : List Value) : Nat :=
  values.foldr (fun v rest => Varint.length (SerialType.ofValue v) + rest) 0

/-- How many bytes the bodies of a row take. -/
def bodiesLength (values : List Value) : Nat :=
  values.foldr (fun v rest => (SerialType.bodyLength? (SerialType.ofValue v)).getD 0 + rest) 0

/-- How many bytes the record of a row takes. -/
def encodedLength (values : List Value) : Nat :=
  headerLength (typesLength values) + bodiesLength values

/-- The longest byte string that memory can hold. -/
def maxLength : Nat := 0x7FFFFFFFFFFFFFFF

def encodeHeader (values : List Value) : Bytes :=
  encodeNat (headerLength (typesLength values))
    ++ values.flatMap fun v => encodeNat (SerialType.ofValue v)

/-- A row as bytes. A record that memory cannot hold is not made. -/
def encode (values : List Value) : Except Error Bytes :=
  if values.isEmpty then .error .emptyRecord
  else if maxLength < encodedLength values then .error (.internal "record too long")
  else .ok (encodeHeader values ++ values.flatMap encodeBody)

/-! ## Reading -/

structure Header where
  length : Nat
  types : List Nat
deriving DecidableEq, Repr

/-- The serial types from `offset` up to the declared end of the header. -/
def decodeTypes (declared offset : Nat) (rest : Bytes) : Except Error (List Nat) :=
  if declared ≤ offset then .ok []
  else
    match _read : Varint.decode? rest with
    | none => .error (.invalidVarint offset)
    | some (code, after) =>
      let next := offset + (rest.length - after.length)
      if declared < next then .error (.headerLengthMismatch declared next)
      else
        match decodeTypes declared next after with
        | .ok types => .ok (code.toNat :: types)
        | .error e => .error e
termination_by rest.length
decreasing_by exact Varint.decode?_shortens _read

def decodeHeader (bytes : Bytes) : Except Error Header :=
  if bytes.isEmpty then .error (.truncatedHeader "record is empty")
  else
    match Varint.decode? bytes with
    | none => .error (.invalidVarint 0)
    | some (declared, rest) =>
      let first := bytes.length - rest.length
      if declared.toNat < first || bytes.length < declared.toNat then
        .error (.truncatedHeader ("declared header length " ++ toString declared.toNat ++ " but "
          ++ toString bytes.length ++ " bytes present"))
      else
        match decodeTypes declared.toNat first rest with
        | .ok types => .ok ⟨declared.toNat, types⟩
        | .error e => .error e

/-- The integer that two's complement bytes write, most significant first. -/
def signedValue (bytes : Bytes) : Int :=
  match bytes with
  | [] => 0
  | b :: _ =>
    if 128 ≤ b.toNat then (Bytes.toNat bytes : Int) - Nat.pow 256 bytes.length
    else Bytes.toNat bytes

/-- The value of a body with the given serial type, which stands in the given column. -/
def decodeBody (code column : Nat) (body : Bytes) : Except Error Value :=
  match SerialType.kind code with
  | .null => .ok .null
  | .zero => .ok (.int 0)
  | .one => .ok (.int 1)
  | .integer => .ok (.int (Int64.ofInt (signedValue body)))
  | .real => .ok (.real ⟨UInt64.ofNat (Bytes.toNat body)⟩)
  | .blob => .ok (.blob body)
  | .text =>
    match Text.ofBytes? body with
    | some s => .ok (.text s)
    | none => .error (.invalidText column)
  | .reserved => .error (.reservedSerialType code column)

/-- The values of the bodies that follow a header, from the given column on. -/
def decodeBodies : (types : List Nat) → (column : Nat) → Bytes → Except Error (List Value)
  | [], _, _ => .ok []
  | code :: types, column, rest =>
    match SerialType.bodyLength? code with
    | none => .error (.reservedSerialType code column)
    | some needed =>
      if rest.length < needed then .error (.truncatedBody column needed rest.length)
      else
        match decodeBody code column (rest.take needed) with
        | .error e => .error e
        | .ok value =>
          match decodeBodies types (column + 1) (rest.drop needed) with
          | .error e => .error e
          | .ok values => .ok (value :: values)

/-- The row that a record holds. Bytes after the last body are ignored. -/
def decode (bytes : Bytes) : Except Error (List Value) :=
  match decodeHeader bytes with
  | .error e => .error e
  | .ok header => decodeBodies header.types 0 (bytes.drop header.length)

end QueryMachine.Record
