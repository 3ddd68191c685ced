import Mathlib.Logic.Function.Iterate
import Mathlib.Order.Bounds.Defs
import QueryMachine.Proofs.Record.Grammar

/-!
# Records are written in the shortest form

What is read as a record may have a length and types with leading zeros, integers in wider bodies than
they need, a header length that a shorter one could replace, and bytes after the last body. Each part of
a written record is no longer than the part of any record of the same row.

* `Varint.Form.length_le` — the shortest form of a number.
* `Varint.number_read_and_written` — what reading and writing numbers do, on all bytes.
* `Record.headerLength_le` — the least header length with room for itself and the types.
* `Record.headerLength_least` — how the search for it goes, and what it finds.
* `Record.Means.shortest` — the shortest body of a value, and the shortest type.
* `Record.encode_shortest` — the shortest record of a row.
-/

namespace QueryMachine

/-! ## Numbers -/

namespace Varint

theorem length_eq_one {n : Nat} (h : n < 128) : length n = 1 := by
  rw [length, if_neg (by simp only [longFrom]; omega), shortLength, if_pos h]

/-- **No form of a number is shorter than the one that is written.** -/
theorem Form.length_le {form : Bytes} {n : Nat} (h : Form form n) : length n ≤ form.length := by
  cases h with
  | @short lead last hlen _ hlast =>
    have hsmall : payload 0 lead * 128 + last.toNat < 128 ^ (lead.length + 1) := by
      have := payload_lt lead 0
      rw [Nat.pow_succ]
      omega
    have hshort : 128 ^ (lead.length + 1) ≤ longFrom :=
      Nat.le_trans (Nat.pow_le_pow_right (by omega) hlen) (by decide)
    rw [List.length_append, length, if_neg (by omega)]
    exact shortLength_le (Nat.succ_pos _) hsmall
  | @long lead last hlen _ =>
    rw [List.length_append, hlen]
    exact length_le_nine _

/-- Nothing is read where the bytes end among marked ones. -/
theorem decodeFrom_eq_none_iff {bytes : Bytes} (value : Nat) : ∀ {count : Nat},
    decodeFrom count value bytes = none ↔ bytes.length ≤ count ∧ ∀ b ∈ bytes, 128 ≤ b.toNat := by
  induction bytes generalizing value with
  | nil => simp [decodeFrom]
  | cons b bytes ih =>
    intro count
    cases count with
    | zero => simp [decodeFrom]
    | succ count =>
      rw [decodeFrom, List.length_cons, List.forall_mem_cons, Nat.add_le_add_iff_right]
      split
      · rename_i hlast
        simp only [reduceCtorEq, false_iff]
        omega
      · rename_i hmark
        rw [ih, and_left_comm, and_iff_right (Nat.not_lt.mp hmark)]

/-- A number and its length are read where the bytes begin with a form of it. -/
theorem read?_eq_some_iff {bytes : Bytes} {value : UInt64} {count : Nat} : read? bytes = some (value, count) ↔
      ∃ form rest, bytes = form ++ rest ∧ Form form value.toNat ∧ count = form.length := by
  have hread : read? bytes = some (value, count) ↔
      ∃ rest, decode? bytes = some (value, rest) ∧ count = bytes.length - rest.length := by
    unfold read?
    cases decode? bytes <;> grind
  rw [hread]
  constructor
  · rintro ⟨rest, hdecode, rfl⟩
    obtain ⟨form, rfl, hform⟩ := decode?_eq_some_iff.mp hdecode
    exact ⟨form, rest, rfl, hform, by simp⟩
  · rintro ⟨form, rest, rfl, hform, rfl⟩
    exact ⟨rest, decode?_eq_some_iff.mpr ⟨form, rfl, hform⟩, by simp⟩

theorem Form.length_le_nine {form : Bytes} {n : Nat} (h : Form form n) : form.length ≤ 9 := by
  cases h <;> simp <;> omega

/-- **A number is read back from its form, which no shorter bytes begin with; reading fails where the
bytes end among marked ones and otherwise looks at one to nine bytes; writing needs room for all.** -/
theorem number_read_and_written (n : UInt64) :
    (encode n).length = length n.toNat ∧ (∀ rest, read? (encode n ++ rest) = some (n, length n.toNat)) ∧
    (∀ bytes count, read? bytes = some (n, count) → length n.toNat ≤ count ∧ count ≤ bytes.length) ∧
    (∀ bytes, read? bytes = none ↔ bytes.length < 9 ∧ ∀ b ∈ bytes, 128 ≤ b.toNat) ∧
    (∀ bytes value count, read? bytes = some (value, count) → 1 ≤ count ∧ count ≤ 9 ∧
      ∀ after, read? (bytes.take count ++ after) = some (value, count)) ∧
    ∀ buffer, ((write buffer n).1 = 0 ↔ buffer.length < length n.toNat) ∧
      write buffer n = if buffer.length < length n.toNat then (0, buffer)
        else (length n.toNat, encode n ++ buffer.drop (length n.toNat)) := by
  refine ⟨encode_length n, fun rest => ?_, fun bytes count h => ?_, fun bytes => ?_, fun bytes value count h => ?_,
    fun buffer => ?_⟩
  · rw [read?, decode?_encode]
    simp [encode_length]
  · obtain ⟨form, rest, rfl, hform, rfl⟩ := read?_eq_some_iff.mp h
    exact ⟨hform.length_le, by simp⟩
  · rw [Nat.lt_succ_iff, ← decodeFrom_eq_none_iff 0]
    unfold read? decode?
    cases decodeFrom 8 0 bytes <;> simp
  · obtain ⟨form, rest, rfl, hform, rfl⟩ := read?_eq_some_iff.mp h
    refine ⟨hform.length_pos, hform.length_le_nine, fun after => ?_⟩
    exact read?_eq_some_iff.mpr ⟨form, after, by simp, hform, rfl⟩
  · have hpos := length_pos n.toNat
    simp only [write, encode_length]
    split <;> simp <;> omega

end Varint

/-! ## Bodies -/

namespace Bytes

theorem foldl_eq (bytes : Bytes) : ∀ n : Nat,
    bytes.foldl (fun n b => n * 256 + b.toNat) n = n * 256 ^ bytes.length + toNat bytes := by
  unfold toNat
  induction bytes with
  | nil => simp
  | cons b bytes ih =>
    intro n
    rw [List.foldl_cons, List.foldl_cons, ih, ih (0 * 256 + b.toNat), List.length_cons, Nat.pow_succ',
      Nat.add_mul, Nat.zero_mul, Nat.zero_add, Nat.mul_assoc, Nat.add_assoc]

theorem toNat_cons (b : UInt8) (bytes : Bytes) : toNat (b :: bytes) = b.toNat * 256 ^ bytes.length + toNat bytes := by
  rw [toNat, List.foldl_cons, foldl_eq, Nat.zero_mul, Nat.zero_add]

theorem toNat_lt : ∀ bytes : Bytes, toNat bytes < 256 ^ bytes.length
  | [] => by simp [toNat]
  | b :: bytes => by
    have hb := b.toNat_lt
    have hrest := toNat_lt bytes
    rw [toNat_cons, List.length_cons, Nat.pow_succ']
    calc b.toNat * 256 ^ bytes.length + toNat bytes
        < (b.toNat + 1) * 256 ^ bytes.length := by
          rw [Nat.add_mul]
          omega
      _ ≤ 256 * 256 ^ bytes.length := Nat.mul_le_mul_right _ hb

end Bytes

namespace Record

variable {body : Bytes} {code width : Nat}

/-- Two's complement bytes hold the integers up to their width. -/
theorem signedValue_range (h : body.length = width + 1) :
    -(128 * 256 ^ width : Nat) ≤ signedValue body ∧ signedValue body < (128 * 256 ^ width : Nat) := by
  obtain ⟨b, rest, rfl⟩ := List.exists_cons_of_length_eq_add_one h
  have hb := b.toNat_lt
  have hlen : rest.length = width := by simpa using h
  have hrest := Bytes.toNat_lt rest
  rw [hlen] at hrest
  have hpow : Nat.pow 256 (b :: rest).length = 256 * 256 ^ width := by
    rw [Nat.pow_eq, h, Nat.pow_succ']
  simp only [signedValue, hpow, Bytes.toNat_cons, hlen]
  split
  · rename_i hneg
    have hlow : 128 * 256 ^ width ≤ b.toNat * 256 ^ width := Nat.mul_le_mul_right _ hneg
    have hhigh : (b.toNat + 1) * 256 ^ width ≤ 256 * 256 ^ width := Nat.mul_le_mul_right _ hb
    rw [Nat.add_mul] at hhigh
    omega
  · rename_i hpos
    have hhigh : (b.toNat + 1) * 256 ^ width ≤ 128 * 256 ^ width :=
      Nat.mul_le_mul_right _ (by omega)
    rw [Nat.add_mul] at hhigh
    omega

theorem width_of_kind (hkind : SerialType.kind code = .integer) (hlen : SerialType.bodyLength? code = some width) :
    width = 1 ∨ width = 2 ∨ width = 3 ∨ width = 4 ∨ width = 6 ∨ width = 8 := by
  have hcode : 1 ≤ code ∧ code ≤ 6 := by
    unfold SerialType.kind at hkind
    grind
  simp only [SerialType.bodyLength?, hkind, Option.some.injEq] at hlen
  grind

/-- The bytes that an integer takes, by its size. -/
theorem length_encodeBody_int (i : Int64) : (encodeBody (.int i)).length = if i.toInt = 0 then 0
    else if i.toInt = 1 then 0 else if -0x80 ≤ i.toInt ∧ i.toInt < 0x80 then 1
    else if -0x8000 ≤ i.toInt ∧ i.toInt < 0x8000 then 2 else if -0x800000 ≤ i.toInt ∧ i.toInt < 0x800000 then 3
    else if -0x80000000 ≤ i.toInt ∧ i.toInt < 0x80000000 then 4
    else if -0x800000000000 ≤ i.toInt ∧ i.toInt < 0x800000000000 then 6 else 8 := by
  rw [encodeBody, Bytes.ofNat_length, SerialType.ofInt]
  simp only [apply_ite SerialType.bodyLength?, apply_ite (fun o : Option Nat => o.getD 0)]
  rfl

/-- An integer is written in no more bytes than it was read from. -/
theorem length_encodeBody_signedValue_le (hkind : SerialType.kind code = .integer)
    (hlen : SerialType.bodyLength? code = some body.length) :
    (encodeBody (.int (Int64.ofInt (signedValue body)))).length ≤ body.length := by
  have hwidths := width_of_kind hkind hlen
  obtain ⟨width, hwidth⟩ : ∃ width, body.length = width + 1 := ⟨body.length - 1, by omega⟩
  obtain ⟨hlow, hhigh⟩ := signedValue_range hwidth
  rw [hwidth, length_encodeBody_int]
  generalize signedValue body = i at hlow hhigh
  have hcases : width = 0 ∨ width = 1 ∨ width = 2 ∨ width = 3 ∨ width = 5 ∨ width = 7 := by omega
  rcases hcases with rfl | rfl | rfl | rfl | rfl | rfl <;>
    simp only [Nat.reducePow, Nat.reduceMul, Nat.cast_ofNat] at hlow hhigh <;>
    rw [Int64.toInt_ofInt_of_le (by omega) (by omega)] <;>
    grind

/-- A value is written with no longer a body, and no longer a type, than it was read from. -/
theorem Means.shortest {v : Value} (hlen : SerialType.bodyLength? code = some body.length)
    (h : Means (SerialType.kind code) body v) : (encodeBody v).length ≤ body.length ∧
      Varint.length (SerialType.ofValue v) ≤ Varint.length code := by
  have hint : ∀ i : Int64, Varint.length (SerialType.ofValue (.int i)) ≤ Varint.length code := by
    intro i
    have hsmall : SerialType.ofInt i.toInt < 128 := by
      unfold SerialType.ofInt
      grind
    rw [SerialType.ofValue, Varint.length_eq_one hsmall]
    exact Varint.length_pos code
  generalize hkind : SerialType.kind code = kind at h
  cases h with
  | null => exact ⟨Nat.zero_le _, Varint.length_mono (Nat.zero_le _)⟩
  | zero => exact ⟨Nat.zero_le _, hint 0⟩
  | one => exact ⟨Nat.zero_le _, hint 1⟩
  | integer => exact ⟨length_encodeBody_signedValue_le hkind hlen, hint _⟩
  | real =>
    have hcode : body.length = 8 := by simpa [SerialType.bodyLength?, hkind] using hlen.symm
    refine ⟨by rw [encodeBody, Bytes.ofNat_length, hcode], ?_⟩
    exact Varint.length_eq_one (n := 7) (by decide) ▸ Varint.length_pos code
  | blob =>
    have hcode : code = SerialType.ofValue (.blob body) := by
      simp only [SerialType.bodyLength?, hkind, Option.some.injEq] at hlen
      simp only [SerialType.ofValue]
      unfold SerialType.kind at hkind
      grind
    exact ⟨Nat.le_refl _, Nat.le_of_eq (congrArg Varint.length hcode.symm)⟩
  | text s =>
    have hcode : code = SerialType.ofValue (.text s) := by
      simp only [SerialType.bodyLength?, hkind, Option.some.injEq, Text.toBytes_length] at hlen
      simp only [SerialType.ofValue]
      unfold SerialType.kind at hkind
      grind
    exact ⟨Nat.le_refl _, Nat.le_of_eq (congrArg Varint.length hcode.symm)⟩

/-! ## Whole records -/

variable {bytes types bodies : Bytes} {codes : List Nat} {values : List Value}

theorem headerLengthFrom_le {typesLength guess length : Nat} (hroom : Varint.length length + typesLength ≤ length)
    (hguess : guess ≤ length) : headerLengthFrom typesLength guess ≤ length := by
  fun_induction headerLengthFrom typesLength guess with
  | case1 => exact hguess
  | case2 guess _ ih =>
    have := Varint.length_mono hguess
    exact ih (by omega)

/-- **The header length is the least with room for itself and the types.** -/
theorem headerLength_le {typesLength length : Nat}
    (hroom : Varint.length length + typesLength ≤ length) : headerLength typesLength ≤ length := by
  have := Varint.length_pos length
  exact headerLengthFrom_le hroom (by omega)

/-- The length of a header that counts itself in as many bytes as the given length takes. -/
def room (typesLength length : Nat) : Nat := Varint.length length + typesLength

/-- The search goes from a guess to the room that it needs, as long as the guess is too small. -/
theorem headerLengthFrom_rounds (typesLength guess : Nat) :
    ∃ rounds, headerLengthFrom typesLength guess = (room typesLength)^[rounds] guess ∧
      ∀ earlier < rounds, (room typesLength)^[earlier] guess < (room typesLength)^[earlier + 1] guess := by
  fun_induction headerLengthFrom typesLength guess with
  | case1 guess => exact ⟨0, rfl, fun _ h => absurd h (Nat.not_lt_zero _)⟩
  | case2 guess hroom ih =>
    obtain ⟨rounds, heq, hbefore⟩ := ih
    refine ⟨rounds + 1, heq, fun earlier hearlier => ?_⟩
    cases earlier with
    | zero => exact Nat.lt_of_not_le hroom
    | succ earlier => exact hbefore earlier (by omega)

/-- A third replacement would need two bytes more than the first guess, which lies less than nine below. -/
theorem rounds_le {typesLength rounds : Nat} (h : ∀ earlier < rounds,
    (room typesLength)^[earlier] (typesLength + 1) < (room typesLength)^[earlier + 1] (typesLength + 1)) :
    rounds ≤ 2 := by
  refine Nat.le_of_not_lt fun hmore => ?_
  have hzero := h 0 (by omega)
  have hone := h 1 (by omega)
  have htwo := h 2 (by omega)
  simp only [Function.iterate_succ_apply, Function.iterate_zero_apply, room] at hzero hone htwo
  generalize hfirst : Varint.length (typesLength + 1) = first at *
  have hnine := Varint.length_le_nine (first + typesLength)
  have hlast := Varint.length_add_le (typesLength + 1)
    (show Varint.length (first + typesLength) - 1 ≤ 128 by omega)
  rw [hfirst, show typesLength + 1 + (Varint.length (first + typesLength) - 1) =
    Varint.length (first + typesLength) + typesLength by omega] at hlast
  omega

/-- **The header length is the least that is exactly used up, and the least with room.** The search replaces its
guess at most twice. In the record of a row, the length itself and the serial types end there. -/
theorem headerLength_least (typesLength : Nat) :
    (∃ rounds ≤ 2, headerLength typesLength = (room typesLength)^[rounds] (typesLength + 1) ∧
      ∀ earlier < rounds, (room typesLength)^[earlier] (typesLength + 1) <
        (room typesLength)^[earlier + 1] (typesLength + 1)) ∧
    IsLeast {length | Varint.length length + typesLength = length} (headerLength typesLength) ∧
    IsLeast {length | Varint.length length + typesLength ≤ length} (headerLength typesLength) ∧
    ∀ values bytes, Record.typesLength values = typesLength → encode values = .ok bytes →
      ∃ types, bytes = encodeNat (headerLength typesLength) ++ types ++ values.flatMap encodeBody ∧
        types = (values.map SerialType.ofValue).flatMap encodeNat ∧
        (encodeNat (headerLength typesLength) ++ types).length = headerLength typesLength := by
  obtain ⟨rounds, heq, hbefore⟩ := headerLengthFrom_rounds typesLength (typesLength + 1)
  have hfixed := (headerLength_eq typesLength).symm
  refine ⟨⟨rounds, rounds_le hbefore, heq, hbefore⟩, ⟨hfixed, fun _ h => headerLength_le (Nat.le_of_eq h)⟩,
    ⟨Nat.le_of_eq hfixed, fun _ => headerLength_le⟩, ?_⟩
  rintro values bytes rfl hencode
  obtain ⟨-, hfit, rfl⟩ := encode_ok hencode
  refine ⟨_, by rw [encodeHeader_eq], rfl, ?_⟩
  rw [← encodeHeader_eq, length_encodeHeader hfit]

/-- Both 127 and 128 are exactly used up with 126 bytes of types. A row of 126 NULLs has the shorter header. -/
theorem headerLength_least_ambiguous : Varint.length 127 + 126 = 127 ∧ Varint.length 128 + 126 = 128 ∧
    headerLength 126 = 127 ∧
    ∃ bytes, encode (List.replicate 126 .null) = .ok bytes ∧ bytes = 127 :: List.replicate 126 0 := by
  have hlength : typesLength (List.replicate 126 .null) = 126 := by decide +kernel
  have hheader : headerLength 126 = 127 := by decide +kernel
  have hencode : encode (List.replicate 126 .null) = .ok _ := encode_eq (List.cons_ne_nil _ _) (by decide +kernel)
  obtain ⟨types, hbytes, htypes, -⟩ := (headerLength_least 126).2.2.2 _ _ hlength hencode
  refine ⟨by decide +kernel, by decide +kernel, hheader, _, hencode, ?_⟩
  rw [hbytes, htypes, hheader]
  decide +kernel

theorem Bodies.shortest (hbodies : Bodies codes bodies values) (htypes : Types types codes) :
    typesLength values ≤ types.length ∧ bodiesLength values ≤ bodies.length := by
  induction hbodies generalizing types with
  | nil => exact ⟨Nat.zero_le _, Nat.zero_le _⟩
  | @cons code codes body rest v values hlen hmeans _ ih =>
    cases htypes with
    | @cons form more _ _ hform hmore =>
      obtain ⟨htypes, hrest⟩ := ih hmore
      obtain ⟨hbody, htype⟩ := hmeans.shortest hlen
      have hcode := hform.length_le
      constructor
      · show Varint.length (SerialType.ofValue v) + typesLength values ≤ _
        rw [List.length_append]
        omega
      · show (SerialType.bodyLength? (SerialType.ofValue v)).getD 0 + bodiesLength values ≤ _
        rw [bodyLength?_ofValue, Option.getD_some, List.length_append]
        omega

theorem Holds.encodedLength_le (h : Holds bytes values) : encodedLength values ≤ bytes.length := by
  obtain ⟨length, types, bodies, rest, rfl, hlength, codes, htypes, hbodies⟩ := h
  obtain ⟨htypesLength, hbodiesLength⟩ := hbodies.shortest htypes
  have hheader : headerLength (typesLength values) ≤ length.length + types.length :=
    headerLength_le (by have := hlength.length_le; omega)
  simp only [encodedLength, List.length_append]
  omega

/-- **A row that was read is written as a record no longer than what it was read from**, and read from
it again. -/
theorem encode_shortest (hfit : bytes.length ≤ maxLength) (hne : values ≠ [])
    (h : decode bytes = .ok values) : ∃ record, encode values = .ok record ∧
      record.length ≤ bytes.length ∧ decode record = .ok values := by
  have hle := (decode_eq_ok_iff.mp h).encodedLength_le
  have hencode := encode_eq hne (Nat.le_trans hle hfit)
  refine ⟨_, hencode, ?_, decode_encode hencode⟩
  rw [encode_length hencode]
  exact hle

/-- A length and a type with leading zeros, an integer in eight bytes that needs none, and a byte after
the last body. -/
theorem encode_shortest_padded :
    ([0x80, 5, 0x80, 0x80, 6, 0, 0, 0, 0, 0, 0, 0, 1, 99] : Bytes).length ≤ maxLength ∧
      decode [0x80, 5, 0x80, 0x80, 6, 0, 0, 0, 0, 0, 0, 0, 1, 99] = .ok [.int 1] ∧
      ∃ record, encode [.int 1] = .ok record ∧ record.length ≤ 14 ∧ decode record = .ok [.int 1] := by
  have hfit : ([0x80, 5, 0x80, 0x80, 6, 0, 0, 0, 0, 0, 0, 0, 1, 99] : Bytes).length ≤ maxLength := by
    decide
  have hread : decode [0x80, 5, 0x80, 0x80, 6, 0, 0, 0, 0, 0, 0, 0, 1, 99] = .ok [.int 1] := by
    decide +kernel
  exact ⟨hfit, hread, encode_shortest hfit (List.cons_ne_nil _ _) hread⟩

end Record

end QueryMachine
