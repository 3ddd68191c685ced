import QueryMachine.Proofs.Varint
import QueryMachine.Record

/-!
# Records read back

* `decode_encode` — the row that was written is the row that is read.
* `decodeHeader_encode` — the header lists the serial types and ends where the bodies begin.
* `encode_length` — the record is as long as header and bodies together.
* `headerLength_eq` — the header length counts its own bytes and those of the types.
-/

namespace QueryMachine

/-! ## Numbers in bytes -/

namespace Bytes

theorem ofNat_length : ∀ (width n : Nat), (ofNat width n).length = width
  | 0, _ => rfl
  | width + 1, n => by simp [ofNat, ofNat_length width]

theorem toNat_append_byte (bytes : Bytes) (b : UInt8) : toNat (bytes ++ [b]) = toNat bytes * 256 + b.toNat := by
  simp [toNat]

theorem toNat_ofNat (width n : Nat) : toNat (ofNat width n) = n % 256 ^ width := by
  induction width generalizing n with
  | zero => simp [ofNat, toNat, Nat.mod_one]
  | succ width ih =>
    rw [ofNat, toNat_append_byte, ih, Varint.toNat_ofNat_byte (by omega), Nat.pow_succ,
      Nat.mul_comm (256 ^ width) 256, Nat.mod_mul]
    omega

theorem head_ofNat (width n : Nat) : ∃ rest, ofNat (width + 1) n = UInt8.ofNat (n / 256 ^ width % 256) :: rest := by
  induction width generalizing n with
  | zero => exact ⟨[], by simp [ofNat]⟩
  | succ width ih =>
    obtain ⟨rest, hrest⟩ := ih (n / 256)
    refine ⟨rest ++ [UInt8.ofNat (n % 256)], ?_⟩
    rw [ofNat, hrest, Nat.div_div_eq_div_mul, Nat.pow_succ, Nat.mul_comm 256]
    rfl

end Bytes

/-! ## Text -/

namespace Text

theorem toList_loop (bytes : ByteArray) : ∀ (i : Nat) (seen : List UInt8),
    ByteArray.toList.loop bytes i seen = seen.reverse ++ bytes.data.toList.drop i := by
  intro i seen
  fun_induction ByteArray.toList.loop bytes i seen with
  | case1 i seen hi ih =>
    have hlt : i < bytes.data.toList.length := by simpa using hi
    rw [ih, List.drop_eq_getElem_cons hlt]
    simp only [List.reverse_cons, List.append_assoc, List.cons_append, List.nil_append]
    congr 2
    show bytes.data[i]! = _
    rw [getElem!_pos bytes.data i (by simpa using hi)]
    rfl
  | case2 i seen hi =>
    rw [List.drop_eq_nil_of_le (by simpa using hi), List.append_nil]

theorem toBytes_eq (s : String) : toBytes s = s.toByteArray.data.toList := by
  unfold toBytes ByteArray.toList
  rw [String.toUTF8_eq_toByteArray, toList_loop]
  rfl

theorem toBytes_length (s : String) : (toBytes s).length = s.utf8ByteSize := by
  rw [toBytes_eq, ← String.size_toByteArray]
  rfl

theorem ofBytes?_toBytes (s : String) : ofBytes? (toBytes s) = some s := by
  unfold ofBytes?
  rw [toBytes_eq]
  simp only [String.fromUTF8?, Array.toArray_toList, dif_pos s.isValidUTF8]
  rfl

end Text

/-! ## Bodies -/

namespace Record

theorem toUInt64_toNat (i : Int64) :
    (i.toUInt64.toNat : Int) = if 0 ≤ i.toInt then i.toInt else 0x10000000000000000 + i.toInt := by
  have hbits : i.toUInt64.toNat = i.toBitVec.toNat := by
    rw [← UInt64.toNat_toBitVec, Int64.toBitVec_toUInt64]
  have hint : i.toInt = i.toBitVec.toInt := rfl
  have hlt := i.toBitVec.isLt
  rw [hbits, hint, BitVec.toInt_eq_toNat_cond]
  split <;> split <;> omega

/-- The low bytes of an integer that fits in them are read back with its sign. -/
theorem signedValue_ofNat (i : Int64) (width : Nat) (hw : width < 8) (hlow : -(128 * 256 ^ width) ≤ i.toInt)
    (hhigh : i.toInt < 128 * 256 ^ width) : signedValue (Bytes.ofNat (width + 1) i.toUInt64.toNat) = i.toInt := by
  obtain ⟨rest, hrest⟩ := Bytes.head_ofNat width i.toUInt64.toNat
  have hnat := Bytes.toNat_ofNat (width + 1) i.toUInt64.toNat
  have hlen := Bytes.ofNat_length (width + 1) i.toUInt64.toNat
  have hbits := toUInt64_toNat i
  rw [hrest] at hnat hlen ⊢
  unfold signedValue
  simp only [hnat, hlen, Varint.toNat_ofNat_byte (Nat.mod_lt _ (by decide : 256 > 0)), Nat.pow_eq]
  generalize i.toUInt64.toNat = n at hbits
  generalize i.toInt = k at hbits hlow hhigh
  have hcases : width = 0 ∨ width = 1 ∨ width = 2 ∨ width = 3 ∨ width = 4 ∨ width = 5 ∨
      width = 6 ∨ width = 7 := by omega
  rcases hcases with rfl | rfl | rfl | rfl | rfl | rfl | rfl | rfl <;>
    simp only [Nat.reduceAdd, Nat.reducePow, Int.reducePow, Int.reduceMul, Int.reduceNeg] at * <;>
    split at hbits <;> split <;> omega

theorem kind_text (size : Nat) : SerialType.kind (13 + 2 * size) = .text := by
  unfold SerialType.kind
  rw [if_neg (by omega), if_neg (by omega), if_neg (by omega), if_neg (by omega),
    if_neg (by omega), if_neg (by omega), if_neg (by omega)]

theorem kind_blob (size : Nat) : SerialType.kind (12 + 2 * size) = .blob := by
  unfold SerialType.kind
  rw [if_neg (by omega), if_neg (by omega), if_neg (by omega), if_neg (by omega),
    if_neg (by omega), if_neg (by omega), if_pos (by omega)]

/-- The body of a value is as long as its serial type says. -/
theorem bodyLength?_ofValue (v : Value) :
    SerialType.bodyLength? (SerialType.ofValue v) = some (encodeBody v).length := by
  cases v with
  | null => rfl
  | int i =>
    simp only [SerialType.ofValue, encodeBody, Bytes.ofNat_length]
    unfold SerialType.ofInt
    repeat' split
    all_goals rfl
  | real x => rw [encodeBody, Bytes.ofNat_length]; rfl
  | text s =>
    simp only [SerialType.ofValue, encodeBody, SerialType.bodyLength?, kind_text,
      Text.toBytes_length]
    congr 1
    omega
  | blob bytes =>
    simp only [SerialType.ofValue, encodeBody, SerialType.bodyLength?, kind_blob]
    congr 1
    omega

/-- The serial type of an integer is one of the two constants, or has a body wide enough for it. -/
theorem ofInt_cases (i : Int) (hlow : -2 ^ 63 ≤ i) (hhigh : i < 2 ^ 63) :
    (i = 0 ∧ SerialType.ofInt i = 8) ∨ (i = 1 ∧ SerialType.ofInt i = 9) ∨
      (SerialType.kind (SerialType.ofInt i) = .integer ∧
        ∃ width, width < 8 ∧ -(128 * 256 ^ width) ≤ i ∧ i < 128 * 256 ^ width ∧
          SerialType.bodyLength? (SerialType.ofInt i) = some (width + 1)) := by
  unfold SerialType.ofInt
  by_cases h0 : i = 0
  · exact .inl ⟨h0, if_pos h0⟩
  by_cases h1 : i = 1
  · exact .inr (.inl ⟨h1, by rw [if_neg h0, if_pos h1]⟩)
  refine .inr (.inr ?_)
  rw [if_neg h0, if_neg h1]
  split
  · exact ⟨rfl, 0, by omega, by omega, by omega, rfl⟩
  split
  · exact ⟨rfl, 1, by omega, by omega, by omega, rfl⟩
  split
  · exact ⟨rfl, 2, by omega, by omega, by omega, rfl⟩
  split
  · exact ⟨rfl, 3, by omega, by omega, by omega, rfl⟩
  split
  · exact ⟨rfl, 5, by omega, by omega, by omega, rfl⟩
  · exact ⟨rfl, 7, by omega, by omega, by omega, rfl⟩

theorem decodeBody_int (i : Int64) (column : Nat) :
    decodeBody (SerialType.ofInt i.toInt) column (encodeBody (.int i)) = .ok (.int i) := by
  rcases ofInt_cases i.toInt i.le_toInt i.toInt_lt with
    ⟨h, hcode⟩ | ⟨h, hcode⟩ | ⟨hkind, width, hw, hlow, hhigh, hlen⟩
  · rw [hcode, show i = 0 by rw [← Int64.ofInt_toInt i, h]; rfl]
    rfl
  · rw [hcode, show i = 1 by rw [← Int64.ofInt_toInt i, h]; rfl]
    rfl
  · simp only [decodeBody, hkind, encodeBody, hlen, Option.getD_some,
      signedValue_ofNat i width hw hlow hhigh, Int64.ofInt_toInt]

/-- A value is read back from its body. -/
theorem decodeBody_encodeBody (v : Value) (column : Nat) :
    decodeBody (SerialType.ofValue v) column (encodeBody v) = .ok v := by
  cases v with
  | null => rfl
  | int i => exact decodeBody_int i column
  | real x =>
    have hlt := x.bits.toNat_lt
    simp only [SerialType.ofValue, decodeBody, encodeBody]
    show Except.ok (Value.real ⟨UInt64.ofNat (Bytes.toNat (Bytes.ofNat 8 x.bits.toNat))⟩) = _
    rw [Bytes.toNat_ofNat, Nat.mod_eq_of_lt (by omega), UInt64.ofNat_toNat]
  | text s =>
    simp only [SerialType.ofValue, decodeBody, encodeBody, kind_text, Text.ofBytes?_toBytes]
  | blob bytes => simp only [SerialType.ofValue, decodeBody, encodeBody, kind_blob]

/-- The bodies of a row are read back by its serial types, whatever follows them. -/
theorem decodeBodies_encodeBody (rest : Bytes) : ∀ (values : List Value) (column : Nat),
    decodeBodies (values.map SerialType.ofValue) column (values.flatMap encodeBody ++ rest) = .ok values
  | [], _ => rfl
  | v :: values, column => by
    have hlen : ¬((encodeBody v ++ (values.flatMap encodeBody ++ rest)).length <
        (encodeBody v).length) := by
      rw [List.length_append]
      omega
    simp only [List.map_cons, List.flatMap_cons, List.append_assoc, decodeBodies,
      bodyLength?_ofValue, if_neg hlen, List.take_left, List.drop_left, decodeBody_encodeBody,
      decodeBodies_encodeBody rest values (column + 1)]

/-! ## The header -/

/-- The search for the header length ends at a length that is exactly used up, if it starts at or
below one: replacing a guess by the room it needs never overshoots. -/
theorem headerLengthFrom_eq (typesLength guess : Nat) (h : guess ≤ Varint.length guess + typesLength) :
    headerLengthFrom typesLength guess = Varint.length (headerLengthFrom typesLength guess) + typesLength := by
  fun_induction headerLengthFrom typesLength guess with
  | case1 guess hroom => omega
  | case2 guess hroom ih =>
    have := Varint.length_mono (show guess ≤ Varint.length guess + typesLength by omega)
    exact ih (by omega)

/-- **The header length counts its own bytes and those of the types.** -/
theorem headerLength_eq (typesLength : Nat) :
    headerLength typesLength = Varint.length (headerLength typesLength) + typesLength := by
  have := Varint.length_pos (typesLength + 1)
  exact headerLengthFrom_eq typesLength _ (by omega)

theorem encodeNat_length {n : Nat} (h : n < 2 ^ 64) : (encodeNat n).length = Varint.length n := by
  rw [encodeNat, Varint.encode_length, UInt64.toNat_ofNat_of_lt' h]

theorem decode?_encodeNat {n : Nat} (rest : Bytes) :
    Varint.decode? (encodeNat n ++ rest) = some (UInt64.ofNat n, rest) :=
  Varint.decode?_encode _ _

/-- The serial types are read back up to the declared end, whatever follows them. -/
theorem decodeTypes_encodeNat (rest : Bytes) : ∀ (codes : List Nat) (offset : Nat), (∀ code ∈ codes, code < 2 ^ 64) →
    decodeTypes (offset + (codes.flatMap encodeNat).length) offset (codes.flatMap encodeNat ++ rest) = .ok codes
  | [], offset, _ => by
    rw [decodeTypes]
    simp
  | code :: codes, offset, h => by
    have hcode := h code (List.mem_cons_self ..)
    have hpos : 0 < (encodeNat code).length := by
      rw [encodeNat_length hcode]
      exact Varint.length_pos code
    have ih := decodeTypes_encodeNat rest codes (offset + (encodeNat code).length)
      fun c hc => h c (List.mem_cons_of_mem _ hc)
    rw [List.flatMap_cons, List.append_assoc, List.length_append, decodeTypes,
      if_neg (by omega)]
    split
    · rename_i hread
      rw [decode?_encodeNat] at hread
      cases hread
    · rename_i value after hread
      rw [decode?_encodeNat] at hread
      cases hread
      have hnext : offset + ((encodeNat code ++ (codes.flatMap encodeNat ++ rest)).length -
          (codes.flatMap encodeNat ++ rest).length) = offset + (encodeNat code).length := by
        rw [List.length_append]
        omega
      simp only [hnext]
      rw [if_neg (by omega), show offset + ((encodeNat code).length +
        (codes.flatMap encodeNat).length) = offset + (encodeNat code).length +
        (codes.flatMap encodeNat).length by omega, ih]
      simp only [UInt64.toNat_ofNat_of_lt' hcode]

/-! ## Whole records -/

theorem length_flatMap_encodeBody : ∀ values : List Value, (values.flatMap encodeBody).length = bodiesLength values
  | [] => rfl
  | v :: values => by
    rw [List.flatMap_cons, List.length_append, length_flatMap_encodeBody values]
    simp [bodiesLength, bodyLength?_ofValue]

variable {values : List Value} {bytes : Bytes}

theorem le_foldr_add (size : Value → Nat) {v : Value} (h : v ∈ values) :
    size v ≤ values.foldr (fun v rest => size v + rest) 0 := by
  induction values with
  | nil => cases h
  | cons w values ih =>
    rw [List.foldr_cons]
    rcases List.mem_cons.mp h with rfl | h
    · omega
    · have := ih h
      omega

/-- A value with a serial type beyond 64 bits does not fit in memory: its body alone would leave no
room for the nine bytes of the type. -/
theorem ofValue_lt (hfit : encodedLength values ≤ maxLength) {v : Value} (hv : v ∈ values) :
    SerialType.ofValue v < 2 ^ 64 := by
  refine Nat.lt_of_not_le fun hlarge => ?_
  have hnine : Varint.length (SerialType.ofValue v) = 9 := by
    rw [Varint.length, if_pos (Nat.le_trans (by decide) hlarge)]
  have htype := le_foldr_add (fun v => Varint.length (SerialType.ofValue v)) hv
  have hbody := le_foldr_add (fun v => (SerialType.bodyLength? (SerialType.ofValue v)).getD 0) hv
  simp only [bodyLength?_ofValue, Option.getD_some] at hbody
  have hheader := headerLength_eq (typesLength values)
  have hlen : SerialType.ofValue v ≤ 13 + 2 * (encodeBody v).length := by
    cases v with
    | int i =>
      have : SerialType.ofInt i.toInt ≤ 9 := by
        unfold SerialType.ofInt
        repeat' split
        all_goals omega
      simp only [SerialType.ofValue]
      omega
    | text s => simp [SerialType.ofValue, encodeBody, Text.toBytes_length]
    | blob bytes => simp [SerialType.ofValue, encodeBody]
    | null => exact Nat.zero_le _
    | real x => exact Nat.le_trans (by decide : 7 ≤ 13) (Nat.le_add_right ..)
  simp only [encodedLength, maxLength, typesLength, bodiesLength, bodyLength?_ofValue,
    Option.getD_some] at hfit hheader
  omega

theorem encode_ok (h : encode values = .ok bytes) : values ≠ [] ∧ encodedLength values ≤ maxLength ∧
      bytes = encodeHeader values ++ values.flatMap encodeBody := by
  unfold encode at h
  split at h
  · cases h
  · rename_i hne
    split at h
    · cases h
    · rename_i hfit
      cases h
      exact ⟨by simpa using hne, Nat.le_of_not_lt hfit, rfl⟩

theorem encode_eq (hne : values ≠ []) (hfit : encodedLength values ≤ maxLength) :
    encode values = .ok (encodeHeader values ++ values.flatMap encodeBody) := by
  rw [encode, if_neg (by simpa using hne), if_neg (by omega)]

theorem typesLength_eq (h : ∀ v ∈ values, SerialType.ofValue v < 2 ^ 64) :
    ((values.map SerialType.ofValue).flatMap encodeNat).length = typesLength values := by
  induction values with
  | nil => rfl
  | cons v values ih =>
    rw [List.map_cons, List.flatMap_cons, List.length_append,
      encodeNat_length (h v (List.mem_cons_self ..)),
      ih fun w hw => h w (List.mem_cons_of_mem _ hw)]
    rfl

theorem encodeHeader_eq (values : List Value) : encodeHeader values = encodeNat (headerLength (typesLength values)) ++
      (values.map SerialType.ofValue).flatMap encodeNat := by
  rw [encodeHeader, List.flatMap_map]

theorem headerLength_lt (hfit : encodedLength values ≤ maxLength) : headerLength (typesLength values) < 2 ^ 64 := by
  simp only [encodedLength, maxLength] at hfit
  omega

theorem length_encodeHeader (hfit : encodedLength values ≤ maxLength) :
    (encodeHeader values).length = headerLength (typesLength values) := by
  rw [encodeHeader_eq, List.length_append, typesLength_eq fun v hv => ofValue_lt hfit hv,
    encodeNat_length (headerLength_lt hfit)]
  exact (headerLength_eq _).symm

/-- **The header lists the serial types of the row.** -/
theorem decodeHeader_encode (h : encode values = .ok bytes) : decodeHeader bytes =
      .ok ⟨headerLength (typesLength values), values.map SerialType.ofValue⟩ := by
  obtain ⟨hne, hfit, rfl⟩ := encode_ok h
  have htypes : ∀ code ∈ values.map SerialType.ofValue, code < 2 ^ 64 := by
    intro code hcode
    obtain ⟨v, hv, rfl⟩ := List.mem_map.mp hcode
    exact ofValue_lt hfit hv
  have hlen := length_encodeHeader hfit
  have hheader := headerLength_eq (typesLength values)
  have hnat := encodeNat_length (headerLength_lt hfit)
  have hsplit : encodeHeader values ++ values.flatMap encodeBody =
      encodeNat (headerLength (typesLength values)) ++
        ((values.map SerialType.ofValue).flatMap encodeNat ++ values.flatMap encodeBody) := by
    rw [encodeHeader_eq, List.append_assoc]
  have hread := decode?_encodeNat (n := headerLength (typesLength values))
    ((values.map SerialType.ofValue).flatMap encodeNat ++ values.flatMap encodeBody)
  rw [← hsplit] at hread
  have hfirst : (encodeHeader values ++ values.flatMap encodeBody).length -
      ((values.map SerialType.ofValue).flatMap encodeNat ++ values.flatMap encodeBody).length =
      (encodeNat (headerLength (typesLength values))).length := by
    rw [hsplit, List.length_append]
    omega
  have hnonempty : (encodeHeader values ++ values.flatMap encodeBody).isEmpty = false := by
    rw [List.isEmpty_eq_false_iff, ne_eq, ← List.length_eq_zero_iff, List.length_append]
    have := Varint.length_pos (headerLength (typesLength values))
    omega
  have hword : (UInt64.ofNat (headerLength (typesLength values))).toNat =
      headerLength (typesLength values) := UInt64.toNat_ofNat_of_lt' (headerLength_lt hfit)
  unfold decodeHeader
  rw [hnonempty, hread]
  simp only [Bool.false_eq_true, if_false, hword, hfirst]
  have hin : ¬(decide (headerLength (typesLength values) <
      (encodeNat (headerLength (typesLength values))).length) ||
      decide ((encodeHeader values ++ values.flatMap encodeBody).length <
        headerLength (typesLength values))) = true := by
    simp only [Bool.or_eq_true, decide_eq_true_eq, List.length_append]
    omega
  have hend : headerLength (typesLength values) =
      (encodeNat (headerLength (typesLength values))).length +
        ((values.map SerialType.ofValue).flatMap encodeNat).length := by
    rw [hnat, typesLength_eq fun v hv => ofValue_lt hfit hv]
    exact hheader
  have htypes := decodeTypes_encodeNat (values.flatMap encodeBody) _
    (encodeNat (headerLength (typesLength values))).length htypes
  rw [← hend] at htypes
  rw [if_neg hin, htypes]

/-- **The row that was written is the row that is read.** -/
theorem decode_encode (h : encode values = .ok bytes) : decode bytes = .ok values := by
  have hheader := decodeHeader_encode h
  obtain ⟨hne, hfit, rfl⟩ := encode_ok h
  unfold decode
  rw [hheader]
  simp only
  rw [← length_encodeHeader hfit, List.drop_left]
  have := decodeBodies_encodeBody [] values 0
  rwa [List.append_nil] at this

theorem encode_length (h : encode values = .ok bytes) :
    bytes.length = headerLength (typesLength values) + bodiesLength values := by
  obtain ⟨hne, hfit, rfl⟩ := encode_ok h
  rw [List.length_append, length_encodeHeader hfit, length_flatMap_encodeBody]

/-- **Every row with a value that memory can hold as a record has one, and it reads back exactly**:
the values, their serial types, the place where the bodies begin and the length of the whole. -/
theorem encode_reads_back (values : List Value) (hne : values ≠ [])
    (hfit : encodedLength values ≤ maxLength) :
    ∃ bytes header, encode values = .ok bytes ∧ decode bytes = .ok values ∧
      decodeHeader bytes = .ok header ∧ header.types = values.map SerialType.ofValue ∧
      bytes.drop header.length = values.flatMap encodeBody ∧
      bytes.length = header.length +
        (header.types.map fun code => (SerialType.bodyLength? code).getD 0).sum := by
  have h := encode_eq hne hfit
  refine ⟨_, _, h, decode_encode h, decodeHeader_encode h, rfl, ?_, ?_⟩
  · rw [← length_encodeHeader hfit, List.drop_left]
  · rw [encode_length h, List.map_map, List.sum_eq_foldr, List.foldr_map]
    rfl

/-- A row with an integer just beyond three bytes, a negative zero, text beyond ASCII and a blob whose
serial type takes two bytes. -/
theorem encode_reads_back_wide :
    ([.int (-8388609), .text "naïve", .real ⟨0x8000000000000000⟩, .blob (List.replicate 60 255),
      .null] : List Value) ≠ [] ∧
    encodedLength [.int (-8388609), .text "naïve", .real ⟨0x8000000000000000⟩,
      .blob (List.replicate 60 255), .null] ≤ maxLength ∧
    ∃ bytes, decode bytes = .ok [.int (-8388609), .text "naïve", .real ⟨0x8000000000000000⟩,
      .blob (List.replicate 60 255), .null] := by
  have hne : ([.int (-8388609), .text "naïve", .real ⟨0x8000000000000000⟩,
    .blob (List.replicate 60 255), .null] : List Value) ≠ [] := List.cons_ne_nil _ _
  have hfit : encodedLength [.int (-8388609), .text "naïve", .real ⟨0x8000000000000000⟩,
    .blob (List.replicate 60 255), .null] ≤ maxLength := by decide +kernel
  obtain ⟨bytes, _, _, hread, _⟩ := encode_reads_back _ hne hfit
  exact ⟨hne, hfit, bytes, hread⟩

end Record

end QueryMachine
