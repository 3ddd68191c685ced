import QueryMachine.Proofs.Record

/-!
# What a record looks like

The bytes that are read as a record are exactly those of a grammar: a header length, the serial types
that it covers, the bodies that those types announce, and anything after them. The length and the
types need not be in their shortest form.

* `Varint.Form`, `Record.Types`, `Record.Bodies` — the grammar.
* `Varint.decode?_eq_some_iff` — a number is read where the bytes begin with one.
* `Record.decode_eq_ok_iff` — a row is read where the bytes begin with a record of it.
* `Record.Offsets.decode?` — the same reading by offsets, every access checked; no check fails.
-/

namespace QueryMachine

/-! ## Numbers -/

namespace Varint

/-- The number that marked bytes carry on from `value`, seven bits each. -/
def payload (value : Nat) (lead : Bytes) : Nat :=
  lead.foldl (fun n b => n * 128 + b.toNat % 128) value

/-- One complete number, not necessarily in its shortest form: marked bytes and a last one. -/
inductive Form : Bytes → Nat → Prop
  /-- The last byte is not marked and carries seven bits. -/
  | short {lead : Bytes} {last : UInt8} : lead.length < 8 → (∀ b ∈ lead, 128 ≤ b.toNat) →
      last.toNat < 128 → Form (lead ++ [last]) (payload 0 lead * 128 + last.toNat)
  /-- After eight marked bytes the last one carries eight bits. -/
  | long {lead : Bytes} {last : UInt8} : lead.length = 8 → (∀ b ∈ lead, 128 ≤ b.toNat) →
      Form (lead ++ [last]) (payload 0 lead * 256 + last.toNat)

variable {bytes rest form form' : Bytes} {n n' : Nat}

theorem mark_sub {b : UInt8} (h : ¬ b.toNat < 128) : b.toNat - 128 = b.toNat % 128 := by
  have := b.toNat_lt
  omega

theorem payload_lt (lead : Bytes) : ∀ value, payload value lead < (value + 1) * 128 ^ lead.length := by
  induction lead with
  | nil =>
    intro value
    simp [payload]
  | cons b lead ih =>
    intro value
    have hb := b.toNat_lt
    calc payload value (b :: lead)
        < (value * 128 + b.toNat % 128 + 1) * 128 ^ lead.length := ih _
      _ ≤ ((value + 1) * 128) * 128 ^ lead.length := by
        apply Nat.mul_le_mul_right
        omega
      _ = (value + 1) * 128 ^ (b :: lead).length := by
        rw [List.length_cons, Nat.pow_succ', Nat.mul_assoc]

/-- A complete number has 64 bits. -/
theorem Form.lt (h : Form form n) : n < 2 ^ 64 := by
  cases h with
  | @short lead last hlen _ hlast =>
    have hp := payload_lt lead 0
    have hpow : 128 ^ lead.length ≤ 128 ^ 7 := Nat.pow_le_pow_right (by omega) (by omega)
    omega
  | @long lead last hlen _ =>
    have hp := payload_lt lead 0
    have hlast := last.toNat_lt
    rw [hlen] at hp
    omega

theorem Form.length_pos (h : Form form n) : 0 < form.length := by
  cases h <;> simp

/-- Reading goes over marked bytes while there may be more of them. -/
theorem decodeFrom_lead {lead : Bytes} (hmarks : ∀ b ∈ lead, 128 ≤ b.toNat) (rest : Bytes) :
    ∀ count value, lead.length ≤ count → decodeFrom count value (lead ++ rest) =
      decodeFrom (count - lead.length) (payload value lead) rest := by
  induction lead with
  | nil =>
    intro count value _
    rfl
  | cons b lead ih =>
    intro count value hle
    have hb : ¬ b.toNat < 128 := by
      have := hmarks b List.mem_cons_self
      omega
    cases count with
    | zero => cases hle
    | succ count =>
      rw [List.cons_append, decodeFrom, if_neg hb, mark_sub hb,
        ih (fun c hc => hmarks c (List.mem_cons_of_mem _ hc)) count _ (Nat.le_of_succ_le_succ hle),
        List.length_cons, Nat.succ_sub_succ]
      rfl

/-- What was read is marked bytes and a last one, which has eight bits if no more may follow. -/
theorem lead_of_decodeFrom : ∀ {bytes : Bytes} {count value : Nat}, decodeFrom count value bytes = some (n, rest) →
    ∃ lead last, bytes = lead ++ last :: rest ∧ (∀ b ∈ lead, 128 ≤ b.toNat) ∧
      (lead.length < count ∧ last.toNat < 128 ∧ n = payload value lead * 128 + last.toNat ∨
        lead.length = count ∧ n = payload value lead * 256 + last.toNat) := by
  intro bytes
  induction bytes with
  | nil =>
    intro count value h
    cases count <;> cases h
  | cons b bytes ih =>
    intro count value h
    cases count with
    | zero =>
      simp only [decodeFrom, Option.some.injEq, Prod.mk.injEq] at h
      obtain ⟨rfl, rfl⟩ := h
      exact ⟨[], b, rfl, (by simp), .inr ⟨rfl, rfl⟩⟩
    | succ count =>
      simp only [decodeFrom] at h
      split at h
      · rename_i hlast
        simp only [Option.some.injEq, Prod.mk.injEq] at h
        obtain ⟨rfl, rfl⟩ := h
        exact ⟨[], b, rfl, (by simp), .inl ⟨Nat.succ_pos _, hlast, rfl⟩⟩
      · rename_i hmark
        obtain ⟨lead, last, rfl, hmarks, hcases⟩ := ih h
        refine ⟨b :: lead, last, rfl, ?_, ?_⟩
        · intro c hc
          rcases List.mem_cons.mp hc with rfl | hc
          · omega
          · exact hmarks c hc
        · rw [mark_sub hmark] at hcases
          rcases hcases with ⟨hlen, hlast, hn⟩ | ⟨hlen, hn⟩
          · exact .inl ⟨Nat.succ_lt_succ hlen, hlast, hn⟩
          · exact .inr ⟨congrArg Nat.succ hlen, hn⟩

/-- A complete number is read from the front of the bytes. -/
theorem Form.decode? (h : Form form n) (rest : Bytes) :
    Varint.decode? (form ++ rest) = some (UInt64.ofNat n, rest) := by
  have hread : decodeFrom 8 0 (form ++ rest) = some (n, rest) := by
    cases h with
    | @short lead last hlen hmarks hlast =>
      obtain ⟨more, hmore⟩ : ∃ more, 8 - lead.length = more + 1 := ⟨7 - lead.length, by omega⟩
      rw [List.append_assoc, decodeFrom_lead hmarks _ _ _ (by omega), hmore]
      simp only [List.cons_append, List.nil_append, decodeFrom, if_pos hlast]
    | @long lead last hlen hmarks =>
      rw [List.append_assoc, decodeFrom_lead hmarks _ _ _ (by omega), hlen]
      simp only [Nat.sub_self, List.cons_append, List.nil_append, decodeFrom]
  simp only [Varint.decode?, hread]

/-- **A number is read where the bytes begin with a complete one.** -/
theorem decode?_eq_some_iff {value : UInt64} :
    decode? bytes = some (value, rest) ↔ ∃ form, bytes = form ++ rest ∧ Form form value.toNat := by
  constructor
  · intro h
    unfold decode? at h
    split at h
    · rename_i n after hread
      cases h
      obtain ⟨lead, last, rfl, hmarks, hcases⟩ := lead_of_decodeFrom hread
      have hform : Form (lead ++ [last]) n := by
        rcases hcases with ⟨hlen, hlast, rfl⟩ | ⟨hlen, rfl⟩
        · exact .short hlen hmarks hlast
        · exact .long hlen hmarks
      refine ⟨lead ++ [last], by simp, ?_⟩
      rwa [UInt64.toNat_ofNat_of_lt' hform.lt]
    · cases h
  · rintro ⟨form, rfl, hform⟩
    rw [hform.decode?, UInt64.ofNat_toNat]

theorem Form.unique {rest' : Bytes} (h : Form form n) (h' : Form form' n')
    (heq : form ++ rest = form' ++ rest') : form = form' ∧ n = n' ∧ rest = rest' := by
  have hread := h.decode? rest
  rw [heq, h'.decode?] at hread
  obtain ⟨hn, hrest⟩ := Prod.mk.inj (Option.some.inj hread)
  have hvalue := congrArg UInt64.toNat hn
  rw [UInt64.toNat_ofNat_of_lt' h.lt, UInt64.toNat_ofNat_of_lt' h'.lt] at hvalue
  subst hrest
  exact ⟨List.append_cancel_right heq, hvalue.symm, rfl⟩

end Varint

/-! ## Records -/

namespace Record

/-- Serial types, one complete number after the other. -/
inductive Types : Bytes → List Nat → Prop
  | nil : Types [] []
  | cons {form rest : Bytes} {code : Nat} {codes : List Nat} : Varint.Form form code →
      Types rest codes → Types (form ++ rest) (code :: codes)

/-- What the bytes of a body stand for; a text is what is valid UTF-8. -/
inductive Means : SerialType.Kind → Bytes → Value → Prop
  | null (body : Bytes) : Means .null body .null
  | zero (body : Bytes) : Means .zero body (.int 0)
  | one (body : Bytes) : Means .one body (.int 1)
  | integer (body : Bytes) : Means .integer body (.int (Int64.ofInt (signedValue body)))
  | real (body : Bytes) : Means .real body (.real ⟨UInt64.ofNat (Bytes.toNat body)⟩)
  | blob (body : Bytes) : Means .blob body (.blob body)
  | text (s : String) : Means .text (Text.toBytes s) (.text s)

/-- The bodies of serial types, one after the other, each as long as its type says. The reserved types
have no length. -/
inductive Bodies : List Nat → Bytes → List Value → Prop
  | nil : Bodies [] [] []
  | cons {code : Nat} {codes : List Nat} {body rest : Bytes} {v : Value} {values : List Value} :
      SerialType.bodyLength? code = some body.length → Means (SerialType.kind code) body v →
      Bodies codes rest values → Bodies (code :: codes) (body ++ rest) (v :: values)

/-- The values that serial types and bodies write. -/
def Writes (types bodies : Bytes) (values : List Value) : Prop :=
  ∃ codes, Types types codes ∧ Bodies codes bodies values

/-- The bytes begin with a record of the row: a length that counts itself and the types, the types, and
their bodies. -/
def Holds (bytes : Bytes) (values : List Value) : Prop :=
  ∃ length types bodies rest, bytes = length ++ types ++ bodies ++ rest ∧
    Varint.Form length (length.length + types.length) ∧ Writes types bodies values

variable {bytes rest types bodies : Bytes} {codes : List Nat} {values values' : List Value} {body : Bytes} {v : Value}
  {code column : Nat} {e : Error}

/-! ### The values are determined -/

theorem Types.unique {codes' : List Nat} (h : Types types codes) (h' : Types types codes') : codes = codes' := by
  induction h generalizing codes' with
  | nil =>
    generalize hnil : ([] : Bytes) = empty at h'
    cases h' with
    | nil => rfl
    | cons hform _ =>
      have hpos := hform.length_pos
      rw [(List.append_eq_nil_iff.mp hnil.symm).1] at hpos
      cases hpos
  | @cons form rest code codes hform _ ih =>
    generalize hall : form ++ rest = whole at h'
    cases h' with
    | nil =>
      have hpos := hform.length_pos
      rw [(List.append_eq_nil_iff.mp hall).1] at hpos
      cases hpos
    | @cons form' rest' code' codes' hform' hrest' =>
      obtain ⟨rfl, rfl, rfl⟩ := hform.unique hform' hall
      rw [ih hrest']

theorem Means.unique {kind : SerialType.Kind} {v' : Value} (h : Means kind body v) (h' : Means kind body v') :
    v = v' := by
  generalize hbody : body = body' at h'
  cases h with
  | text s =>
    cases h' with
    | text s' =>
      have hsame := congrArg Text.ofBytes? hbody
      rw [Text.ofBytes?_toBytes, Text.ofBytes?_toBytes] at hsame
      rw [Option.some.inj hsame]
  | _ =>
    cases h'
    simp_all

theorem Bodies.unique (h : Bodies codes bodies values) (h' : Bodies codes bodies values') : values = values' := by
  induction h generalizing values' with
  | nil =>
    cases h'
    rfl
  | @cons code codes body rest v values hlen hmeans _ ih =>
    generalize hall : body ++ rest = whole at h'
    cases h' with
    | @cons _ _ body' rest' v' values' hlen' hmeans' hrest' =>
      have hsize : body.length = body'.length := Option.some.inj (hlen.symm.trans hlen')
      obtain ⟨rfl, rfl⟩ := List.append_inj hall hsize
      rw [hmeans.unique hmeans', ih hrest']

theorem Writes.unique (h : Writes types bodies values) (h' : Writes types bodies values') : values = values' := by
  obtain ⟨codes, htypes, hbodies⟩ := h
  obtain ⟨codes', htypes', hbodies'⟩ := h'
  rw [← htypes.unique htypes'] at hbodies'
  exact hbodies.unique hbodies'

/-! ### Reading the types -/

theorem Types.decodeTypes (h : Types types codes) (rest : Bytes) (offset : Nat) :
    Record.decodeTypes (offset + types.length) offset (types ++ rest) = .ok codes := by
  induction h generalizing offset with
  | nil =>
    rw [Record.decodeTypes]
    simp
  | @cons form more code codes hform _ ih =>
    have hpos := hform.length_pos
    have hread := hform.decode? (more ++ rest)
    have hnext : offset + (form ++ (more ++ rest)).length - (more ++ rest).length =
        offset + form.length := by
      simp only [List.length_append]
      omega
    have htypes := ih (offset + form.length)
    rw [Record.decodeTypes, if_neg (by simp only [List.length_append]; omega)]
    rw [List.append_assoc]
    split
    · rename_i hnone
      cases hnone.symm.trans hread
    · rename_i value after hsome
      obtain ⟨rfl, rfl⟩ := Prod.mk.inj (Option.some.inj (hsome.symm.trans hread))
      have hsize : (form ++ (more ++ rest)).length - (more ++ rest).length = form.length := by
        simp only [List.length_append]
        omega
      rw [hsize]
      dsimp only
      rw [if_neg (by simp only [List.length_append]; omega), List.length_append, ← Nat.add_assoc,
        htypes]
      simp only [UInt64.toNat_ofNat_of_lt' hform.lt]

/-- Types that were read end where the header does. -/
theorem types_of_decodeTypes {declared offset : Nat} {rest : Bytes} (hle : offset ≤ declared)
    (h : decodeTypes declared offset rest = .ok codes) :
    ∃ types after, rest = types ++ after ∧ Types types codes ∧ offset + types.length = declared := by
  fun_induction decodeTypes declared offset rest generalizing codes with
  | case1 offset rest hend =>
    cases h
    exact ⟨[], rest, rfl, .nil, by simp; omega⟩
  | case2 => cases h
  | case3 => cases h
  | case4 offset rest hmore code after hread next hnext types htypes =>
    rename_i ih
    cases h
    obtain ⟨form, rfl, hform⟩ := Varint.decode?_eq_some_iff.mp hread
    have hsize : (form ++ after).length - after.length = form.length := by simp
    obtain ⟨tail, rest, rfl, htail, hlen⟩ := ih (by omega) htypes
    refine ⟨form ++ tail, rest, by simp, .cons hform htail, ?_⟩
    simp only [List.length_append]
    omega
  | case5 => cases h

/-! ### Reading the bodies -/

theorem Means.decodeBody (h : Means (SerialType.kind code) body v) : Record.decodeBody code column body = .ok v := by
  unfold Record.decodeBody
  generalize hkind : SerialType.kind code = kind at h
  cases h with
  | text s => simp only [Text.ofBytes?_toBytes]
  | _ => rfl

theorem toBytes_of_ofBytes? {s : String} (h : Text.ofBytes? body = some s) : Text.toBytes s = body := by
  rw [Text.toBytes_eq]
  unfold Text.ofBytes? String.fromUTF8? at h
  split at h
  · cases h
    rfl
  · cases h

theorem means_of_decodeBody (h : decodeBody code column body = .ok v) : Means (SerialType.kind code) body v := by
  unfold decodeBody at h
  split at h
  case h_7 hkind =>
    split at h
    · rename_i s hs
      cases h
      rw [hkind, ← toBytes_of_ofBytes? hs]
      exact .text s
    · cases h
  case h_8 => cases h
  all_goals
    rename_i hkind
    cases h
    rw [hkind]
    constructor

theorem Bodies.decodeBodies (h : Bodies codes bodies values) (rest : Bytes) (column : Nat) :
    Record.decodeBodies codes column (bodies ++ rest) = .ok values := by
  induction h generalizing column with
  | nil => rfl
  | @cons code codes body more v values hlen hmeans _ ih =>
    have hfits : ¬ (body ++ (more ++ rest)).length < body.length := by simp
    rw [List.append_assoc, Record.decodeBodies, hlen]
    simp only [if_neg hfits, List.take_left', List.drop_left', hmeans.decodeBody, ih]

theorem bodies_of_decodeBodies : ∀ {codes : List Nat} {column : Nat} {rest : Bytes}
    {values : List Value}, decodeBodies codes column rest = .ok values →
    ∃ bodies after, rest = bodies ++ after ∧ Bodies codes bodies values := by
  intro codes
  induction codes with
  | nil =>
    intro column rest values h
    cases h
    exact ⟨[], rest, rfl, .nil⟩
  | cons code codes ih =>
    intro column rest values h
    rw [decodeBodies] at h
    split at h
    · cases h
    · rename_i needed hlen
      split at h
      · cases h
      · rename_i hfits
        split at h
        · cases h
        · rename_i v hbody
          split at h
          · cases h
          · rename_i values' hrest
            cases h
            obtain ⟨more, after, hmore, hbodies⟩ := ih hrest
            have hsize : (rest.take needed).length = needed := by
              rw [List.length_take]
              omega
            refine ⟨rest.take needed ++ more, after, ?_, .cons (by rw [hsize, hlen])
              (means_of_decodeBody hbody) hbodies⟩
            rw [List.append_assoc, ← hmore, List.take_append_drop]

/-! ### Whole records -/

theorem header_of_decodeHeader {header : Header} (h : decodeHeader bytes = .ok header) :
    ∃ length types rest, bytes = length ++ (types ++ rest) ∧
      Varint.Form length (length.length + types.length) ∧ Types types header.types ∧
      header.length = length.length + types.length := by
  unfold decodeHeader at h
  split at h
  · cases h
  · split at h
    · cases h
    · rename_i declared rest hread
      obtain ⟨length, rfl, hform⟩ := Varint.decode?_eq_some_iff.mp hread
      have hfirst : (length ++ rest).length - rest.length = length.length := by simp
      simp only [hfirst, Bool.or_eq_true, decide_eq_true_eq] at h
      split at h
      · cases h
      · rename_i hrange
        split at h
        · rename_i codes hcodes
          cases h
          obtain ⟨types, after, rfl, htypes, hend⟩ := types_of_decodeTypes (by omega) hcodes
          exact ⟨length, types, after, rfl, hend ▸ hform, htypes, hend.symm⟩
        · cases h

theorem decodeHeader_of_form {length : Bytes} (hlength : Varint.Form length
    (length.length + types.length)) (htypes : Types types codes) (rest : Bytes) :
    decodeHeader (length ++ (types ++ rest)) = .ok ⟨length.length + types.length, codes⟩ := by
  have hpos := hlength.length_pos
  have hne : (length ++ (types ++ rest)).isEmpty = false := by
    cases length with
    | nil => cases hpos
    | cons b length => rfl
  have hfirst : (length ++ (types ++ rest)).length - (types ++ rest).length = length.length := by simp
  unfold decodeHeader
  rw [hne, if_neg Bool.false_ne_true, hlength.decode?]
  simp only [hfirst, UInt64.toNat_ofNat_of_lt' hlength.lt, Bool.or_eq_true, decide_eq_true_eq]
  rw [if_neg (by simp only [List.length_append]; omega), htypes.decodeTypes]

/-- **A row is read exactly where the bytes begin with a record of it.** -/
theorem decode_eq_ok_iff : decode bytes = .ok values ↔ Holds bytes values := by
  constructor
  · intro h
    unfold decode at h
    split at h
    · cases h
    · rename_i header hheader
      obtain ⟨length, types, rest, rfl, hform, htypes, hend⟩ := header_of_decodeHeader hheader
      obtain ⟨bodies, after, hrest, hbodies⟩ := bodies_of_decodeBodies h
      rw [hend, ← List.append_assoc, List.drop_left' (by simp)] at hrest
      exact ⟨length, types, bodies, after, by rw [hrest]; simp, hform, header.types, htypes, hbodies⟩
  · rintro ⟨length, types, bodies, rest, rfl, hform, codes, htypes, hbodies⟩
    have hsplit : length ++ types ++ bodies ++ rest = length ++ (types ++ (bodies ++ rest)) := by simp
    unfold decode
    rw [hsplit, decodeHeader_of_form hform htypes]
    dsimp only
    rw [← List.append_assoc, List.drop_left' (by simp), hbodies.decodeBodies]

/-! ### Refusals -/

theorem category_of_decodeTypes {declared offset : Nat} {rest : Bytes}
    (h : decodeTypes declared offset rest = .error e) : e.category = .codec := by
  fun_induction decodeTypes declared offset rest with
  | case1 => cases h
  | case2 =>
    cases h
    rfl
  | case3 =>
    cases h
    rfl
  | case4 => cases h
  | case5 offset rest _ _ _ _ _ _ e' herror ih =>
    cases h
    exact ih herror

theorem category_of_decodeHeader (h : decodeHeader bytes = .error e) : e.category = .codec := by
  unfold decodeHeader at h
  split at h
  · cases h
    rfl
  · split at h
    · cases h
      rfl
    · dsimp only at h
      split at h
      · cases h
        rfl
      · split at h
        · cases h
        · rename_i herror
          cases h
          exact category_of_decodeTypes herror

theorem category_of_decodeBody (h : decodeBody code column body = .error e) : e.category = .codec := by
  unfold decodeBody at h
  split at h
  case h_7 =>
    split at h
    · cases h
    · cases h
      rfl
  all_goals cases h
  rfl

theorem category_of_decodeBodies : ∀ {codes : List Nat} {column : Nat} {rest : Bytes},
    decodeBodies codes column rest = .error e → e.category = .codec := by
  intro codes
  induction codes with
  | nil =>
    intro column rest h
    cases h
  | cons code codes ih =>
    intro column rest h
    rw [decodeBodies] at h
    split at h
    · cases h
      rfl
    · split at h
      · cases h
        rfl
      · split at h
        · rename_i hbody
          cases h
          exact category_of_decodeBody hbody
        · split at h
          · rename_i hrest
            cases h
            exact ih hrest
          · cases h

theorem category_of_decode (h : decode bytes = .error e) : e.category = .codec := by
  unfold decode at h
  split at h
  · rename_i hheader
    cases h
    exact category_of_decodeHeader hheader
  · exact category_of_decodeBodies h

/-! ### Reading by offsets

The bytes stay whole and places in them are offsets. Every slice, every difference and the copy into
the eight bytes of a real is checked; a check that failed would leave no answer at all. -/

namespace Offsets

/-- The bytes from `start` up to `stop`, which have to be there. -/
def slice? (bytes : Bytes) (start stop : Nat) : Option Bytes :=
  if start ≤ stop ∧ stop ≤ bytes.length then some ((bytes.drop start).take (stop - start)) else none

/-- A difference that has to be no less than zero. -/
def difference? (a b : Nat) : Option Nat := if b ≤ a then some (a - b) else none

/-- The bytes, which have to be eight if they are to be copied into a real. -/
def copy? (code : Nat) (body : Bytes) : Option Bytes :=
  if SerialType.kind code = .real ∧ body.length ≠ 8 then none else some body

/-- The serial types from `offset` up to the declared end of the header. -/
def types? (bytes : Bytes) (declared offset : Nat) : Option (Except Error (List Nat)) :=
  if declared ≤ offset then some (.ok [])
  else
    match slice? bytes offset bytes.length with
    | none => none
    | some rest =>
      match _read : Varint.decode? rest with
      | none => some (.error (.invalidVarint offset))
      | some (code, after) =>
        match _size : difference? rest.length after.length with
        | none => none
        | some consumed =>
          if declared < offset + consumed then
            some (.error (.headerLengthMismatch declared (offset + consumed)))
          else
            match types? bytes declared (offset + consumed) with
            | none => none
            | some (.error e) => some (.error e)
            | some (.ok types) => some (.ok (code.toNat :: types))
termination_by declared - offset
decreasing_by
  have := Varint.decode?_shortens _read
  simp only [difference?, Option.ite_none_right_eq_some, Option.some.injEq] at _size
  omega

/-- The header of a record. -/
def header? (bytes : Bytes) : Option (Except Error Header) :=
  if bytes.isEmpty then some (.error (.truncatedHeader "record is empty"))
  else
    match Varint.decode? bytes with
    | none => some (.error (.invalidVarint 0))
    | some (declared, rest) =>
      match difference? bytes.length rest.length with
      | none => none
      | some first =>
        if declared.toNat < first || bytes.length < declared.toNat then
          some (.error (.truncatedHeader ("declared header length " ++ toString declared.toNat
            ++ " but " ++ toString bytes.length ++ " bytes present")))
        else
          match types? bytes declared.toNat first with
          | none => none
          | some (.error e) => some (.error e)
          | some (.ok types) => some (.ok ⟨declared.toNat, types⟩)

/-- The values of the bodies from `offset` on. -/
def bodies? (bytes : Bytes) :
    (types : List Nat) → (column offset : Nat) → Option (Except Error (List Value))
  | [], _, _ => some (.ok [])
  | code :: types, column, offset =>
    match SerialType.bodyLength? code with
    | none => some (.error (.reservedSerialType code column))
    | some needed =>
      match difference? bytes.length offset with
      | none => none
      | some available =>
        if available < needed then some (.error (.truncatedBody column needed available))
        else
          match (slice? bytes offset (offset + needed)).bind (copy? code) with
          | none => none
          | some body =>
            match decodeBody code column body with
            | .error e => some (.error e)
            | .ok value =>
              match bodies? bytes types (column + 1) (offset + needed) with
              | none => none
              | some (.error e) => some (.error e)
              | some (.ok values) => some (.ok (value :: values))

/-- The row that a record holds. -/
def decode? (bytes : Bytes) : Option (Except Error (List Value)) :=
  match header? bytes with
  | none => none
  | some (.error e) => some (.error e)
  | some (.ok header) => bodies? bytes header.types 0 header.length

theorem slice?_eq {start stop : Nat} (hle : start ≤ stop) (hstop : stop ≤ bytes.length) :
    slice? bytes start stop = some ((bytes.drop start).take (stop - start)) := if_pos ⟨hle, hstop⟩

theorem difference?_eq {a b : Nat} (h : b ≤ a) : difference? a b = some (a - b) := if_pos h

theorem copy?_eq {code : Nat} {body : Bytes} (h : SerialType.bodyLength? code = some body.length) :
    copy? code body = some body := by
  refine if_neg fun ⟨hkind, hne⟩ => hne ?_
  simp only [SerialType.bodyLength?, hkind, Option.some.injEq] at h
  exact h.symm

/-- One type is read and those after it. -/
theorem decodeTypes_of_read {declared offset : Nat} {rest after : Bytes} {code : UInt64}
    (hmore : ¬ declared ≤ offset) (hread : Varint.decode? rest = some (code, after)) :
    decodeTypes declared offset rest =
      if declared < offset + (rest.length - after.length) then
        .error (.headerLengthMismatch declared (offset + (rest.length - after.length)))
      else
        match decodeTypes declared (offset + (rest.length - after.length)) after with
        | .ok types => .ok (code.toNat :: types)
        | .error e => .error e := by
  rw [decodeTypes, if_neg hmore]
  split
  · rename_i hnone
    cases hnone.symm.trans hread
  · rename_i hsome
    cases hsome.symm.trans hread
    rfl

/-- The types are read within the bytes, which reach at least to the declared end. -/
theorem types?_eq {declared : Nat} (hend : declared ≤ bytes.length) (offset : Nat) :
    types? bytes declared offset = some (decodeTypes declared offset (bytes.drop offset)) := by
  induction hleft : declared - offset using Nat.strongRecOn generalizing offset with
  | ind left ih =>
    rw [types?]
    by_cases hdone : declared ≤ offset
    · rw [if_pos hdone, decodeTypes, if_pos hdone]
    · have hall : (bytes.drop offset).take (bytes.length - offset) = bytes.drop offset :=
        List.take_of_length_le (by simp)
      rw [if_neg hdone, slice?_eq (by omega) (Nat.le_refl _), hall]
      dsimp only
      split
      · rename_i hnone
        rw [decodeTypes, if_neg hdone]
        split
        · rfl
        · rename_i hsome
          cases hnone.symm.trans hsome
      · rename_i code after hread
        have hshort := Varint.decode?_shortens hread
        obtain ⟨form, hform, -⟩ := Varint.decode?_eq_some_iff.mp hread
        have hsize : (bytes.drop offset).length - after.length = form.length := by simp [hform]
        have hdrop : bytes.drop (offset + form.length) = after := by
          rw [← List.drop_drop, hform, List.drop_left]
        rw [decodeTypes_of_read hdone hread]
        split
        · rename_i hnone
          cases hnone.symm.trans (difference?_eq (Nat.le_of_lt hshort))
        · rename_i consumed hconsumed
          obtain rfl := Option.some.inj (hconsumed.symm.trans (difference?_eq (Nat.le_of_lt hshort)))
          split
          · rfl
          · rw [ih (declared - (offset + ((bytes.drop offset).length - after.length))) (by omega) _ rfl,
              hsize, hdrop]
            cases decodeTypes declared (offset + form.length) after <;> rfl

theorem header?_eq (bytes : Bytes) : header? bytes = some (decodeHeader bytes) := by
  unfold header? decodeHeader
  split
  · rfl
  · cases hread : Varint.decode? bytes with
    | none => rfl
    | some read =>
      obtain ⟨declared, rest⟩ := read
      have hshort := Varint.decode?_shortens hread
      obtain ⟨form, hform, -⟩ := Varint.decode?_eq_some_iff.mp hread
      have hdrop : bytes.drop (bytes.length - rest.length) = rest := by simp [hform]
      dsimp only
      rw [difference?_eq (Nat.le_of_lt hshort)]
      dsimp only
      split
      · rfl
      · rename_i hrange
        simp only [Bool.or_eq_true, decide_eq_true_eq] at hrange
        rw [types?_eq (by omega), hdrop]
        cases decodeTypes declared.toNat (bytes.length - rest.length) rest <;> rfl

/-- The bodies are read within the bytes. -/
theorem bodies?_eq (bytes : Bytes) : ∀ (codes : List Nat) (column offset : Nat),
    offset ≤ bytes.length → bodies? bytes codes column offset =
      some (decodeBodies codes column (bytes.drop offset)) := by
  intro codes
  induction codes with
  | nil =>
    intro column offset _
    rfl
  | cons code codes ih =>
    intro column offset hle
    rw [bodies?, decodeBodies]
    cases hlen : SerialType.bodyLength? code with
    | none => rfl
    | some needed =>
      dsimp only
      rw [difference?_eq hle, List.length_drop]
      dsimp only
      split
      · rfl
      · rename_i hfits
        have hsize : ((bytes.drop offset).take needed).length = needed := by
          rw [List.length_take, List.length_drop]
          omega
        rw [slice?_eq (by omega) (by omega), Nat.add_sub_cancel_left, Option.bind_some,
          copy?_eq (by rw [hsize, hlen])]
        dsimp only
        cases decodeBody code column ((bytes.drop offset).take needed) with
        | error e => rfl
        | ok value =>
          dsimp only
          rw [ih _ _ (by omega), List.drop_drop]
          cases decodeBodies codes (column + 1) (bytes.drop (offset + needed)) <;> rfl

/-- **Reading by offsets never leaves the bytes, and gives what reading gives.** -/
theorem decode?_eq (bytes : Bytes) : decode? bytes = some (Record.decode bytes) := by
  unfold decode? Record.decode
  rw [header?_eq]
  cases hheader : decodeHeader bytes with
  | error e => rfl
  | ok header =>
    obtain ⟨length, types, rest, rfl, -, -, hend⟩ := header_of_decodeHeader hheader
    refine bodies?_eq _ _ _ _ ?_
    simp only [hend, List.length_append]
    omega

end Offsets

/-- **The reader accepts exactly the records.** A row is read where the bytes begin with a record of
it; types and bodies determine the row; everything else is refused as malformed; and reading by
offsets stays within the bytes. -/
theorem decode_accepts_records (bytes : Bytes) :
    (∀ values, decode bytes = .ok values ↔ Holds bytes values) ∧
      (∀ types bodies values values', Writes types bodies values → Writes types bodies values' →
        values = values') ∧
      (∀ e, decode bytes = .error e → e.category = .codec) ∧
      Offsets.decode? bytes = some (decode bytes) :=
  ⟨fun _ => decode_eq_ok_iff, fun _ _ _ _ => Writes.unique, fun _ => category_of_decode,
    Offsets.decode?_eq bytes⟩

/-- A length and a type that are longer than they need be, and bytes after the last body. -/
example : (decode [0x80, 4, 0x80, 1, 7, 99]).toOption = some [.int 7] := by decide +kernel

end Record

end QueryMachine
