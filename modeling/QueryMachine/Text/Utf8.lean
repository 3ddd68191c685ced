import QueryMachine.Bytes

/-!
# Text as bytes

Text is stored as UTF-8. Reading it back is strict for records, where bad bytes are an error, and
lenient for showing a blob as text, where each longest piece that could have begun a character and
did not become one is replaced by U+FFFD.
-/

namespace QueryMachine.Text

def toBytes (s : String) : Bytes := s.toUTF8.toList

/-- The text that bytes encode, if they are well formed. -/
def ofBytes? (bytes : Bytes) : Option String := String.fromUTF8? ⟨bytes.toArray⟩

/-- What a first byte announces: its own payload bits, how many bytes follow, and the range of the
byte right after it. -/
structure LeadByte where
  payload : Nat
  following : Nat
  low : Nat
  high : Nat

/-- The announcement of a byte that can begin a character. -/
def leadByte? (b : Nat) : Option LeadByte :=
  if b < 0x80 then some ⟨b, 0, 0x80, 0xBF⟩
  else if 0xC2 ≤ b && b ≤ 0xDF then some ⟨b - 0xC0, 1, 0x80, 0xBF⟩
  else if b == 0xE0 then some ⟨0, 2, 0xA0, 0xBF⟩
  else if b == 0xED then some ⟨0xD, 2, 0x80, 0x9F⟩
  else if 0xE1 ≤ b && b ≤ 0xEF then some ⟨b - 0xE0, 2, 0x80, 0xBF⟩
  else if b == 0xF0 then some ⟨0, 3, 0x90, 0xBF⟩
  else if 0xF1 ≤ b && b ≤ 0xF3 then some ⟨b - 0xF0, 3, 0x80, 0xBF⟩
  else if b == 0xF4 then some ⟨4, 3, 0x80, 0x8F⟩
  else none

/-- Takes `following` bytes, the first of them between `low` and `high`, onto the code point so far.
The code point is missing when a byte does not continue the character; that byte is not taken. -/
def takeFollowing (code : Nat) : Nat → Nat → Nat → Bytes → Option Nat × Bytes
  | 0, _, _, rest => (some code, rest)
  | _ + 1, _, _, [] => (none, [])
  | following + 1, low, high, b :: rest =>
    if low ≤ b.toNat && b.toNat ≤ high then
      takeFollowing (code * 64 + (b.toNat - 0x80)) following 0x80 0xBF rest
    else (none, b :: rest)

/-- The first character of non-empty bytes, and the bytes after it. -/
def firstChar (b : UInt8) (rest : Bytes) : Char × Bytes :=
  match leadByte? b.toNat with
  | none => ('\uFFFD', rest)
  | some lead =>
    match takeFollowing lead.payload lead.following lead.low lead.high rest with
    | (some code, after) => (Char.ofNat code, after)
    | (none, after) => ('\uFFFD', after)

theorem takeFollowing_length_le (rest : Bytes) :
    ∀ code following low high,
      (takeFollowing code following low high rest).2.length ≤ rest.length := by
  induction rest with
  | nil => intro code following low high; cases following <;> simp [takeFollowing]
  | cons b rest ih =>
    intro code following low high
    cases following with
    | zero => simp [takeFollowing]
    | succ following =>
      simp only [takeFollowing]
      split
      · exact Nat.le_succ_of_le (ih _ _ _ _)
      · simp

theorem firstChar_length_le (b : UInt8) (rest : Bytes) :
    (firstChar b rest).2.length ≤ rest.length := by
  unfold firstChar
  split
  · simp
  · rename_i lead _
    have shorter := takeFollowing_length_le rest lead.payload lead.following lead.low lead.high
    split <;> simp_all

/-- The characters of bytes, ill-formed pieces replaced by U+FFFD. -/
def lenientChars : Bytes → List Char
  | [] => []
  | b :: rest =>
    (firstChar b rest).1 :: lenientChars (firstChar b rest).2
termination_by bytes => bytes.length
decreasing_by
  have := firstChar_length_le b rest
  simp only [List.length_cons]
  omega

/-- The text of bytes, ill-formed pieces replaced by U+FFFD. -/
def ofBytesLenient (bytes : Bytes) : String := String.ofList (lenientChars bytes)

end QueryMachine.Text
