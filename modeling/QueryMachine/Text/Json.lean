/-!
# Strict JSON text

JSON text as tokens, and passing over a value. Nothing but blank, tab, line feed and carriage return
may stand between tokens. A string keeps its escapes as code units until it is asked for its text,
since halves of surrogate pairs only matter there.

* `tokens?` — the tokens of a text.
* `skipValue?` — the tokens after the value at the front.
-/

namespace QueryMachine.Text.Json

/-- A part of a string: a character, or the code unit that an escape gives. -/
inductive Piece where
  | char (c : Char)
  | unit (n : Nat)
deriving DecidableEq, Repr

inductive Token where
  | openArray
  | closeArray
  | openObject
  | closeObject
  | colon
  | comma
  | null
  | bool (b : Bool)
  | number
  | str (pieces : List Piece)
deriving DecidableEq, Repr

/-! ## Tokens -/

def hexValue? (c : Char) : Option Nat :=
  if c.isDigit then some (c.toNat - '0'.toNat)
  else if 'a' ≤ c && c ≤ 'f' then some (c.toNat - 'a'.toNat + 10)
  else if 'A' ≤ c && c ≤ 'F' then some (c.toNat - 'A'.toNat + 10)
  else none

def codeUnit? (a b c d : Char) : Option Nat :=
  match hexValue? a, hexValue? b, hexValue? c, hexValue? d with
  | some a, some b, some c, some d => some (((a * 16 + b) * 16 + c) * 16 + d)
  | _, _, _, _ => none

def escaped? (c : Char) : Option Char :=
  if c == '"' || c == '\\' || c == '/' then some c
  else if c == 'b' then some '\x08'
  else if c == 'f' then some '\x0c'
  else if c == 'n' then some '\n'
  else if c == 'r' then some '\r'
  else if c == 't' then some '\t'
  else none

/-- The string up to its closing quote, and the text after it. -/
def scanString : List Char → Option (List Piece × List Char)
  | [] => none
  | '"' :: rest => some ([], rest)
  | '\\' :: 'u' :: a :: b :: c :: d :: rest =>
    match codeUnit? a b c d, scanString rest with
    | some n, some (pieces, rest) => some (.unit n :: pieces, rest)
    | _, _ => none
  | '\\' :: c :: rest =>
    match escaped? c, scanString rest with
    | some c, some (pieces, rest) => some (.char c :: pieces, rest)
    | _, _ => none
  | c :: rest =>
    if c == '\\' || c.toNat < 0x20 then none
    else
      match scanString rest with
      | some (pieces, rest) => some (.char c :: pieces, rest)
      | none => none

def skipDigits? : List Char → Option (List Char)
  | c :: rest => if c.isDigit then some (rest.dropWhile Char.isDigit) else none
  | [] => none

/-- The text after the whole part of a number: a zero stands alone. -/
def skipWhole? : List Char → Option (List Char)
  | '0' :: rest => some rest
  | text => skipDigits? text

/-- The text after the fraction of a number, if it has one. -/
def skipFraction? : List Char → Option (List Char)
  | '.' :: rest => skipDigits? rest
  | text => some text

/-- The text after the exponent of a number, if it has one. -/
def skipExponent? : List Char → Option (List Char)
  | 'e' :: '+' :: rest => skipDigits? rest
  | 'e' :: '-' :: rest => skipDigits? rest
  | 'e' :: rest => skipDigits? rest
  | 'E' :: '+' :: rest => skipDigits? rest
  | 'E' :: '-' :: rest => skipDigits? rest
  | 'E' :: rest => skipDigits? rest
  | text => some text

def skipNumber? (text : List Char) : Option (List Char) :=
  ((skipWhole? text).bind skipFraction?).bind skipExponent?

def token? (token : Token) (rest : Option (List Char)) : Option (Token × List Char) :=
  rest.map fun rest => (token, rest)

/-- The token at the front of a text that does not begin with a blank, and the text after it. -/
def scanToken : List Char → Option (Token × List Char)
  | '[' :: rest => some (.openArray, rest)
  | ']' :: rest => some (.closeArray, rest)
  | '\x7b' :: rest => some (.openObject, rest)
  | '\x7d' :: rest => some (.closeObject, rest)
  | ':' :: rest => some (.colon, rest)
  | ',' :: rest => some (.comma, rest)
  | 'n' :: 'u' :: 'l' :: 'l' :: rest => some (.null, rest)
  | 't' :: 'r' :: 'u' :: 'e' :: rest => some (.bool true, rest)
  | 'f' :: 'a' :: 'l' :: 's' :: 'e' :: rest => some (.bool false, rest)
  | '"' :: rest => (scanString rest).map fun (pieces, rest) => (.str pieces, rest)
  | '-' :: rest => token? .number (skipNumber? rest)
  | text => token? .number (skipNumber? text)

/-- Whether a character may stand between tokens. -/
def isSpace (c : Char) : Bool := c == ' ' || c == '\t' || c == '\n' || c == '\r'

/-- The tokens of a text, of which `fuel` bounds the number. -/
def tokensWithin : (fuel : Nat) → List Char → Option (List Token)
  | 0, _ => none
  | fuel + 1, text =>
    match text.dropWhile isSpace with
    | [] => some []
    | c :: rest =>
      match scanToken (c :: rest) with
      | none => none
      | some (token, rest) => (tokensWithin fuel rest).map (token :: ·)

/-- The tokens of a text. Every token takes at least one character. -/
def tokens? (text : String) : Option (List Token) :=
  tokensWithin (text.toList.length + 1) text.toList

/-! ## Strings -/

/-- The characters of a string; none if half of a surrogate pair stands alone. -/
def decode? : List Piece → Option (List Char)
  | [] => some []
  | .char c :: rest => (decode? rest).map (c :: ·)
  | .unit high :: .unit low :: rest =>
    if 0xD800 ≤ high && high ≤ 0xDBFF then
      (if 0xDC00 ≤ low && low ≤ 0xDFFF then
        (decode? rest).map (Char.ofNat (0x10000 + (high - 0xD800) * 0x400 + (low - 0xDC00)) :: ·)
      else none)
    else if 0xDC00 ≤ high && high ≤ 0xDFFF then none
    else (decode? (.unit low :: rest)).map (Char.ofNat high :: ·)
  | .unit n :: rest =>
    if 0xD800 ≤ n && n ≤ 0xDFFF then none else (decode? rest).map (Char.ofNat n :: ·)

/-! ## Passing over a value -/

/-- What is open around a value. -/
inductive Frame where
  | array
  | object
deriving DecidableEq, Repr

/-- What may come next. -/
inductive Expect where
  | value
  /-- A value, or the end of the array just opened. -/
  | valueOrClose
  | key
  /-- A key, or the end of the object just opened. -/
  | keyOrClose
  | colon
  /-- A comma or the end of what is open. -/
  | more
deriving DecidableEq, Repr

/-- The first token of a value: what is open after it, and what may come then. -/
def startValue (frames : List Frame) : Token → Option (List Frame × Expect)
  | .openArray => some (.array :: frames, .valueOrClose)
  | .openObject => some (.object :: frames, .keyOrClose)
  | .null => some (frames, .more)
  | .bool _ => some (frames, .more)
  | .number => some (frames, .more)
  | .str _ => some (frames, .more)
  | _ => none

/-- A token after a value: a comma, or the end of what was opened last. -/
def continueValue : List Frame → Token → Option (List Frame × Expect)
  | .array :: frames, .comma => some (.array :: frames, .value)
  | .object :: frames, .comma => some (.object :: frames, .key)
  | .array :: frames, .closeArray => some (frames, .more)
  | .object :: frames, .closeObject => some (frames, .more)
  | _, _ => none

/-- A key of an object. -/
def startMember (frames : List Frame) : Token → Option (List Frame × Expect)
  | .str _ => some (frames, .colon)
  | _ => none

/-- What is open after a token, and what may come then; none if the token may not come. -/
def advance (frames : List Frame) (expect : Expect) (token : Token) :
    Option (List Frame × Expect) :=
  match expect with
  | .value => startValue frames token
  | .valueOrClose =>
    if token = .closeArray then some (frames.tail, .more) else startValue frames token
  | .key => startMember frames token
  | .keyOrClose =>
    if token = .closeObject then some (frames.tail, .more) else startMember frames token
  | .colon => if token = .colon then some (frames, .value) else none
  | .more => continueValue frames token

/-- The tokens after the value that is complete once nothing is open any more. -/
def skipFrom (frames : List Frame) (expect : Expect) (tokens : List Token) : Option (List Token) :=
  if frames.isEmpty && expect = .more then some tokens
  else
    match tokens with
    | [] => none
    | token :: rest =>
      match advance frames expect token with
      | some (frames, expect) => skipFrom frames expect rest
      | none => none

def skipValue? (tokens : List Token) : Option (List Token) := skipFrom [] .value tokens

end QueryMachine.Text.Json
