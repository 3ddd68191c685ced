import QueryMachine.Value
import QueryMachine.Text.Name

/-!
# Affinity

A column prefers one storage class, and a value is converted to it before it is stored when nothing
is lost by that.

* `ofTypeName` — the affinity that a declared type implies.
* `Value.withAffinity` — the conversion.
-/

namespace QueryMachine

/-- The storage class a column prefers. -/
inductive Affinity where
  | blob
  | text
  | numeric
  | integer
  | real
deriving DecidableEq, Repr, Inhabited

namespace Affinity

def toChar : Affinity → Char
  | blob => 'A'
  | text => 'B'
  | numeric => 'C'
  | integer => 'D'
  | real => 'E'

/-- The affinity a character stands for; any other character prefers nothing. -/
def ofChar (c : Char) : Affinity :=
  if c == 'B' || c == 'b' then text
  else if c == 'C' || c == 'c' then numeric
  else if c == 'D' || c == 'd' then integer
  else if c == 'E' || c == 'e' then real
  else blob

/-- The affinity of a declared type, by the first rule that applies to the words in it. -/
def ofTypeName (typeName : String) : Affinity :=
  let folded := Text.foldCase typeName
  let has := fun (word : String) => Text.occursIn word.toList folded
  if has "int" then integer
  else if has "char" || has "clob" || has "text" then text
  else if (Text.trim typeName).isEmpty || has "blob" then blob
  else if has "real" || has "floa" || has "doub" then real
  else numeric

end Affinity

namespace Value

/-- The affinity that describes a value's own class. -/
def affinity : Value → Affinity
  | null => .blob
  | blob _ => .blob
  | int _ => .integer
  | real _ => .real
  | text _ => .text

/-- A real that is a 64-bit integer becomes that integer. -/
def narrow (x : Binary64) : Value :=
  match x.toInt64? with
  | some i => int i
  | none => real x

/-- The number that a text writes in digits; words for infinities and NaN are no numbers here. -/
def numberOfText? (s : String) : Option Value :=
  let trimmed := Text.trim s
  match Text.readInt64? trimmed with
  | some i => some (int i)
  | none =>
    match Text.readBinary64? trimmed with
    | none => none
    | some x =>
      let folded := trimmed.map Char.toLower
      if Text.occursIn "inf".toList folded || Text.occursIn "nan".toList folded then none
      else some (narrow x)

def withAffinity : Affinity → Value → Value
  | .text, int i => text (toText (int i))
  | .text, real x => text (toText (real x))
  | .numeric, text s => (numberOfText? s).getD (text s)
  | .integer, text s => (numberOfText? s).getD (text s)
  | .integer, real x => narrow x
  | .real, int i => real (Binary64.ofInt i.toInt)
  | .real, text s =>
    match numberOfText? s with
    | some (int i) => real (Binary64.ofInt i.toInt)
    | some v => v
    | none => text s
  | _, v => v

end Value

end QueryMachine
