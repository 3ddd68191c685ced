import QueryMachine.Error
import QueryMachine.Text.Json

/-!
# Compiler options

The options, and reading them from JSON text: an object, in which unknown keys are passed over and
known ones stand at most once, or an array of the options in order. What is missing has its standard
value.
-/

namespace QueryMachine

structure Options where
  /-- Keep the indexes of a table in step with its rows. -/
  maintainIndexes : Bool
  foreignKeys : Bool
  /-- Clear a whole tree where every row is deleted. -/
  truncate : Bool
  /-- Hand temporaries that were given back out again. -/
  reuseTemps : Bool
deriving DecidableEq, Repr

namespace Options

def standard : Options := ⟨true, false, true, false⟩

instance : Inhabited Options := ⟨standard⟩

/-! ## JSON text -/

/-- The keys of the options, in order. -/
def keys : List String :=
  ["maintain_indexes", "foreign_keys", "truncate_optimization", "reuse_temp_registers"]

def setAt (o : Options) (position : Nat) (b : Bool) : Options :=
  match position with
  | 0 => { o with maintainIndexes := b }
  | 1 => { o with foreignKeys := b }
  | 2 => { o with truncate := b }
  | _ => { o with reuseTemps := b }

/-- The rest of an array whose next entry is at the given position. -/
def readArray (o : Options) : (position : Nat) → List Text.Json.Token → Option Options
  | 0, [.closeArray] => some o
  | 0, .bool b :: rest => readArray (o.setAt 0 b) 1 rest
  | position, [.closeArray] => if position ≤ keys.length then some o else none
  | position, .comma :: .bool b :: rest =>
    if 0 < position && position < keys.length then
      readArray (o.setAt position b) (position + 1) rest
    else none
  | _, _ => none

/-- The members of an object from a key on, of which `fuel` bounds the number; `seen` holds the
positions of the keys so far. -/
def readMembers (o : Options) (seen : List Nat) :
    (fuel : Nat) → List Text.Json.Token → Option Options
  | fuel + 1, .str pieces :: .colon :: rest =>
    match Text.Json.decode? pieces with
    | none => none
    | some key =>
      match keys.findIdx? fun k => k.toList == key with
      | none =>
        match Text.Json.skipValue? rest with
        | some [.closeObject] => some o
        | some (.comma :: rest) => readMembers o seen fuel rest
        | _ => none
      | some position =>
        if seen.contains position then none
        else
          match rest with
          | [.bool b, .closeObject] => some (o.setAt position b)
          | .bool b :: .comma :: rest =>
            readMembers (o.setAt position b) (position :: seen) fuel rest
          | _ => none
  | _, _ => none

def ofTokens? : List Text.Json.Token → Option Options
  | .openArray :: rest => readArray standard 0 rest
  | [.openObject, .closeObject] => some standard
  | .openObject :: rest => readMembers standard [] rest.length rest
  | _ => none

def ofJson (text : String) : Except Error Options :=
  match (Text.Json.tokens? text).bind ofTokens? with
  | some o => .ok o
  | none => .error (.invalidConfig "an object or an array of options is expected")

end Options

end QueryMachine
