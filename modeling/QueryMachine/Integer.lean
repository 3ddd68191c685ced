/-!
# Integers of limited range

Exact integer results, brought back into the 64-bit range: refused or moved to the nearest end.
-/

namespace QueryMachine.Integer

def inRange (i : Int) : Bool :=
  decide (-0x8000000000000000 ≤ i) && decide (i < 0x8000000000000000)

def inRange32 (i : Int) : Bool := decide (-0x80000000 ≤ i) && decide (i < 0x80000000)

/-- The integer, if it is in the 64-bit range. -/
def fit? (i : Int) : Option Int64 := if inRange i then some (Int64.ofInt i) else none

/-- The integer, or the end of the 64-bit range that is nearest to it. -/
def clamp (i : Int) : Int64 := Int64.ofInt (max (-0x8000000000000000) (min 0x7FFFFFFFFFFFFFFF i))

end QueryMachine.Integer
