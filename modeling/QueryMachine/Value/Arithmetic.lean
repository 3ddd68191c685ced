import QueryMachine.Value

/-!
# Arithmetic on values

NULL makes the result NULL. Two integers give an integer as long as it fits in 64 bits; otherwise
both count as reals. A result that is not a number is NULL, and so is a division by zero.
-/

namespace QueryMachine.Value

/-- A real result: what is not a number is NULL. -/
def ofReal (x : Binary64) : Value := if x.isNaN then null else real x

def arithmetic (onInts : Int → Int → Int) (onReals : Binary64 → Binary64 → Binary64) :
    Value → Value → Value
  | null, _ => null
  | _, null => null
  | int a, int b =>
    match Integer.fit? (onInts a.toInt b.toInt) with
    | some i => int i
    | none => ofReal (onReals (Binary64.ofInt a.toInt) (Binary64.ofInt b.toInt))
  | a, b => ofReal (onReals a.toReal b.toReal)

def add : Value → Value → Value := arithmetic (· + ·) Binary64.add

def sub : Value → Value → Value := arithmetic (· - ·) Binary64.sub

def mul : Value → Value → Value := arithmetic (· * ·) Binary64.mul

/-- The quotient; between integers it is cut to its integer part. -/
def div (a b : Value) : Value :=
  if a.isNull || b.isNull then null
  else if b.toReal.equal Binary64.zero then null
  else arithmetic Int.tdiv Binary64.div a b

/-! ## Logic with an unknown truth value -/

/-- Conjunction: one false term decides, otherwise an unknown term makes the result unknown. -/
def both : Option Bool → Option Bool → Option Bool
  | some false, _ => some false
  | _, some false => some false
  | some true, some true => some true
  | _, _ => none

/-- Disjunction: one true term decides, otherwise an unknown term makes the result unknown. -/
def either : Option Bool → Option Bool → Option Bool
  | some true, _ => some true
  | _, some true => some true
  | some false, some false => some false
  | _, _ => none

end QueryMachine.Value
