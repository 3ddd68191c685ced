import QueryMachine.Sql.Expr
import QueryMachine.Value.Order

/-!
# Accumulators

What an aggregate function has seen so far. Every function passes over NULLs, but for `count`
without an argument.
-/

namespace QueryMachine

/-- The state of an aggregate function. -/
inductive Accumulator where
  | count (n : Nat)
  /-- The sum as a real, and as an integer as long as all values were integers and it fits. -/
  | sum (exact : Option Int64) (total : Binary64) (seen : Bool)
  | avg (total : Binary64) (n : Nat)
  | min (best : Option Value)
  | max (best : Option Value)
  | groupConcat (joined : Option String)
deriving DecidableEq, Repr, Inhabited

namespace Accumulator

def start : Aggregate → Accumulator
  | .count => count 0
  | .sum => sum (some 0) Binary64.zero false
  | .avg => avg Binary64.zero 0
  | .min => min none
  | .max => max none
  | .groupConcat => groupConcat none

/-- An accumulator for the function with the given name, which is in small letters. -/
def startNamed? (name : String) : Option Accumulator :=
  (Aggregate.all.find? fun func => func.name == name).map start

def addExact (exact : Option Int64) : Value → Option Int64
  | .int i => exact.bind fun sum => Integer.fit? (sum.toInt + i.toInt)
  | _ => none

/-- The better of two values, where a value has to compare as `wanted` to replace the best one. -/
def better (wanted : Ordering) (v : Value) : Option Value → Value
  | none => v
  | some best => if v.order best == wanted then v else best

/-- Text joined on after a separator; the first text stands alone. -/
def join (separator text : String) : Option String → String
  | none => text
  | some joined => joined ++ separator ++ text

/-- Takes in a value that is not NULL; `more` are the arguments after it. -/
def take (v : Value) (more : List Value) : Accumulator → Accumulator
  | count n => count (n + 1)
  | sum exact total _ => sum (addExact exact v) (total.add v.toReal) true
  | avg total n => avg (total.add v.toReal) (n + 1)
  | min best => min (some (better .lt v best))
  | max best => max (some (better .gt v best))
  | groupConcat joined =>
    let separator := match more with
      | [] => ","
      | s :: _ => s.toText
    groupConcat (some (join separator v.toText joined))

/-- Takes in the arguments of one row. -/
def step (a : Accumulator) : List Value → Accumulator
  | [] =>
    match a with
    | count n => count (n + 1)
    | a => a
  | v :: more => if v.isNull then a else a.take v more

def result : Accumulator → Value
  | count n => .int (Int64.ofNat n)
  | sum _ _ false => .null
  | sum (some i) _ true => .int i
  | sum none total true => .real total
  | avg _ 0 => .null
  | avg total n => .real (total.div (Binary64.ofInt n))
  | min best => best.getD .null
  | max best => best.getD .null
  | groupConcat joined =>
    match joined with
    | some text => .text text
    | none => .null

end Accumulator

end QueryMachine
