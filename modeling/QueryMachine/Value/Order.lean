import QueryMachine.Value

/-!
# The order of values

NULL comes before numbers, numbers before texts, texts before blobs. Numbers of both kinds compare
by what they are worth, texts by code points and blobs byte by byte.

* `compare?` — the order, undefined only between reals of which one is a NaN.
* `order` — the order used for sorting and for keys: what is not comparable counts as equal.
* `orderRows` — rows field by field, a shorter row before its extensions.
-/

namespace QueryMachine.Value

/-- The rank of a storage class: integers and reals share one. -/
def rank : Value → Nat
  | null => 0
  | int _ => 1
  | real _ => 1
  | text _ => 2
  | blob _ => 3

/-- How two values compare; undefined between a NaN and a real. -/
def compare? : Value → Value → Option Ordering
  | null, null => some .eq
  | int a, int b => some (compare a.toInt b.toInt)
  | real a, real b => a.compare? b
  | int a, real b => some (Binary64.compareInt a.toInt b)
  | real a, int b => some (Binary64.compareInt b.toInt a).swap
  | text a, text b => some (compare a b)
  | blob a, blob b => some (compare a b)
  | a, b => some (compare a.rank b.rank)

/-- Whether two values are equal: an integer equals the real of the same worth. -/
def equal (a b : Value) : Bool := a.compare? b == some .eq

/-- The order of sorting and of keys. -/
def order (a b : Value) : Ordering := (a.compare? b).getD .eq

/-- Rows field by field; of two rows that agree as far as both go, the shorter is first. -/
def orderRows : List Value → List Value → Ordering
  | [], [] => .eq
  | [], _ :: _ => .lt
  | _ :: _, [] => .gt
  | a :: as, b :: bs => (order a b).then (orderRows as bs)

/-- Whether the leading fields of a row equal `lead`. -/
def startsWith : (row lead : List Value) → Bool
  | _, [] => true
  | [], _ :: _ => false
  | a :: as, b :: bs => order a b == .eq && startsWith as bs

end QueryMachine.Value
