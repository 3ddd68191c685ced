import QueryMachine.Value

/-!
# Expressions

An expression is built from references, literals, binary operators and aggregate calls. It is
parametric in what a reference is: a `Name` as written in a statement, or a `Place` that a cursor
can read once names are resolved.

* `traverse` — replaces every reference, left to right, stopping at the first failure.
* `conjuncts` — the terms of a tree of conjunctions, left to right.
* `same` — equality of expressions; real literals are the same when they are numerically equal.
-/

namespace QueryMachine

inductive Operator where
  | eq
  | ne
  | lt
  | le
  | gt
  | ge
  | add
  | subtract
  | multiply
  | divide
  | and
  | or
deriving DecidableEq, Repr, Inhabited

def Operator.sql : Operator → String
  | eq => "="
  | ne => "!="
  | lt => "<"
  | le => "<="
  | gt => ">"
  | ge => ">="
  | add => "+"
  | subtract => "-"
  | multiply => "*"
  | divide => "/"
  | and => "AND"
  | or => "OR"

inductive Aggregate where
  | count
  | sum
  | avg
  | min
  | max
  | groupConcat
deriving DecidableEq, Repr, Inhabited

namespace Aggregate

/-- The name of the function, in small letters. -/
def name : Aggregate → String
  | count => "count"
  | sum => "sum"
  | avg => "avg"
  | min => "min"
  | max => "max"
  | groupConcat => "group_concat"

def all : List Aggregate := [count, sum, avg, min, max, groupConcat]

end Aggregate

/-- What a cursor can read: a field of its row, or the rowid. -/
inductive Place where
  | field (cursor : Int) (index : Nat)
  | rowid (cursor : Int)
deriving DecidableEq, Repr, Inhabited

/-- A reference as written: a column, possibly of a named table, or a place already. -/
inductive Name where
  | column (table : Option String) (name : String)
  | place (p : Place)
deriving DecidableEq, Repr, Inhabited

/-- An expression over references of type `ρ`. -/
inductive Expr (ρ : Type) where
  | ref (r : ρ)
  | lit (v : Value)
  | binary (op : Operator) (left right : Expr ρ)
  | aggregate (func : Aggregate) (args : List (Expr ρ))
deriving Repr, Inhabited

namespace Expr

variable {ρ σ : Type}

/-- Whether the outermost node is a binary operator. -/
def isBinary : Expr ρ → Bool
  | binary .. => true
  | _ => false

def containsAggregate : Expr ρ → Bool
  | aggregate .. => true
  | binary _ left right => left.containsAggregate || right.containsAggregate
  | _ => false

/-- The first aggregate function that is called, reading left to right. -/
def firstAggregate? : Expr ρ → Option Aggregate
  | aggregate func _ => some func
  | binary _ left right =>
    match left.firstAggregate? with
    | some func => some func
    | none => right.firstAggregate?
  | _ => none

/-- The terms of a tree of conjunctions, left to right. -/
def conjuncts : Expr ρ → List (Expr ρ)
  | binary .and left right => left.conjuncts ++ right.conjuncts
  | e => [e]

mutual

/-- Replaces every reference, left to right; the first failure wins. -/
def traverse (f : ρ → Except ε σ) : Expr ρ → Except ε (Expr σ)
  | ref r =>
    match f r with
    | .ok s => .ok (ref s)
    | .error e => .error e
  | lit v => .ok (lit v)
  | binary op left right =>
    match traverse f left with
    | .error e => .error e
    | .ok left =>
      match traverse f right with
      | .error e => .error e
      | .ok right => .ok (binary op left right)
  | aggregate func args =>
    match traverseAll f args with
    | .error e => .error e
    | .ok args => .ok (aggregate func args)

def traverseAll (f : ρ → Except ε σ) : List (Expr ρ) → Except ε (List (Expr σ))
  | [] => .ok []
  | e :: es =>
    match traverse f e with
    | .error e => .error e
    | .ok e =>
      match traverseAll f es with
      | .error e => .error e
      | .ok es => .ok (e :: es)

end

end Expr

/-- Whether two literals are the same: of one class, reals numerically. A NaN is not the same as
itself, and the two zeros are. -/
def Value.sameLiteral : Value → Value → Bool
  | .real a, .real b => a.equal b
  | .null, .null => true
  | .int a, .int b => a == b
  | .text a, .text b => a == b
  | .blob a, .blob b => a == b
  | _, _ => false

namespace Expr

variable {ρ : Type} [BEq ρ]

mutual

def same : Expr ρ → Expr ρ → Bool
  | ref a, ref b => a == b
  | lit a, lit b => a.sameLiteral b
  | binary op left right, binary op' left' right' =>
    op == op' && same left left' && same right right'
  | aggregate func args, aggregate func' args' => func == func' && sameAll args args'
  | _, _ => false

def sameAll : List (Expr ρ) → List (Expr ρ) → Bool
  | [], [] => true
  | a :: as, b :: bs => same a b && sameAll as bs
  | _, _ => false

end

end Expr

end QueryMachine
