import QueryMachine.Compile.Scope
import QueryMachine.Program.Builder

/-!
# Code for expressions

The value of an expression is computed into a register chosen by the caller. Operands go to
temporaries that are given back afterwards. An expression whose value already sits in a register is
copied from there.

* `emitExpr` — code that leaves the value of an expression in a register.
* `emitFilter` — code that jumps away unless every conjunct is true.
-/

namespace QueryMachine

/-- Expressions whose values already sit in registers, the first match counting. -/
abbrev Bindings := List (Resolved × Int)

def Bindings.register? (bindings : Bindings) (e : Resolved) : Option Int :=
  (bindings.find? fun (bound, _) => bound.same e).map (·.2)

def Operator.opcode : Operator → Opcode
  | eq => .eq
  | ne => .ne
  | lt => .lt
  | le => .le
  | gt => .gt
  | ge => .ge
  | add => .add
  | subtract => .subtract
  | multiply => .multiply
  | divide => .divide
  | and => .and
  | or => .or

namespace Emit

/-- A step that only may fail. -/
def check : Except Error α → Emit α
  | .ok a => pure a
  | .error e => throw e

/-- A count or position as an operand, which has 32 bits. -/
def operand (n : Nat) : Emit Int :=
  if n < 0x80000000 then pure n else throw (.internal ("operand " ++ toString n ++ " out of range"))

end Emit

open Emit

/-- Loads an integer: a small one stands in the instruction itself. -/
def emitInt (i : Int64) (target : Int) : Emit Unit :=
  if Integer.inRange32 i.toInt then op .integer i.toInt target 0
  else opWith .int64 0 target 0 (.int64 i)

def emitValue (v : Value) (target : Int) : Emit Unit :=
  match v with
  | .null => op .null 0 target 0
  | .int i => emitInt i target
  | .real x => opWith .real 0 target 0 (.real x)
  | .text s => opWith .str8 0 target 0 (.str s)
  | .blob bytes => do
    let length ← operand bytes.length
    opWith .blob length target 0 (.blob bytes)

def emitPlace (p : Place) (target : Int) : Emit Unit :=
  match p with
  | .rowid cursor => op .rowid cursor target 0
  | .field cursor index => do
    let field ← operand index
    op .column cursor field target

/-- Combines two registers. Comparisons, logic and arithmetic each place their operands their own
way. -/
def emitOperator (operator : Operator) (left right target : Int) : Emit Unit :=
  match operator with
  | .and => op .and left right target
  | .or => op .or left right target
  | .add => op .add right left target
  | .subtract => op .subtract right left target
  | .multiply => op .multiply right left target
  | .divide => op .divide right left target
  | comparison => opFlagged comparison.opcode right target left .empty Flag.storeResult

/-- Leaves the value of an expression in register `target`. -/
def emitExpr (bindings : Bindings) (e : Resolved) (target : Int) : Emit Unit :=
  match bindings.register? e with
  | some r => op .shallowCopy r target 0
  | none =>
    match e with
    | .ref p => emitPlace p target
    | .lit v => emitValue v target
    | .binary operator left right => do
      let l ← temp
      emitExpr bindings left l
      let r ← temp
      emitExpr bindings right r
      emitOperator operator l r target
      giveBack r
      giveBack l
    | .aggregate func _ => throw (.misuseOfAggregate func.name)

/-- Leaves the values of expressions in consecutive registers. -/
def emitExprs (bindings : Bindings) : List Resolved → Int → Emit Unit
  | [], _ => pure ()
  | e :: es, target => do
    emitExpr bindings e target
    emitExprs bindings es (target + 1)

/-- Jumps to `skip` as soon as a term is not true. -/
def emitTests (bindings : Bindings) (skip : Label) : List Resolved → Emit Unit
  | [] => pure ()
  | e :: es => do
    let r ← temp
    emitExpr bindings e r
    jump .ifNot r 1 skip
    giveBack r
    emitTests bindings skip es

/-- Jumps to `skip` unless the filter is true, testing its conjuncts one by one. -/
def emitFilter (bindings : Bindings) (skip : Label) : Option Resolved → Emit Unit
  | none => pure ()
  | some filter => emitTests bindings skip filter.conjuncts

/-- Enters the program at the next instruction. -/
def emitInit : Emit Unit := do
  let start ← newLabel
  jump .init 0 0 start
  bindHere start

/-- Ends the program. -/
def emitHalt : Emit Unit := op .halt 0 0 0

def emitClose : List Int → Emit Unit
  | [] => pure ()
  | cursor :: cursors => do
    op .close cursor 0 0
    emitClose cursors

end QueryMachine
