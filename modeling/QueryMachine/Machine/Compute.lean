import QueryMachine.Machine.Control
import QueryMachine.Value.Arithmetic

/-!
# Constants, comparisons and arithmetic
-/

namespace QueryMachine.Machine

/-- Stores the payload. -/
def loadConstant (pc : Nat) (i : Instruction) (s : State) : Effect :=
  match i.payload with
  | .int64 v => .ok (.next, s.set i.p2 (.int v))
  | .int v => .ok (.next, s.set i.p2 (.int (Int64.ofInt v)))
  | .real x => .ok (.next, s.set i.p2 (.real x))
  | .str text => .ok (.next, s.set i.p2 (.text text))
  | .blob bytes => .ok (.next, s.set i.p2 (.blob bytes))
  | _ => .error (.badOperand i.opcode pc .constantWithoutPayload)

/-- Writes NULL to consecutive registers. -/
def setNulls (first : Int) : (count : Nat) → State → State
  | 0, s => s
  | count + 1, s => setNulls (first + 1) count (s.set first .null)

/-- Copies consecutive registers, one after the other. -/
def copyBlock (source target : Int) : (count : Nat) → State → State
  | 0, s => s
  | count + 1, s => copyBlock (source + 1) (target + 1) count (s.set target (s.get source))

def admits (opcode : Opcode) (o : Ordering) : Bool :=
  match opcode with
  | .eq => o == .eq
  | .ne => o != .eq
  | .lt => o == .lt
  | .le => o != .gt
  | .gt => o == .gt
  | _ => o != .lt

/-- The result of a comparison, where one side at least is NULL and NULLs compare. -/
def compareNulls (opcode : Opcode) (both : Bool) : Bool :=
  match opcode with
  | .eq | .le | .ge => both
  | .ne => !both
  | _ => false

/-- The result of a comparison; unknown with a NULL, unless NULLs compare. -/
def comparison (opcode : Opcode) (nullEqual : Bool) (left right : Value) : Option Bool :=
  if left.isNull || right.isNull then
    if nullEqual then some (compareNulls opcode (left.isNull && right.isNull)) else none
  else some (admits opcode (left.order right))

/-- Compares two registers, and stores the result or jumps on it. -/
def compareRegisters (i : Instruction) (s : State) : Flow × State :=
  let result := comparison i.opcode (i.has Flag.nullEqual) (s.get i.p3) (s.get i.p1)
  if i.has Flag.storeResult then (.next, s.set i.p2 (.ofTruth result))
  else jumpIf (result.getD (i.has Flag.jumpIfNull)) i.p2 s

/-- Arithmetic on register p2 and register p1. -/
def arithmetic (operation : Value → Value → Value) (i : Instruction) (s : State) : Flow × State :=
  (.next, s.set i.p3 (operation (s.get i.p2) (s.get i.p1)))

/-- Logic on register p1 and register p2. -/
def logic (operation : Option Bool → Option Bool → Option Bool) (i : Instruction) (s : State) :
    Flow × State :=
  (.next, s.set i.p3 (.ofTruth (operation (s.get i.p1).truth? (s.get i.p2).truth?)))

end QueryMachine.Machine
