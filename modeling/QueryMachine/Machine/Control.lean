import QueryMachine.Machine.State
import QueryMachine.Value.Affinity

/-!
# Control flow

Subroutines, coroutines and jumps on the value of a register.
-/

namespace QueryMachine.Machine

def jumpIf (condition : Bool) (target : Int) (s : State) : Flow × State :=
  (if condition then .jump target else .next, s)

/-- The address of the next instruction, as a register holds it. -/
def returnAddress (pc : Nat) : Value := .int (Int64.ofNat (pc + 1))

/-- Enters a subroutine. -/
def gosub (pc : Nat) (i : Instruction) (s : State) : Flow × State :=
  (.jump i.p2, s.set i.p1 (returnAddress pc))

def leave (i : Instruction) (s : State) : Flow × State := (.jump (s.get i.p1).toInt64.toInt, s)

/-- Sets a coroutine up. -/
def initCoroutine (i : Instruction) (s : State) : Flow × State :=
  jumpIf (i.p2 != 0) i.p2 (s.set i.p1 (.int (Int64.ofInt i.p3)))

/-- Changes over between a coroutine and its caller. -/
def changeOver (pc : Nat) (i : Instruction) (s : State) : Flow × State :=
  (.jump (s.get i.p1).toInt64.toInt, s.set i.p1 (returnAddress pc))

/-- Ends a coroutine: goes where the `yield` that resumed it says. -/
def endCoroutine (code : Array Instruction) (pc : Nat) (i : Instruction) (s : State) : Effect :=
  let resume := (s.get i.p1).toInt64.toInt
  if resume < 0 || code.size < resume then .error (.badJump resume)
  else if resume = 0 then .error (.badOperand i.opcode pc .noCallingYield)
  else
    match code[(resume - 1).toNat]? with
    | some caller =>
      if caller.opcode = .yield then .ok (.jump caller.p2, s)
      else .error (.badOperand i.opcode pc .noCallingYield)
    | none => .error (.badOperand i.opcode pc .noCallingYield)

/-- Jumps if a register has the given truth value; p3 decides on NULL. -/
def jumpOnTruth (wanted : Bool) (i : Instruction) (s : State) : Flow × State :=
  let condition := match (s.get i.p1).truth? with
    | some truth => truth == wanted
    | none => i.p3 != 0
  jumpIf condition i.p2 s

/-- Takes p3 from a positive register and jumps. -/
def ifPos (i : Instruction) (s : State) : Flow × State :=
  let v := (s.get i.p1).toInt64.toInt
  if 0 < v then (.jump i.p2, s.set i.p1 (.int (Integer.clamp (v - i.p3)))) else (.next, s)

def decrJumpZero (i : Instruction) (s : State) : Flow × State :=
  let v := Integer.clamp ((s.get i.p1).toInt64.toInt - 1)
  jumpIf (v == 0) i.p2 (s.set i.p1 (.int v))

/-- Makes a register an integer. NULL may stay. -/
def mustBeInt (i : Instruction) (s : State) : Effect :=
  match Value.withAffinity .integer (s.get i.p1) with
  | .null => .ok (.next, s)
  | .int v => .ok (.next, s.set i.p1 (.int v))
  | v => if i.p2 != 0 then .ok (.jump i.p2, s) else .error (.typeMismatch v.className)

end QueryMachine.Machine
