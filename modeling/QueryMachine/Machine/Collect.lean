import QueryMachine.Machine.Control

/-!
# Sets of rowids, aggregates and result rows
-/

namespace QueryMachine.Machine

/-- A set of rowids, in ascending order, with one more. -/
def insertRowid (id : Int64) : List Int64 → List Int64
  | [] => [id]
  | x :: xs => if id < x then id :: x :: xs else if id = x then x :: xs else x :: insertRowid id xs

/-- Adds the rowid in register p2 to a set. -/
def rowSetAdd (i : Instruction) (s : State) : Flow × State :=
  let ids := (s.rowSets.get? i.p1).getD []
  (.next, { s with rowSets := s.rowSets.set i.p1 (insertRowid (s.get i.p2).toInt64 ids) })

/-- Takes the least rowid out of a set, or jumps if there is none. -/
def rowSetRead (i : Instruction) (s : State) : Flow × State :=
  match s.rowSets.get? i.p1 with
  | some (id :: ids) => (.next, { s with rowSets := s.rowSets.set i.p1 ids }.set i.p3 (.int id))
  | _ => (.jump i.p2, s)

/-- The accumulator of a register: the one that is there, else a new one for the function that the
payload names. -/
def accumulatorOf (pc : Nat) (i : Instruction) (s : State) (r : Int) : Except Fault Accumulator :=
  match i.payload with
  | .function name =>
    match s.accumulators.get? r with
    | some a => .ok a
    | none =>
      match Accumulator.startNamed? name with
      | some a => .ok a
      | none => .error (.badOperand i.opcode pc .unknownAggregate)
  | _ => .error (.badOperand i.opcode pc .missingFunction)

/-- Takes arguments into an accumulator; the flags are their number. -/
def aggStep (pc : Nat) (i : Instruction) (s : State) : Effect :=
  match accumulatorOf pc i s i.p3 with
  | .error f => .error f
  | .ok a =>
    let args := s.getBlock i.p2 i.flags.toNat
    .ok (.next, { s with accumulators := s.accumulators.set i.p3 (a.step args) })

/-- Replaces an accumulator by its result. -/
def aggFinal (pc : Nat) (i : Instruction) (s : State) : Effect :=
  match accumulatorOf pc i s i.p1 with
  | .error f => .error f
  | .ok a => .ok (.next, s.set i.p1 a.result)

def resultRow (i : Instruction) (s : State) : Flow × State :=
  (.next, { s with rows := s.rows.push (s.getBlock i.p1 i.p2) })

end QueryMachine.Machine
