import QueryMachine.Machine.Access
import QueryMachine.Machine.Collect
import QueryMachine.Machine.Compute
import QueryMachine.Machine.ForeignKey

/-!
# The machine

A program runs from its first instruction until `halt`, until control passes beyond the last
instruction, or until a fault. The number of instructions a run may take is limited, so every run
ends. A fault keeps the changes that earlier instructions made to the trees.

* `execute` — the effect of one instruction.
* `run` — the outcome of a program, and the trees after it.
-/

namespace QueryMachine.Machine

/-- What a run does not change. -/
structure Environment where
  code : Array Instruction
  schema : Schema
  foreignKeys : List ForeignKey
  stepLimit : Nat
deriving Repr, Inhabited

def execute (env : Environment) (pc : Nat) (i : Instruction) (s : State) : Effect :=
  match i.opcode with
  | .init | .goto => .ok (.jump i.p2, s)
  | .halt => .ok (.halt, s)
  | .noop => .ok (.next, s)
  | .gosub => .ok (gosub pc i s)
  | .ret => .ok (leave i s)
  | .initCoroutine => .ok (initCoroutine i s)
  | .yield => .ok (changeOver pc i s)
  | .endCoroutine => endCoroutine env.code pc i s
  | .ifTrue => .ok (jumpOnTruth true i s)
  | .ifNot => .ok (jumpOnTruth false i s)
  | .ifPos => .ok (ifPos i s)
  | .decrJumpZero => .ok (decrJumpZero i s)
  | .mustBeInt => mustBeInt i s
  | .isNull => .ok (jumpIf (s.get i.p1).isNull i.p2 s)
  | .notNull => .ok (jumpIf (!(s.get i.p1).isNull) i.p2 s)
  | .integer => .ok (.next, s.set i.p2 (.int (Int64.ofInt i.p1)))
  | .int64 | .real | .str8 | .str | .blob => loadConstant pc i s
  | .null => .ok (.next, setNulls i.p2 (max i.p3 i.p2 - i.p2 + 1).toNat s)
  | .copy => .ok (.next, copyBlock i.p1 i.p2 (i.p3.toNat + 1) s)
  | .shallowCopy => .ok (.next, s.set i.p2 (s.get i.p1))
  | .eq | .ne | .lt | .le | .gt | .ge => .ok (compareRegisters i s)
  | .add => .ok (arithmetic Value.add i s)
  | .subtract => .ok (arithmetic Value.sub i s)
  | .multiply => .ok (arithmetic Value.mul i s)
  | .divide => .ok (arithmetic Value.div i s)
  | .and => .ok (logic Value.both i s)
  | .or => .ok (logic Value.either i s)
  | .openRead | .openWrite => openTree pc i s
  | .openEphemeral => .ok (openTransient i s)
  | .close => .ok (closeCursor i s)
  | .rewind => moveToEnd Tree.first? pc i s
  | .last => moveToEnd Tree.last? pc i s
  | .next => moveOn Tree.after? pc i s
  | .prev => moveOn Tree.before? pc i s
  | .notExists => notExists pc i s
  | .found => probe true pc i s
  | .notFound => probe false pc i s
  | .column => readField pc i s
  | .rowid => readRowid pc i s
  | .makeRecord => makeRecord i s
  | .newRowid => newRowid pc i s
  | .insert => insertRow pc i s
  | .delete => deleteRow pc i s
  | .clear => clearTree i s
  | .idxInsert => changeKeys Keys.add pc i s
  | .idxDelete => changeKeys Keys.erase pc i s
  | .sorterOpen => .ok (openSorter i s)
  | .sorterInsert => sorterInsert pc i s
  | .sorterSort => sorterSort pc i s
  | .sorterData => sorterData pc i s
  | .sorterNext => sorterNext pc i s
  | .rowSetAdd => .ok (rowSetAdd i s)
  | .rowSetRead => .ok (rowSetRead i s)
  | .aggStep => aggStep pc i s
  | .aggFinal => aggFinal pc i s
  | .resultRow => .ok (resultRow i s)
  | .fkCheck => foreignKeyCheck env.schema env.foreignKeys pc i s
  | .createBtree => .ok (createTree i s)

/-- What a run gave. -/
structure Execution where
  rows : Array (List Value)
  /-- The operations executed, in order. -/
  trace : Array Opcode
deriving DecidableEq, Repr, Inhabited

/-- How many instructions were executed. -/
def Execution.steps (e : Execution) : Nat := e.trace.size

/-- How often an operation was executed. -/
def Execution.count (e : Execution) (opcode : Opcode) : Nat := e.trace.count opcode

/-- Where a run goes on after an instruction: nowhere after `halt`. A jump may lead to the address
after the last instruction, and not beyond. -/
def follow (env : Environment) (pc : Nat) : Flow → Except Fault (Option Nat)
  | .next => .ok (some (pc + 1))
  | .halt => .ok none
  | .jump target =>
    if 0 ≤ target ∧ target ≤ env.code.size then .ok (some target.toNat)
    else .error (.badJump target)

/-- One instruction: the state after it and where to go on. -/
def step (env : Environment) (pc : Nat) (i : Instruction) (s : State) :
    Except Fault (Option Nat × State) :=
  match execute env pc i s with
  | .error f => .error f
  | .ok (flow, s) =>
    match follow env pc flow with
    | .error f => .error f
    | .ok pc => .ok (pc, s)

/-- Runs from an address on, for at most `fuel` instructions. The trees given out with a fault are
those before the instruction that failed. -/
def runFrom (env : Environment) (fuel pc : Nat) (s : State) (trace : Array Opcode) :
    Except Fault Execution × Store :=
  match env.code[pc]? with
  | none => (.ok ⟨s.rows, trace⟩, s.store)
  | some i =>
    match fuel with
    | 0 => (.error (.stepLimit env.stepLimit), s.store)
    | fuel + 1 =>
      let store := s.store
      match step env pc i s with
      | .error f => (.error f, store)
      | .ok (none, s) => (.ok ⟨s.rows, trace.push i.opcode⟩, s.store)
      | .ok (some pc, s) => runFrom env fuel pc s (trace.push i.opcode)

/-- Runs a program. -/
def run (env : Environment) (store : Store) : Except Fault Execution × Store :=
  runFrom env env.stepLimit 0 (State.start store) #[]

end QueryMachine.Machine
