import QueryMachine.Compile.Query

/-!
# Building programs by hand

A script builds a program step by step. A step that compiles a query may fail; what it built before
that stays, and later steps go on from there.
-/

namespace QueryMachine

inductive BuildStep where
  | emit (i : Instruction)
  | jump (opcode : Opcode) (p1 p3 : Int) (label : Label) (payload : Payload) (flags : UInt8)
  | newLabel
  | labelHere
  | bindHere (label : Label)
  | bindTo (label : Label) (address : Int)
  | register
  | registers (n : Int)
  | temp
  | giveBack (r : Int)
  | newCursor
  | look (address : Nat)
  | query (q : Query) (destination : Destination)
deriving Repr, Inhabited

/-- What a step gives. -/
inductive BuildResult where
  | nothing
  /-- An address, a label, a register or a cursor. -/
  | number (n : Int)
  | instruction (i : Option Instruction)
  | names (names : List String)
  | failed (e : Error)
deriving Repr, Inhabited

namespace BuildStep

def numbered (result : Int × Builder) : BuildResult × Builder := (.number result.1, result.2)

def fromPool (take : RegisterPool → Int × RegisterPool) (b : Builder) : BuildResult × Builder :=
  let (r, pool) := take b.pool
  (.number r, { b with pool })

def run (schema : Schema) (step : BuildStep) (b : Builder) : BuildResult × Builder :=
  match step with
  | emit i => (.number b.address, b.emit i)
  | jump opcode p1 p3 label payload flags =>
    (.number b.address, b.emitJump opcode p1 p3 label payload flags)
  | newLabel => let (label, b) := b.newLabel; (.number label, b)
  | labelHere => let (label, b) := b.labelHere; (.number label, b)
  | bindHere label => (.nothing, b.bindHere label)
  | bindTo label address => (.nothing, b.bindTo label address)
  | register => fromPool RegisterPool.takeOne b
  | registers n => fromPool (RegisterPool.takeBlock n) b
  | temp => fromPool RegisterPool.takeTemp b
  | giveBack r => (.nothing, { b with pool := b.pool.giveBack r })
  | newCursor => numbered b.newCursor
  | look address => (.instruction (b.instruction? address), b)
  | query q destination =>
    match (emitQuery schema q destination).run b with
    | .ok names b => (.names names, b)
    | .error e b => (.failed e, b)

def runAll (schema : Schema) (steps : List BuildStep) (b : Builder) : Builder :=
  steps.foldl (fun b step => (step.run schema b).2) b

end BuildStep

end QueryMachine
