import QueryMachine.Error
import QueryMachine.Program.Instruction
import QueryMachine.Program.RegisterPool

/-!
# Building programs

Instructions are only ever appended. A jump may name a label instead of an address; labels can be
bound before or after the jumps to them, and bound again, and `finish` writes the address a label
has in the end into p2 of every jump to it. A jump to a label that does not exist when the jump is
written stays a jump to address 0.

* `finish` — the program, unless a label is used and not bound.
* `Emit` — building steps that may fail; what was built before a failure is kept.
-/

namespace QueryMachine

/-- A place in a program under construction. Labels are numbered from 0 on. -/
abbrev Label := Nat

/-- An instruction that may still wait for the address of a label. -/
structure Draft where
  instruction : Instruction
  label : Option Label
deriving DecidableEq, Repr, Inhabited

/-- A program under construction. -/
structure Builder where
  drafts : Array Draft
  /-- The address of each label, once it is bound. -/
  labels : Array (Option Int)
  pool : RegisterPool
  /-- How many cursors were handed out. -/
  cursors : Int
deriving DecidableEq, Repr, Inhabited

namespace Builder

def fresh (reuse : Bool) : Builder := ⟨#[], #[], RegisterPool.fresh reuse, 0⟩

def address (b : Builder) : Nat := b.drafts.size

/-- The instruction at an address, before labels are resolved. -/
def instruction? (b : Builder) (address : Nat) : Option Instruction :=
  b.drafts[address]?.map (·.instruction)

def emit (i : Instruction) (b : Builder) : Builder :=
  { b with drafts := b.drafts.push ⟨i, none⟩ }

def emitJump (opcode : Opcode) (p1 p3 : Int) (label : Label) (payload : Payload) (flags : UInt8)
    (b : Builder) : Builder :=
  let target := if label < b.labels.size then some label else none
  { b with drafts := b.drafts.push ⟨⟨opcode, p1, 0, p3, payload, flags⟩, target⟩ }

def newLabel (b : Builder) : Label × Builder :=
  (b.labels.size, { b with labels := b.labels.push none })

/-- Binds a label to an address; binding it again replaces the address. -/
def bindTo (label : Label) (address : Int) (b : Builder) : Builder :=
  { b with labels := b.labels.setIfInBounds label (some address) }

def bindHere (label : Label) (b : Builder) : Builder := b.bindTo label b.address

/-- A new label that is bound to the next instruction. -/
def labelHere (b : Builder) : Label × Builder :=
  let (label, b) := b.newLabel
  (label, b.bindHere label)

def newCursor (b : Builder) : Int × Builder := (b.cursors, { b with cursors := b.cursors + 1 })

/-! ## Finishing -/

def target? (b : Builder) (label : Label) : Option Int := b.labels[label]?.join

/-- How many jumps name a label. -/
def references (b : Builder) (label : Label) : Nat :=
  b.drafts.toList.countP fun d => d.label == some label

/-- The first label that a jump names and that is not bound. -/
def unbound? (b : Builder) : Option Label :=
  (List.range b.labels.size).find? fun label =>
    (b.target? label).isNone && decide (0 < b.references label)

/-- The instruction with the address of its label as p2. -/
def resolve (b : Builder) (d : Draft) : Instruction :=
  match d.label.bind b.target? with
  | some address => { d.instruction with p2 := address }
  | none => d.instruction

def finish (b : Builder) : Except Error Program :=
  match b.unbound? with
  | some label =>
    .error (.internal ("unresolved label " ++ toString label ++ " referenced by "
      ++ toString (b.references label) ++ " instruction(s)"))
  | none => .ok ⟨b.drafts.map b.resolve, b.pool.count, b.cursors⟩

end Builder

/-- A building step that may fail. -/
abbrev Emit := EStateM Error Builder

namespace Emit

/-- Appends an instruction without payload and flags. -/
def op (opcode : Opcode) (p1 p2 p3 : Int) : Emit Unit :=
  modify (Builder.emit (.plain opcode p1 p2 p3))

def opWith (opcode : Opcode) (p1 p2 p3 : Int) (payload : Payload) : Emit Unit :=
  modify (Builder.emit ⟨opcode, p1, p2, p3, payload, 0⟩)

def opFlagged (opcode : Opcode) (p1 p2 p3 : Int) (payload : Payload) (flags : UInt8) : Emit Unit :=
  modify (Builder.emit ⟨opcode, p1, p2, p3, payload, flags⟩)

def jump (opcode : Opcode) (p1 p3 : Int) (label : Label) : Emit Unit :=
  modify (Builder.emitJump opcode p1 p3 label .empty 0)

def jumpFlagged (opcode : Opcode) (p1 p3 : Int) (label : Label) (flags : UInt8) : Emit Unit :=
  modify (Builder.emitJump opcode p1 p3 label .empty flags)

def newLabel : Emit Label := modifyGet Builder.newLabel

def labelHere : Emit Label := modifyGet Builder.labelHere

def bindHere (label : Label) : Emit Unit := modify (Builder.bindHere label)

def newCursor : Emit Int := modifyGet Builder.newCursor

def register : Emit Int :=
  modifyGet fun b => let (r, pool) := b.pool.takeOne; (r, { b with pool })

def registers (n : Int) : Emit Int :=
  modifyGet fun b => let (r, pool) := b.pool.takeBlock n; (r, { b with pool })

def temp : Emit Int :=
  modifyGet fun b => let (r, pool) := b.pool.takeTemp; (r, { b with pool })

def giveBack (r : Int) : Emit Unit := modify fun b => { b with pool := b.pool.giveBack r }

def build (reuse : Bool) (steps : Emit α) : Except Error (Program × α) :=
  match steps.run (Builder.fresh reuse) with
  | .ok result b =>
    match b.finish with
    | .ok program => .ok (program, result)
    | .error e => .error e
  | .error e _ => .error e

end Emit

end QueryMachine
