import QueryMachine.Binary64.Decimal
import QueryMachine.Bytes
import QueryMachine.Program.Opcode

/-!
# Instructions and programs

An instruction is an operation with three numeric operands, a payload and flag bits. A program is a
sequence of instructions together with how many registers and cursors it was given.

* `Instruction.jumpTarget?` — the address an instruction may jump to.
* `Program.jumpsInBounds` — whether all those addresses are addresses of instructions.
-/

namespace QueryMachine

/-- The typed fourth operand of an instruction. -/
inductive Payload where
  | empty
  | int (i : Int)
  | int64 (i : Int64)
  | real (x : Binary64)
  | str (s : String)
  | blob (bytes : Bytes)
  | table (name : String)
  | index (name : String)
  | function (name : String)
  | affinity (codes : String)
  | sortOrder (directions : String)
deriving DecidableEq, Repr, Inhabited

def Payload.text : Payload → String
  | empty => ""
  | int i => "(int)" ++ toString i
  | int64 i => "(i64)" ++ toString i.toInt
  | real x => "(real)" ++ x.text
  | str s => "(str)" ++ s
  | blob bytes => "(blob)[" ++ toString bytes.length ++ "B]"
  | table name => "(tbl)" ++ name
  | index name => "(idx)" ++ name
  | function name => "(func)" ++ name
  | affinity codes => "(aff)" ++ codes
  | sortOrder directions => "(sort)" ++ directions

namespace Flag

/-- On opening a tree: p2 is a register that holds the root. -/
def rootInRegister : UInt8 := 0x02

/-- On a comparison: jump when an operand is NULL. -/
def jumpIfNull : UInt8 := 0x10

/-- On a comparison: store the result in register p2 instead of jumping. -/
def storeResult : UInt8 := 0x20

/-- On a comparison: NULL equals NULL and differs from everything else. -/
def nullEqual : UInt8 := 0x80

end Flag

structure Instruction where
  opcode : Opcode
  p1 : Int
  p2 : Int
  p3 : Int
  payload : Payload
  flags : UInt8
deriving DecidableEq, Repr, Inhabited

namespace Instruction

def has (i : Instruction) (flag : UInt8) : Bool := i.flags &&& flag != 0

def plain (opcode : Opcode) (p1 p2 p3 : Int) : Instruction := ⟨opcode, p1, p2, p3, .empty, 0⟩

/-- The address the instruction may jump to: a comparison that stores its result does not jump, and
a zero p2 means no jump where the operation says so. -/
def jumpTarget? (i : Instruction) : Option Int :=
  if !i.opcode.isJump then none
  else if i.opcode.isComparison && i.has Flag.storeResult then none
  else if (i.opcode == .initCoroutine || i.opcode == .mustBeInt) && i.p2 == 0 then none
  else some i.p2

end Instruction

structure Program where
  code : Array Instruction
  /-- The largest register number handed out. -/
  registers : Int
  /-- How many cursors were handed out. -/
  cursors : Int
deriving DecidableEq, Repr, Inhabited

namespace Program

def count (p : Program) (opcode : Opcode) : Nat := p.code.toList.countP fun i => i.opcode == opcode

def jumpsInBounds (p : Program) : Bool :=
  p.code.toList.all fun i =>
    match i.jumpTarget? with
    | some target => decide (0 ≤ target) && decide (target < p.code.size)
    | none => true

/-! ## Listing -/

/-- The text with blanks after it up to the given width. -/
def padded (width : Nat) (s : String) : String :=
  s ++ String.ofList (List.replicate (width - s.toList.length) ' ')

def listingLine (address : Nat) (i : Instruction) : String :=
  "  ".intercalate [
    padded 4 (toString address), padded 15 i.opcode.name, padded 4 (toString i.p1),
    padded 4 (toString i.p2), padded 4 (toString i.p3), padded 17 i.payload.text,
    padded 2 (toString i.flags.toNat)] ++ "\n"

/-- The program as text, a line for each instruction under two lines of heading. -/
def listing (p : Program) : String :=
  "addr  opcode           p1    p2    p3    p4                 p5\n"
    ++ "----  ---------------  ----  ----  ----  -----------------  --\n"
    ++ String.join (p.code.toList.zipIdx.map fun (i, address) => listingLine address i)

end Program

end QueryMachine
