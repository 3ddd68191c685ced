import QueryMachine.Error
import QueryMachine.Program.Opcode

/-!
# Faults

Why a run stops before its end. A fault in a record, or in a statement that does not compile, is an
`Error`; all others name the place in the program.
-/

namespace QueryMachine

/-- What is wrong with the operands of an instruction. -/
inductive OperandIssue where
  /-- The address a coroutine returns to does not follow a `yield`. -/
  | noCallingYield
  | constantWithoutPayload
  | rootOutOfRange
  | insertIntoIndex
  | indexOperationOnTable
  | missingFunction
  | unknownAggregate
  | checkWithoutTable
  | notSorter
  | isSorter (cursor : Int)
  | notRecord (className : String)
deriving DecidableEq, Repr, Inhabited

def OperandIssue.message : OperandIssue → String
  | noCallingYield => "no calling Yield"
  | constantWithoutPayload => "constant without payload"
  | rootOutOfRange => "root page out of range"
  | insertIntoIndex => "Insert into an index"
  | indexOperationOnTable => "index op on a table"
  | missingFunction => "missing function"
  | unknownAggregate => "unknown aggregate"
  | checkWithoutTable => "FkCheck without a table"
  | notSorter => "not a sorter cursor"
  | isSorter cursor => "cursor " ++ toString cursor ++ " is a sorter"
  | notRecord className => "expected a record, got " ++ className

/-- Why a run stopped. -/
inductive Fault where
  /-- A record could not be read or made, or the statement did not compile. -/
  | rejected (e : Error)
  | cursorNotOpen (cursor : Int) (pc : Nat)
  | noSuchRoot (root : Int)
  | noCurrentRow (cursor : Int) (pc : Nat)
  | badOperand (opcode : Opcode) (pc : Nat) (issue : OperandIssue)
  /-- A value that has to be an integer is of another class. -/
  | typeMismatch (className : String)
  | foreignKeyViolation (parent child : String) (rowid : Int64)
  | stepLimit (limit : Nat)
  | badJump (target : Int)
deriving DecidableEq, Repr, Inhabited

namespace Fault

def message : Fault → String
  | rejected e => e.message
  | cursorNotOpen cursor pc => "cursor " ++ toString cursor ++ " is not open at pc " ++ toString pc
  | noSuchRoot root => "no b-tree with root page " ++ toString root
  | noCurrentRow cursor pc =>
    "cursor " ++ toString cursor ++ " has no current row at pc " ++ toString pc
  | badOperand opcode pc issue => opcode.name ++ " at pc " ++ toString pc ++ ": " ++ issue.message
  | typeMismatch className => "datatype mismatch: expected integer, got " ++ className
  | foreignKeyViolation parent child rowid =>
    "FOREIGN KEY constraint failed: " ++ child ++ " references " ++ parent ++ " row "
      ++ toString rowid.toInt
  | stepLimit limit => "step limit of " ++ toString limit ++ " exceeded"
  | badJump target => "jump to " ++ toString target ++ " is outside the program"

def lift : Except Error α → Except Fault α
  | .ok a => .ok a
  | .error e => .error (.rejected e)

end Fault

end QueryMachine
