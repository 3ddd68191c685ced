/-!
# Operation codes

What an instruction does. Operands p1 to p3 are numbers: registers, cursors, addresses or counts;
see `Instruction` for the payload and the flags.
-/

namespace QueryMachine

/-- The operation of an instruction. -/
inductive Opcode where
  /-- Jump to address p2. -/
  | goto
  /-- Store the address of the next instruction in register p1 and jump to p2. -/
  | gosub
  /-- Jump to the address in register p1. -/
  | ret
  /-- Store p3 in register p1 as the place to resume at; jump to p2 unless it is zero. -/
  | initCoroutine
  /-- Leave the coroutine in register p1 through the p2 of the `yield` that resumed it. -/
  | endCoroutine
  /-- Continue at the address in register p1 and leave the address of the next instruction there. -/
  | yield
  /-- Stop. -/
  | halt
  /-- Enter the program at p2. -/
  | init
  /-- Jump to p2 if register p1 is true; on NULL, if p3 is not zero. -/
  | ifTrue
  /-- Jump to p2 if register p1 is false; on NULL, if p3 is not zero. -/
  | ifNot
  /-- If register p1 is positive, take p3 from it and jump to p2. -/
  | ifPos
  /-- Take one from register p1 and jump to p2 if that leaves zero. -/
  | decrJumpZero
  /-- Make register p1 an integer; if it cannot be one, jump to p2, or fail when p2 is zero. -/
  | mustBeInt
  /-- Store p1 in register p2. -/
  | integer
  /-- Store the payload in register p2. -/
  | int64
  /-- Store the payload in register p2. -/
  | real
  /-- Store the payload in register p2. -/
  | str8
  /-- Store the payload, of p1 bytes, in register p2. -/
  | str
  /-- Store NULL in registers p2 to p3, or in p2 alone. -/
  | null
  /-- Store the payload, of p1 bytes, in register p2. -/
  | blob
  /-- Copy the p3 + 1 registers from p1 on to those from p2 on. -/
  | copy
  /-- Copy register p1 to register p2. -/
  | shallowCopy
  /-- Compare register p3 with register p1: equal. -/
  | eq
  /-- Compare register p3 with register p1: different. -/
  | ne
  /-- Compare register p3 with register p1: less. -/
  | lt
  /-- Compare register p3 with register p1: less or equal. -/
  | le
  /-- Compare register p3 with register p1: greater. -/
  | gt
  /-- Compare register p3 with register p1: greater or equal. -/
  | ge
  /-- Jump to p2 if register p1 is NULL. -/
  | isNull
  /-- Jump to p2 if register p1 is not NULL. -/
  | notNull
  /-- Store register p2 plus register p1 in register p3. -/
  | add
  /-- Store register p2 minus register p1 in register p3. -/
  | subtract
  /-- Store register p2 times register p1 in register p3. -/
  | multiply
  /-- Store register p2 divided by register p1 in register p3. -/
  | divide
  /-- Store the conjunction of registers p1 and p2 in register p3. -/
  | and
  /-- Store the disjunction of registers p1 and p2 in register p3. -/
  | or
  /-- Open cursor p1 on the tree with root p2. -/
  | openRead
  /-- Open cursor p1 on the tree with root p2, for writing. -/
  | openWrite
  /-- Open cursor p1 on a fresh tree: an index if the payload is a sort order, else a table. -/
  | openEphemeral
  | close
  /-- Put cursor p1 on its first entry; jump to p2 if there is none. -/
  | rewind
  /-- Put cursor p1 on its last entry; jump to p2 if there is none. -/
  | last
  /-- Move cursor p1 forward; jump to p2 if there is an entry. -/
  | next
  /-- Move cursor p1 backward; jump to p2 if there is an entry. -/
  | prev
  /-- Put cursor p1 on the rowid in register p3; jump to p2 if it is missing. -/
  | notExists
  /-- Jump to p2 if an entry of cursor p1 begins with the record in register p3. -/
  | found
  /-- Jump to p2 if no entry of cursor p1 begins with the record in register p3. -/
  | notFound
  /-- Store field p2 of the entry under cursor p1 in register p3. -/
  | column
  /-- Store the rowid of the entry under cursor p1 in register p2. -/
  | rowid
  /-- Store the record of the p2 registers from p1 on in register p3, with the affinities of the
  payload applied. -/
  | makeRecord
  /-- Store a rowid that is one above the largest of cursor p1 in register p2. -/
  | newRowid
  /-- Write the record in register p2 under the rowid in register p3 through cursor p1. -/
  | insert
  /-- Delete the entry under cursor p1. -/
  | delete
  /-- Delete every entry of the tree with root p1. -/
  | clear
  /-- Add the record in register p2 to the index of cursor p1. -/
  | idxInsert
  /-- Remove the record in register p2 from the index of cursor p1. -/
  | idxDelete
  /-- Open cursor p1 on a sorter of records with p2 key fields, directed by the payload. -/
  | sorterOpen
  /-- Add the record in register p2 to sorter p1. -/
  | sorterInsert
  /-- Sort sorter p1 and go to its first record; jump to p2 if there is none. -/
  | sorterSort
  /-- Store the current record of sorter p1 in register p2. -/
  | sorterData
  /-- Move sorter p1 forward; jump to p2 if there is a record. -/
  | sorterNext
  | rowSetAdd
  /-- Move the smallest member of the row set of register p1 to register p3; jump to p2 if there is
  none. -/
  | rowSetRead
  /-- Feed the arguments from register p2 on to the accumulator of register p3; the flags are their
  number. -/
  | aggStep
  /-- Store the result of the accumulator of register p1 in that register. -/
  | aggFinal
  /-- Put out the p2 registers from p1 on as a row. -/
  | resultRow
  /-- Fail if a row still refers to the one under cursor p1 of the table in the payload. -/
  | fkCheck
  /-- Make a new tree, an index if p3 is 2 and else a table, and store its root in register p2. -/
  | createBtree
  /-- Do nothing. -/
  | noop
deriving DecidableEq, Repr, Inhabited

namespace Opcode

/-- Every operation, in the order of their numbers. -/
def all : List Opcode :=
  [.goto, .gosub, .ret, .initCoroutine, .endCoroutine, .yield, .halt, .init, .ifTrue, .ifNot,
   .ifPos, .decrJumpZero, .mustBeInt, .integer, .int64, .real, .str8, .str, .null, .blob, .copy,
   .shallowCopy, .eq, .ne, .lt, .le, .gt, .ge, .isNull, .notNull, .add, .subtract, .multiply,
   .divide, .and, .or, .openRead, .openWrite, .openEphemeral, .close, .rewind, .last, .next,
   .prev, .notExists, .found, .notFound, .column, .rowid, .makeRecord, .newRowid, .insert,
   .delete, .clear, .idxInsert, .idxDelete, .sorterOpen, .sorterInsert, .sorterSort, .sorterData,
   .sorterNext, .rowSetAdd, .rowSetRead, .aggStep, .aggFinal, .resultRow, .fkCheck, .createBtree,
   .noop]

/-- The number of an operation, from 1 on. -/
def number (op : Opcode) : Nat := op.ctorIdx + 1

def ofNumber? (n : Nat) : Option Opcode := if n = 0 then none else all[n - 1]?

/-- The name of an operation in listings and messages. -/
def name : Opcode → String
  | goto => "Goto"
  | gosub => "Gosub"
  | ret => "Return"
  | initCoroutine => "InitCoroutine"
  | endCoroutine => "EndCoroutine"
  | yield => "Yield"
  | halt => "Halt"
  | init => "Init"
  | ifTrue => "If"
  | ifNot => "IfNot"
  | ifPos => "IfPos"
  | decrJumpZero => "DecrJumpZero"
  | mustBeInt => "MustBeInt"
  | integer => "Integer"
  | int64 => "Int64"
  | real => "Real"
  | str8 => "String8"
  | str => "String"
  | null => "Null"
  | blob => "Blob"
  | copy => "Copy"
  | shallowCopy => "SCopy"
  | eq => "Eq"
  | ne => "Ne"
  | lt => "Lt"
  | le => "Le"
  | gt => "Gt"
  | ge => "Ge"
  | isNull => "IsNull"
  | notNull => "NotNull"
  | add => "Add"
  | subtract => "Subtract"
  | multiply => "Multiply"
  | divide => "Divide"
  | and => "And"
  | or => "Or"
  | openRead => "OpenRead"
  | openWrite => "OpenWrite"
  | openEphemeral => "OpenEphemeral"
  | close => "Close"
  | rewind => "Rewind"
  | last => "Last"
  | next => "Next"
  | prev => "Prev"
  | notExists => "NotExists"
  | found => "Found"
  | notFound => "NotFound"
  | column => "Column"
  | rowid => "Rowid"
  | makeRecord => "MakeRecord"
  | newRowid => "NewRowid"
  | insert => "Insert"
  | delete => "Delete"
  | clear => "Clear"
  | idxInsert => "IdxInsert"
  | idxDelete => "IdxDelete"
  | sorterOpen => "SorterOpen"
  | sorterInsert => "SorterInsert"
  | sorterSort => "SorterSort"
  | sorterData => "SorterData"
  | sorterNext => "SorterNext"
  | rowSetAdd => "RowSetAdd"
  | rowSetRead => "RowSetRead"
  | aggStep => "AggStep"
  | aggFinal => "AggFinal"
  | resultRow => "ResultRow"
  | fkCheck => "FkCheck"
  | createBtree => "CreateBtree"
  | noop => "Noop"

def ofName? (name : String) : Option Opcode := all.find? fun op => op.name == name

/-- Whether the operation takes p2 as an address to jump to. -/
def isJump : Opcode → Bool
  | goto | gosub | initCoroutine | init | ifTrue | ifNot | ifPos | decrJumpZero | mustBeInt | eq
  | ne | lt | le | gt | ge | isNull | notNull | rewind | last | next | prev | notExists | found
  | notFound | sorterSort | sorterNext | rowSetRead => true
  | _ => false

/-- Whether the operation compares two registers. -/
def isComparison : Opcode → Bool
  | eq | ne | lt | le | gt | ge => true
  | _ => false

end Opcode

end QueryMachine
