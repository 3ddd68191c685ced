import QueryMachine.Compile.Expression

/-!
# Keys of indexes

The key of a row in an index is the record of its indexed columns followed by its rowid. It is built
from registers when the row is written and through the table's cursor when it is read back.
-/

namespace QueryMachine

open Emit

/-- Where the columns of a row are. -/
inductive KeySource where
  /-- The columns in registers from `base` on, the rowid in a register of its own. -/
  | registers (base rowid : Int)
  | row (cursor : Int)
deriving DecidableEq, Repr, Inhabited

def KeySource.emitRowid (source : KeySource) (target : Int) : Emit Unit :=
  match source with
  | registers _ rowid => op .shallowCopy rowid target 0
  | row cursor => op .rowid cursor target 0

def KeySource.emitField (source : KeySource) (index : Nat) (target : Int) : Emit Unit :=
  match source with
  | registers base _ => op .shallowCopy (base + index) target 0
  | row cursor => op .column cursor index target

def emitKeyColumns (table : Table) (source : KeySource) : List String → Int → Emit Unit
  | [], _ => pure ()
  | name :: names, target => do
    match table.columnIndex? name with
    | none => throw (.noSuchColumn (table.name ++ "." ++ name))
    | some index =>
      if table.isRowidAt index then source.emitRowid target else source.emitField index target
    emitKeyColumns table source names (target + 1)

/-- Builds the key of a row; gives the register that holds it. -/
def emitKey (table : Table) (columns : List String) (source : KeySource) : Emit Int := do
  let width : Int := columns.length + 1
  let base ← registers width
  emitKeyColumns table source columns base
  source.emitRowid (base + columns.length)
  let record ← register
  op .makeRecord base width record
  pure record

abbrev OpenIndex := Int × Index

def emitOpenIndexes : List Index → Emit (List OpenIndex)
  | [] => pure []
  | index :: rest => do
    let cursor ← newCursor
    opWith .openWrite cursor index.root 0 (.index index.name)
    let opened ← emitOpenIndexes rest
    pure ((cursor, index) :: opened)

def emitKeys (opcode : Opcode) (table : Table) (source : KeySource) : List OpenIndex → Emit Unit
  | [] => pure ()
  | (cursor, index) :: rest => do
    let key ← emitKey table index.columns source
    opWith opcode cursor key 0 (.index index.name)
    emitKeys opcode table source rest

end QueryMachine
