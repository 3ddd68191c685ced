import QueryMachine.Compile.IndexKey
import QueryMachine.Compile.Options

/-!
# UPDATE

One scan that writes every matching row anew under its rowid. New values are computed through the
cursor, so they all see the row as it was.
-/

namespace QueryMachine

open Emit

namespace Change

def tableCursor : Int := 0

/-- The assignments, each with the position of its column. -/
def assignments (table : Table) (scope : Scope) :
    List (String × Term) → Except Error (List (Nat × Resolved))
  | [] => .ok []
  | (name, term) :: rest =>
    match table.columnIndex? name with
    | none => .error (.noSuchColumn (table.name ++ "." ++ name))
    | some index =>
      if table.isRowidAt index then
        .error (.unsupported ("assignment to INTEGER PRIMARY KEY column " ++ name))
      else
        match scope.resolvePlain term with
        | .error error => .error error
        | .ok value =>
          match assignments table scope rest with
          | .error error => .error error
          | .ok more => .ok ((index, value) :: more)

/-- An UPDATE with every name resolved. -/
structure Resolution where
  table : Table
  assignments : List (Nat × Resolved)
  filter : Option Resolved
deriving Repr, Inhabited

def validate (schema : Schema) (c : Change) : Except Error Resolution := do
  let table ← schema.lookup c.table
  if c.columns.length ≠ c.values.length then
    throw (.assignmentCountMismatch c.columns.length c.values.length)
  let scope := Scope.single table tableCursor
  let assignments ← assignments table scope (c.columns.zip c.values)
  let filter ← scope.resolvePlain? c.filter
  pure ⟨table, assignments, filter⟩

/-- Loads the columns of the row as they are; the column that is another name of the rowid is NULL
in the record. -/
def emitOld (cursor : Int) : List Column → (index : Nat) → Int → Emit Unit
  | [], _, _ => pure ()
  | column :: columns, index, target => do
    if column.isRowid then op .null 0 target 0 else op .column cursor index target
    emitOld cursor columns (index + 1) (target + 1)

def emitNew (base : Int) : List (Nat × Resolved) → Emit Unit
  | [] => pure ()
  | (index, value) :: rest => do
    emitExpr [] value (base + index)
    emitNew base rest

def emit (options : Options) (r : Resolution) : Emit Unit := do
  let table := r.table
  let cursor ← newCursor
  emitInit
  opWith .openWrite cursor table.root 0 (.table table.name)
  let indexes ← emitOpenIndexes (if options.maintainIndexes then table.indexes else [])
  let rowid ← register
  let base ← registers table.columns.length
  let record ← register
  let done ← newLabel
  jump .rewind cursor 0 done
  let top ← labelHere
  let next ← newLabel
  op .rowid cursor rowid 0
  emitFilter [] next r.filter
  emitOld cursor table.columns 0 base
  emitNew base r.assignments
  emitKeys .idxDelete table (.row cursor) indexes
  opWith .makeRecord base table.columns.length record (.affinity table.affinityCodes)
  opWith .delete cursor 0 0 (.table table.name)
  opWith .insert cursor record rowid (.table table.name)
  emitKeys .idxInsert table (.registers base rowid) indexes
  bindHere next
  jump .next cursor 0 top
  bindHere done
  emitClose (cursor :: indexes.map (·.1))
  emitHalt

def compile (schema : Schema) (options : Options) (c : Change) : Except Error Program := do
  let resolution ← c.validate schema
  let (program, ()) ← Emit.build options.reuseTemps (emit options resolution)
  pure program

end Change

end QueryMachine
