import QueryMachine.Compile.IndexKey
import QueryMachine.Compile.Options

/-!
# INSERT

Every row is checked before any code is written. A row gets a new rowid unless it gives a value for
the column that is another name of the rowid; the record stores NULL in that column either way.
-/

namespace QueryMachine

open Emit

namespace Insertion

/-- The positions of the listed columns; all columns when none is listed. -/
def targets (table : Table) : List String → Except Error (List Nat)
  | [] => .ok []
  | name :: names =>
    match table.columnIndex? name with
    | none => .error (.noSuchColumn (table.name ++ "." ++ name))
    | some index =>
      match targets table names with
      | .error error => .error error
      | .ok indexes => .ok (index :: indexes)

/-- The values of a row, each with the position of its column. Values see no table. -/
def rowValues (targets : List Nat) (row : Nat) (terms : List Term) :
    Except Error (List (Nat × Resolved)) :=
  if terms.length = targets.length then
    match Expr.traverseAll (Scope.resolveName []) terms with
    | .error error => .error error
    | .ok values => .ok (targets.zip values)
  else .error (.columnCountMismatch row targets.length terms.length)

/-- The values of all rows, from row `row` on. -/
def allRowValues (targets : List Nat) :
    (row : Nat) → List (List Term) → Except Error (List (List (Nat × Resolved)))
  | _, [] => .ok []
  | row, terms :: rest =>
    match rowValues targets row terms with
    | .error error => .error error
    | .ok values =>
      match allRowValues targets (row + 1) rest with
      | .error error => .error error
      | .ok more => .ok (values :: more)

/-- The table, and the values of each row by position. -/
def validate (schema : Schema) (i : Insertion) :
    Except Error (Table × List (List (Nat × Resolved))) := do
  let table ← schema.lookup i.table
  if i.rows.isEmpty then throw (.emptyValues i.table)
  let targets ←
    if i.columns.isEmpty then pure (List.range table.columns.length) else targets table i.columns
  let rows ← allRowValues targets 0 i.rows
  pure (table, rows)

/-- The value given for a position; the last one if there are several. -/
def valueAt? (values : List (Nat × Resolved)) (index : Nat) : Option Resolved :=
  values.reverse.lookup index

/-- Loads a column: the given value, else the column's default, else NULL. -/
def emitColumn (values : List (Nat × Resolved)) (column : Column) (index : Nat) (target : Int) :
    Emit Unit :=
  match valueAt? values index with
  | some e => emitExpr [] e target
  | none => emitValue (column.default.getD .null) target

/-- Loads the columns from position `index` on into consecutive registers. -/
def emitColumns (values : List (Nat × Resolved)) : List Column → (index : Nat) → Int → Emit Unit
  | [], _, _ => pure ()
  | column :: columns, index, target => do
    emitColumn values column index target
    emitColumns values columns (index + 1) (target + 1)

/-- Takes a rowid that the row gives, and stores NULL in its place. -/
def emitGivenRowid (table : Table) (base rowid : Int) : Emit Unit :=
  match table.rowidIndex? with
  | none => pure ()
  | some index => do
    let given := base + index
    let keep ← newLabel
    jump .isNull given 0 keep
    op .mustBeInt given 0 0
    op .shallowCopy given rowid 0
    bindHere keep
    op .null 0 given 0

def emitRows (table : Table) (indexes : List OpenIndex) (cursor rowid base record : Int) :
    List (List (Nat × Resolved)) → Emit Unit
  | [] => pure ()
  | values :: rows => do
    op .newRowid cursor rowid 0
    emitColumns values table.columns 0 base
    emitGivenRowid table base rowid
    opWith .makeRecord base table.columns.length record (.affinity table.affinityCodes)
    opWith .insert cursor record rowid (.table table.name)
    emitKeys .idxInsert table (.registers base rowid) indexes
    emitRows table indexes cursor rowid base record rows

def emit (options : Options) (table : Table) (rows : List (List (Nat × Resolved))) : Emit Unit := do
  emitInit
  let cursor ← newCursor
  opWith .openWrite cursor table.root 0 (.table table.name)
  let indexes ← emitOpenIndexes (if options.maintainIndexes then table.indexes else [])
  let rowid ← register
  let base ← registers table.columns.length
  let record ← register
  emitRows table indexes cursor rowid base record rows
  emitClose (cursor :: indexes.map (·.1))
  emitHalt

def compile (schema : Schema) (options : Options) (i : Insertion) : Except Error Program := do
  let (table, rows) ← i.validate schema
  let (program, ()) ← Emit.build options.reuseTemps (emit options table rows)
  pure program

end Insertion

end QueryMachine
