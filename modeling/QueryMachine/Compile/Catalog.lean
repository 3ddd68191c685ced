import QueryMachine.Compile.IndexKey
import QueryMachine.Compile.Options
import QueryMachine.Record
import QueryMachine.Sql.Printer

/-!
# The catalog, CREATE TABLE and CREATE INDEX

The catalog is a table with a row for every table and index: its kind, its name, the table it
belongs to, the root of its tree and the text that creates it. CREATE makes a tree and adds its row;
CREATE INDEX then fills the index from the rows of the table.
-/

namespace QueryMachine

open Emit

namespace Catalog

def tableName : String := "sqlite_master"

def root : Int := 1

def affinityCodes : String := "BBBDB"

/-- What a catalog row is about. -/
inductive Kind where
  | table
  | index
deriving DecidableEq, Repr, Inhabited

def Kind.name : Kind → String
  | table => "table"
  | index => "index"

def Kind.treeCode : Kind → Int
  | table => 1
  | index => 2

/-- A catalog row, but for the root of the tree. -/
structure Entry where
  kind : Kind
  name : String
  tableName : String
  /-- The text that creates the object, without IF NOT EXISTS. -/
  sql : String
deriving DecidableEq, Repr, Inhabited

/-- The whole row, once the root is known. -/
def Entry.values (e : Entry) (root : Int64) : List Value :=
  [.text e.kind.name, .text e.name, .text e.tableName, .int root, .text e.sql]

def Entry.encode (e : Entry) (root : Int64) : Except Error Bytes := Record.encode (e.values root)

def Entry.ofTable (t : TableDef) : Entry :=
  ⟨.table, t.name, t.name, { t with ifNotExists := false }.sql⟩

def Entry.ofIndex (i : IndexDef) : Entry :=
  ⟨.index, i.name, i.table, { i with ifNotExists := false }.sql⟩

def Entry.ofStatement : Statement → Except Error Entry
  | .createTable t => .ok (.ofTable t)
  | .createIndex i => .ok (.ofIndex i)
  | s => .error (.unsupported ("catalog row for " ++ s.kind))

/-- Makes a tree and adds its row to the catalog; gives the register that holds the root. -/
def emitEntry (cursor : Int) (e : Entry) : Emit Int := do
  let newRoot ← register
  op .createBtree 0 newRoot e.kind.treeCode
  opWith .openWrite cursor root 0 (.table tableName)
  let rowid ← register
  let base ← registers 5
  let record ← register
  op .newRowid cursor rowid 0
  opWith .str8 0 base 0 (.str e.kind.name)
  opWith .str8 0 (base + 1) 0 (.str e.name)
  opWith .str8 0 (base + 2) 0 (.str e.tableName)
  op .shallowCopy newRoot (base + 3) 0
  opWith .str8 0 (base + 4) 0 (.str e.sql)
  opWith .makeRecord base 5 record (.affinity affinityCodes)
  opWith .insert cursor record rowid (.table tableName)
  op .close cursor 0 0
  pure newRoot

def emitNothing : Emit Unit := do
  emitInit
  emitHalt

end Catalog

open Catalog

/-! ## CREATE TABLE -/

namespace TableDef

/-- Whether the table is to be made: not when it exists and may. -/
def validate (schema : Schema) (t : TableDef) : Except Error Bool :=
  if t.name.isEmpty then .error .emptyTableName
  else if (schema.index? t.name).isSome then .error (.indexExists t.name)
  else if (schema.table? t.name).isSome then
    (if t.ifNotExists then .ok false else .error (.tableExists t.name))
  else if t.columns.isEmpty then .error (.unsupported ("table " ++ t.name ++ " with no columns"))
  else .ok true

def emit (t : TableDef) : Emit Unit := do
  emitInit
  let catalog ← newCursor
  let _ ← emitEntry catalog (.ofTable t)
  emitHalt

def compile (schema : Schema) (options : Options) (t : TableDef) : Except Error Program := do
  let fresh ← t.validate schema
  let (program, ()) ← Emit.build options.reuseTemps (if fresh then t.emit else emitNothing)
  pure program

end TableDef

/-! ## CREATE INDEX -/

namespace IndexDef

/-- The table of an index that is to be made; none when the index exists and may. -/
def validate (schema : Schema) (i : IndexDef) : Except Error (Option Table) := do
  if (schema.table? i.name).isSome then throw (.tableExists i.name)
  if (schema.index? i.name).isSome then
    if i.ifNotExists then return none else throw (.indexExists i.name)
  let table ← schema.lookup i.table
  if i.columns.isEmpty then throw (.unsupported ("index " ++ i.name ++ " with no columns"))
  match i.columns.find? fun c => (table.columnIndex? c).isNone with
  | some missing => throw (.noSuchColumn (table.name ++ "." ++ missing))
  | none => pure (some table)

def emit (i : IndexDef) (table : Table) : Emit Unit := do
  emitInit
  let catalog ← newCursor
  let root ← emitEntry catalog (.ofIndex i)
  let rows ← newCursor
  let keys ← newCursor
  opWith .openRead rows table.root 0 (.table table.name)
  opFlagged .openWrite keys root 0 (.index i.name) Flag.rootInRegister
  let done ← newLabel
  jump .rewind rows 0 done
  let top ← labelHere
  let key ← emitKey table i.columns (.row rows)
  opWith .idxInsert keys key 0 (.index i.name)
  jump .next rows 0 top
  bindHere done
  emitClose [rows, keys]
  emitHalt

def compile (schema : Schema) (options : Options) (i : IndexDef) : Except Error Program := do
  let table ← i.validate schema
  let steps := match table with
    | some table => i.emit table
    | none => emitNothing
  let (program, ()) ← Emit.build options.reuseTemps steps
  pure program

end IndexDef

end QueryMachine
