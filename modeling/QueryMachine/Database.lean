import QueryMachine.Compile.Statement
import QueryMachine.Machine

/-!
# Databases

Trees, the schema that statements are compiled against, foreign keys and options. A statement that
fails keeps what it changed before it failed.

* `execute` — compiles a statement, runs it, and takes a new table or index into the schema.
-/

namespace QueryMachine

structure Database where
  store : Store
  schema : Schema
  foreignKeys : List ForeignKey
  options : Options
  /-- How many instructions one program may take. -/
  stepLimit : Nat
deriving Repr, Inhabited

/-- What a statement gave. -/
structure Answer where
  /-- The names of the result columns; none for a statement that gives no rows. -/
  columns : List String
  execution : Machine.Execution
deriving Repr, Inhabited

namespace Database

/-- A database with nothing but an empty catalog. -/
def empty (options : Options) : Database where
  store := ⟨Slots.empty.set Catalog.root .emptyTable, Catalog.root + 1⟩
  schema := []
  foreignKeys := []
  options := options
  stepLimit := 1000000

def addForeignKey (db : Database) (key : ForeignKey) : Database :=
  { db with foreignKeys := db.foreignKeys ++ [key] }

def run (db : Database) (p : Program) : Except Fault Machine.Execution × Database :=
  let (result, store) := Machine.run ⟨p.code, db.schema, db.foreignKeys, db.stepLimit⟩ db.store
  (result, { db with store })

/-! ## Contents -/

def decodeRows : List (Int64 × Bytes) → Except Error (List (Int64 × List Value))
  | [] => .ok []
  | (id, record) :: rows =>
    match Record.decode record with
    | .error e => .error e
    | .ok values =>
      match decodeRows rows with
      | .error e => .error e
      | .ok rows => .ok ((id, values) :: rows)

def rowsAt (db : Database) (root : Int) : Except Fault (List (Int64 × List Value)) :=
  match db.store.tree? root with
  | some (.table rows) => Fault.lift (decodeRows rows)
  | _ => .error (.noSuchRoot root)

def catalog (db : Database) : Except Fault (List (List Value)) :=
  match db.rowsAt Catalog.root with
  | .error f => .error f
  | .ok rows => .ok (rows.map (·.2))

/-- The rows of a table, which may be the catalog. -/
def rows (db : Database) (name : String) : Except Fault (List (Int64 × List Value)) :=
  if Text.sameName name Catalog.tableName then db.rowsAt Catalog.root
  else
    match db.schema.table? name with
    | some table => db.rowsAt table.root
    | none => .error (.rejected (.noSuchTable name))

/-- The keys of an index. -/
def entries (db : Database) (name : String) : Except Fault (List (List Value)) :=
  match db.schema.index? name with
  | none => .error (.rejected (.noSuchIndex name))
  | some (_, index) =>
    match db.store.tree? index.root with
    | some (.index keys) => .ok keys
    | _ => .error (.noSuchRoot index.root)

/-! ## Statements -/

/-- The root in the first catalog row with a name. -/
def rootOf? (rows : List (List Value)) (name : String) : Option Int :=
  match rows.find? fun row => row[1]?.bind Value.text? == some name with
  | none => none
  | some row =>
    match row[3]?.bind Value.int? with
    | none => none
    | some root => if Integer.inRange32 root.toInt then some root.toInt else none

/-- The root that the catalog has for a new table or index; none if the schema has the name. -/
def newRoot (db : Database) (name : String) : Except Fault (Option Int) :=
  if (db.schema.table? name).isSome || (db.schema.index? name).isSome then .ok none
  else
    match db.catalog with
    | .error f => .error f
    | .ok rows =>
      match rootOf? rows name with
      | some root => .ok (some root)
      | none => .error (.rejected (.internal ("no catalog row for " ++ name)))

/-- The schema with an index added to the first table with the given name. -/
def withIndex (schema : Schema) (table : String) (index : Index) : Option Schema :=
  match schema with
  | [] => none
  | t :: rest =>
    if Text.sameName t.name table then some ({ t with indexes := t.indexes ++ [index] } :: rest)
    else (withIndex rest table index).map (t :: ·)

def schemaAfter (db : Database) : Statement → Except Fault Schema
  | .createTable t =>
    match db.newRoot t.name with
    | .error f => .error f
    | .ok none => .ok db.schema
    | .ok (some root) => .ok (db.schema ++ [Table.ofDef t root])
  | .createIndex i =>
    match db.newRoot i.name with
    | .error f => .error f
    | .ok none => .ok db.schema
    | .ok (some root) =>
      match withIndex db.schema i.table ⟨i.name, root, i.columns, i.unique⟩ with
      | some schema => .ok schema
      | none => .error (.rejected (.noSuchTable i.table))
  | _ => .ok db.schema

def compile (db : Database) : Statement → Except Error (Program × List String)
  | .select query => compileQuery db.schema db.options query
  | statement =>
    match statement.compile db.schema db.options with
    | .ok program => .ok (program, [])
    | .error e => .error e

def execute (db : Database) (statement : Statement) : Except Fault Answer × Database :=
  match db.compile statement with
  | .error e => (.error (.rejected e), db)
  | .ok (program, columns) =>
    match db.run program with
    | (.error f, db) => (.error f, db)
    | (.ok execution, db) =>
      match db.schemaAfter statement with
      | .error f => (.error f, db)
      | .ok schema => (.ok ⟨columns, execution⟩, { db with schema })

end Database

end QueryMachine
