import QueryMachine.Error
import QueryMachine.Sql.Statement
import QueryMachine.Value.Affinity

/-!
# Schemas

What is known about the tables of a database: their columns, their indexes and the roots of the
trees that hold them. Names are found without regard to case, and the first match counts.
-/

namespace QueryMachine

structure Column where
  name : String
  /-- The declared type, empty when none was given. -/
  typeName : String
  affinity : Affinity
  /-- Whether the column is another name of the rowid. -/
  isRowid : Bool
  notNull : Bool
  /-- The value of the column in a row that does not give one. -/
  default : Option Value
deriving DecidableEq, Repr, Inhabited

structure Index where
  name : String
  root : Int
  columns : List String
  unique : Bool
deriving DecidableEq, Repr, Inhabited

structure Table where
  name : String
  root : Int
  columns : List Column
  primaryKey : List String
  indexes : List Index
deriving DecidableEq, Repr, Inhabited

abbrev Schema := List Table

namespace Table

/-- A table without indexes, keyed by its rowid columns. -/
def ofColumns (name : String) (root : Int) (columns : List Column) : Table :=
  ⟨name, root, columns, (columns.filter (·.isRowid)).map (·.name), []⟩

def ofDef (t : TableDef) (root : Int) : Table where
  name := t.name
  root := root
  columns := t.columns.map fun c =>
    ⟨c.name, c.typeName, Affinity.ofTypeName c.typeName, c.isRowid, c.notNull, none⟩
  primaryKey := (t.columns.filter (·.primaryKey)).map (·.name)
  indexes := []

def affinityCodes (t : Table) : String := String.ofList (t.columns.map fun c => c.affinity.toChar)

def columnIndex? (t : Table) (name : String) : Option Nat :=
  t.columns.findIdx? fun c => Text.sameName c.name name

/-- The position of the column that is another name of the rowid. -/
def rowidIndex? (t : Table) : Option Nat := t.columns.findIdx? (·.isRowid)

/-- Whether the column at a position is another name of the rowid. -/
def isRowidAt (t : Table) (index : Nat) : Bool :=
  match t.columns[index]? with
  | some c => c.isRowid
  | none => false

def index? (t : Table) (name : String) : Option Index :=
  t.indexes.find? fun i => Text.sameName i.name name

end Table

namespace Schema

def table? (s : Schema) (name : String) : Option Table := s.find? fun t => Text.sameName t.name name

def index? (s : Schema) (name : String) : Option (Table × Index) :=
  s.findSome? fun t => (t.index? name).map fun i => (t, i)

def lookup (s : Schema) (name : String) : Except Error Table :=
  if name.isEmpty then .error .emptyTableName
  else
    match s.table? name with
    | some t => .ok t
    | none => .error (.noSuchTable name)

end Schema

end QueryMachine
