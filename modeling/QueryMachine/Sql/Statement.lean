import QueryMachine.Sql.Expr
import QueryMachine.Text.Name

/-!
# Statements

The statements that can be compiled, as they come from a parser: names are not resolved yet.
-/

namespace QueryMachine

abbrev Term := Expr Name

/-- An entry of the result list. -/
inductive ResultColumn where
  /-- Every column of every table. -/
  | star
  | tableStar (table : String)
  /-- An expression, possibly under another name. -/
  | term (expr : Term) (newName : Option String)
deriving Repr, Inhabited

/-- A table to read from, possibly under another name. -/
structure TableRef where
  name : String
  newName : Option String
deriving DecidableEq, Repr, Inhabited

def TableRef.visibleName (t : TableRef) : String := t.newName.getD t.name

inductive Direction where
  | asc
  | desc
deriving DecidableEq, Repr, Inhabited

structure OrderingTerm where
  expr : Term
  direction : Direction
deriving Repr, Inhabited

structure LimitClause where
  limit : Term
  offset : Option Term
deriving Repr, Inhabited

/-- An operator between two selections. -/
inductive CompoundOp where
  | union
  | unionAll
  | intersect
  | except
deriving DecidableEq, Repr, Inhabited

/-- The operator as it is written. -/
def CompoundOp.sql : CompoundOp → String
  | union => "UNION"
  | unionAll => "UNION ALL"
  | intersect => "INTERSECT"
  | except => "EXCEPT"

/-- One selection: result list, tables, filter and grouping. -/
structure Selection where
  distinct : Bool
  columns : List ResultColumn
  tables : List TableRef
  filter : Option Term
  groupBy : List Term
  having : Option Term
deriving Repr, Inhabited

/-- A query: a first selection, further ones joined to it, and the order and limit of the whole. -/
structure Query where
  first : Selection
  arms : List (CompoundOp × Selection)
  orderBy : List OrderingTerm
  limit : Option LimitClause
deriving Repr, Inhabited

/-- INSERT of rows; no columns listed means all of them in order. -/
structure Insertion where
  table : String
  columns : List String
  rows : List (List Term)
deriving Repr, Inhabited

/-- UPDATE of columns to values, one for one. -/
structure Change where
  table : String
  columns : List String
  values : List Term
  filter : Option Term
deriving Repr, Inhabited

/-- DELETE of rows; a negative limit is none. -/
structure Deletion where
  table : String
  filter : Option Term
  limit : Option Int64
deriving Repr, Inhabited

/-- A column of a table to be created. -/
structure ColumnDef where
  name : String
  typeName : String
  primaryKey : Bool
  notNull : Bool
deriving DecidableEq, Repr, Inhabited

def ColumnDef.isRowid (c : ColumnDef) : Bool := c.primaryKey && Text.sameName c.typeName "INTEGER"

structure TableDef where
  name : String
  columns : List ColumnDef
  ifNotExists : Bool
deriving DecidableEq, Repr, Inhabited

structure IndexDef where
  name : String
  table : String
  columns : List String
  unique : Bool
  ifNotExists : Bool
deriving DecidableEq, Repr, Inhabited

inductive Statement where
  | select (query : Query)
  | insert (insertion : Insertion)
  | update (change : Change)
  | delete (deletion : Deletion)
  | createTable (table : TableDef)
  | createIndex (index : IndexDef)
deriving Repr, Inhabited

/-- The kind of a statement, in a word. -/
def Statement.kind : Statement → String
  | select _ => "select"
  | insert _ => "insert"
  | update _ => "update"
  | delete _ => "delete"
  | createTable _ => "create_table"
  | createIndex _ => "create_index"

/-- The aggregate function with the given name, in any case. -/
def Aggregate.ofName? (name : String) : Option Aggregate :=
  all.find? fun func => Text.sameName func.name name

end QueryMachine
