import QueryMachine.Schema

/-!
# Name resolution

A statement sees the tables it reads from, each under a name and through a cursor. Resolution turns
the column names of an expression into places that cursors can read.

* A qualified name belongs to the table of exactly that visible name.
* An unqualified name belongs to the first table that has such a column.
* Where no column has the name, `rowid`, `_rowid_` and `oid` reach the rowid; unqualified, that of
  the first table.
-/

namespace QueryMachine

abbrev Resolved := Expr Place

/-- A table that a statement sees. -/
structure ScopeTable where
  table : Table
  visibleName : String
  cursor : Int
deriving DecidableEq, Repr, Inhabited

/-- The tables that a statement sees, in order. -/
abbrev Scope := List ScopeTable

def rowidNames : List String := ["rowid", "_rowid_", "oid"]

namespace ScopeTable

/-- Where the column at a position is read: the column that is another name of the rowid is the key
of the row and no field of it. -/
def place (s : ScopeTable) (index : Nat) : Place :=
  if s.table.isRowidAt index then .rowid s.cursor else .field s.cursor index

def column? (s : ScopeTable) (name : String) : Option Place :=
  (s.table.columnIndex? name).map s.place

/-- Where the rowid is read, if the name is one of those that reach it. -/
def rowid? (s : ScopeTable) (name : String) : Option Place :=
  if rowidNames.any fun known => Text.sameName known name then some (.rowid s.cursor) else none

end ScopeTable

namespace Scope

def find? (scope : Scope) (name : String) : Option ScopeTable :=
  List.find? (fun s => s.visibleName == name) scope

def unqualified? (scope : Scope) (name : String) : Option Place :=
  match scope.findSome? fun s => s.column? name with
  | some place => some place
  | none => scope.head?.bind fun s => s.rowid? name

def resolveName (scope : Scope) : Name → Except Error Place
  | .place p => .ok p
  | .column none name =>
    match scope.unqualified? name with
    | some place => .ok place
    | none => .error (.noSuchColumn name)
  | .column (some qualifier) name =>
    match scope.find? qualifier with
    | none => .error (.noSuchTable qualifier)
    | some s =>
      match (s.column? name).or (s.rowid? name) with
      | some place => .ok place
      | none => .error (.noSuchColumn (qualifier ++ "." ++ name))

def resolve (scope : Scope) (e : Term) : Except Error Resolved := e.traverse scope.resolveName

def single (table : Table) (cursor : Int) : Scope := [⟨table, table.name, cursor⟩]

/-- Refuses an expression with an aggregate call, naming the first one. -/
def rejectAggregates (e : Resolved) : Except Error Unit :=
  match e.firstAggregate? with
  | some func => .error (.misuseOfAggregate func.name)
  | none => .ok ()

/-- The expression with every name resolved, if it calls no aggregate. -/
def resolvePlain (scope : Scope) (e : Term) : Except Error Resolved :=
  match scope.resolve e with
  | .error error => .error error
  | .ok e =>
    match rejectAggregates e with
    | .error error => .error error
    | .ok () => .ok e

/-- An optional expression, resolved without aggregates. -/
def resolvePlain? (scope : Scope) : Option Term → Except Error (Option Resolved)
  | none => .ok none
  | some e =>
    match scope.resolvePlain e with
    | .error error => .error error
    | .ok e => .ok (some e)

end Scope

end QueryMachine
