import QueryMachine.Sql.Statement

/-!
# The text of statements

Every expression and statement as SQL text. Operands that are themselves binary get parentheses,
names that do not look like identifiers get quotes, and a real literal keeps a decimal point.
-/

namespace QueryMachine

def commaList (items : List String) : String := ", ".intercalate items

/-- A literal as it is written: a real without a fractional part shows all its digits. -/
def Value.sql : Value → String
  | .real x => if x.toInt?.isSome then x.integralText else x.text
  | v => v.literal

/-- A reference as it is written; a place shows its cursor. -/
def Name.sql : Name → String
  | .column none name => Text.identifier name
  | .column (some table) name => Text.identifier table ++ "." ++ Text.identifier name
  | .place (.field cursor index) => "#" ++ toString cursor ++ "." ++ toString index
  | .place (.rowid cursor) => "#" ++ toString cursor ++ ".rowid"

def parenthesized (s : String) : String := "(" ++ s ++ ")"

namespace Expr

mutual

def sql : Expr Name → String
  | ref n => n.sql
  | lit v => v.sql
  | binary op left right =>
    (if left.isBinary then parenthesized (sql left) else sql left) ++ " " ++ op.sql ++ " "
      ++ (if right.isBinary then parenthesized (sql right) else sql right)
  | aggregate func args =>
    func.name
      ++ parenthesized (if args.isEmpty && func == .count then "*" else commaList (sqlAll args))

def sqlAll : List (Expr Name) → List String
  | [] => []
  | e :: es => sql e :: sqlAll es

end

end Expr

/-- The words for an optional part: nothing when it is absent. -/
def clause (keyword : String) : Option Term → String
  | some e => " " ++ keyword ++ " " ++ e.sql
  | none => ""

/-- The words that give something another name. -/
def newNameSql : Option String → String
  | some newName => " AS " ++ Text.identifier newName
  | none => ""

def ResultColumn.sql : ResultColumn → String
  | star => "*"
  | tableStar table => Text.identifier table ++ ".*"
  | term expr newName => expr.sql ++ newNameSql newName

def TableRef.sql (t : TableRef) : String := Text.identifier t.name ++ newNameSql t.newName

def OrderingTerm.sql (t : OrderingTerm) : String :=
  t.expr.sql ++ (if t.direction = .desc then " DESC" else "")

/-- The words for a list: nothing when it is empty. -/
def listClause (keyword : String) (items : List String) : String :=
  if items.isEmpty then "" else " " ++ keyword ++ " " ++ commaList items

def Selection.sql (s : Selection) : String :=
  "SELECT " ++ (if s.distinct then "DISTINCT " else "") ++ commaList (s.columns.map (·.sql))
    ++ listClause "FROM" (s.tables.map (·.sql)) ++ clause "WHERE" s.filter
    ++ listClause "GROUP BY" (s.groupBy.map (·.sql)) ++ clause "HAVING" s.having

def LimitClause.sql (l : LimitClause) : String :=
  " LIMIT " ++ l.limit.sql ++ clause "OFFSET" l.offset

def Query.sql (q : Query) : String :=
  q.first.sql ++ String.join (q.arms.map fun (op, s) => " " ++ op.sql ++ " " ++ s.sql)
    ++ listClause "ORDER BY" (q.orderBy.map (·.sql)) ++ (q.limit.map (·.sql)).getD ""

def Insertion.sql (i : Insertion) : String :=
  "INSERT INTO " ++ Text.identifier i.table
    ++ (if i.columns.isEmpty then ""
      else " " ++ parenthesized (commaList (i.columns.map Text.identifier)))
    ++ " VALUES " ++ commaList (i.rows.map fun row => parenthesized (commaList (row.map (·.sql))))

def Change.sql (c : Change) : String :=
  "UPDATE " ++ Text.identifier c.table ++ " SET "
    ++ commaList ((c.columns.zip c.values).map fun (column, value) =>
      Text.identifier column ++ " = " ++ value.sql)
    ++ clause "WHERE" c.filter

def Deletion.sql (d : Deletion) : String :=
  "DELETE FROM " ++ Text.identifier d.table ++ clause "WHERE" d.filter
    ++ (match d.limit with
      | some n => " LIMIT " ++ toString n.toInt
      | none => "")

def ColumnDef.sql (c : ColumnDef) : String :=
  Text.identifier c.name ++ (if c.typeName.isEmpty then "" else " " ++ c.typeName)
    ++ (if c.primaryKey then " PRIMARY KEY" else "") ++ (if c.notNull then " NOT NULL" else "")

def TableDef.sql (t : TableDef) : String :=
  "CREATE TABLE " ++ (if t.ifNotExists then "IF NOT EXISTS " else "") ++ Text.identifier t.name
    ++ " " ++ parenthesized (commaList (t.columns.map (·.sql)))

def IndexDef.sql (i : IndexDef) : String :=
  "CREATE " ++ (if i.unique then "UNIQUE " else "") ++ "INDEX "
    ++ (if i.ifNotExists then "IF NOT EXISTS " else "") ++ Text.identifier i.name ++ " ON "
    ++ Text.identifier i.table ++ " " ++ parenthesized (commaList (i.columns.map Text.identifier))

def Statement.sql : Statement → String
  | select query => query.sql
  | insert insertion => insertion.sql
  | update change => change.sql
  | delete deletion => deletion.sql
  | createTable table => table.sql
  | createIndex index => index.sql

end QueryMachine
