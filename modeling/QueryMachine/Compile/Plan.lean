import QueryMachine.Compile.Scope
import QueryMachine.Sql.Printer

/-!
# Query plans

A plan is a selection with every name resolved: wildcards are expanded, and ORDER BY and GROUP BY
terms that are positions or aliases of the result list stand for its expressions. A plan is made
before any code is written, so a wrong name leaves no code behind.
-/

namespace QueryMachine

/-- A cursor to scan. A stored table is opened and closed by the scan itself and comes with its root
and name. -/
structure Source where
  cursor : Int
  table : Option (Int × String)
deriving DecidableEq, Repr, Inhabited

/-- A selection with every name resolved. -/
structure Plan where
  sources : List Source
  projection : List Resolved
  names : List String
  filter : Option Resolved
  groupBy : List Resolved
  having : Option Resolved
  orderBy : List (Resolved × Direction)
  distinct : Bool
  limit : Option Resolved
  offset : Option Resolved
deriving Repr, Inhabited

namespace Plan

/-- The number of result columns. -/
def width (p : Plan) : Int := p.projection.length

/-- Whether the plan groups rows: by GROUP BY, or because an aggregate is called. -/
def isAggregate (p : Plan) : Bool :=
  !p.groupBy.isEmpty || p.projection.any (·.containsAggregate)
    || (p.having.map (·.containsAggregate)).getD false
    || p.orderBy.any fun (e, _) => e.containsAggregate

def ofCursor (cursor : Int) (names : List String) : Plan where
  sources := [⟨cursor, none⟩]
  projection := (List.range names.length).map fun index => .ref (.field cursor index)
  names := names
  filter := none
  groupBy := []
  having := none
  orderBy := []
  distinct := false
  limit := none
  offset := none

end Plan

/-- A position as a word: 1st, 2nd, 3rd, 4th, 11th, 21st. -/
def ordinal (n : Nat) : String :=
  let teen := 11 ≤ n % 100 && n % 100 ≤ 13
  let ending :=
    if teen then "th"
    else if n % 10 == 1 then "st"
    else if n % 10 == 2 then "nd"
    else if n % 10 == 3 then "rd"
    else "th"
  toString n ++ ending

/-! ## The result list -/

/-- An expanded entry of the result list. -/
structure ResultItem where
  expr : Resolved
  name : String
  newName : Option String
deriving Repr, Inhabited

/-- The name of a result column that was given none: a column's own name, or the text. -/
def Expr.resultName : Term → String
  | .ref (.column _ name) => name
  | e => e.sql

/-- The columns of a table, named by `nameOf`. -/
def ScopeTable.items (s : ScopeTable) (nameOf : String → String) : List ResultItem :=
  s.table.columns.zipIdx.map fun (c, index) => ⟨.ref (s.place index), nameOf c.name, none⟩

/-- The entries that one result column stands for. With several tables in sight a wildcard names
its columns by table. -/
def Scope.expand (scope : Scope) : ResultColumn → Except Error (List ResultItem)
  | .star =>
    if scope.isEmpty then .error (.unresolvedReference "*")
    else
      .ok (scope.flatMap fun s =>
        s.items fun name => if 1 < scope.length then s.visibleName ++ "." ++ name else name)
  | .tableStar name =>
    match scope.find? name with
    | some s => .ok (s.items id)
    | none => .error (.noSuchTable name)
  | .term e newName =>
    match scope.resolve e with
    | .ok resolved => .ok [⟨resolved, newName.getD e.resultName, newName⟩]
    | .error error => .error error

def Scope.expandAll (scope : Scope) : List ResultColumn → Except Error (List ResultItem)
  | [] => .ok []
  | column :: columns =>
    match scope.expand column with
    | .error error => .error error
    | .ok items =>
      match scope.expandAll columns with
      | .error error => .error error
      | .ok more => .ok (items ++ more)

/-! ## Terms of ORDER BY and GROUP BY -/

/-- The term at position `i` of a list of terms: a position in the result list, an alias of it, or
an expression over the tables. -/
def Scope.resolveTerm (scope : Scope) (items : List ResultItem) (i : Nat) (term : Term) :
    Except Error Resolved :=
  match term with
  | .lit (.int k) =>
    match if 1 ≤ k.toInt then items[k.toInt.toNat - 1]? else none with
    | some item => .ok item.expr
    | none => .error (.orderByTermMismatch (ordinal (i + 1)))
  | .ref (.column none name) =>
    match items.find? fun item => (item.newName.map (Text.sameName · name)).getD false with
    | some item => .ok item.expr
    | none => scope.resolve term
  | _ => scope.resolve term

/-- The terms of GROUP BY, which call no aggregate. -/
def Scope.groupTerms (scope : Scope) (items : List ResultItem) :
    Nat → List Term → Except Error (List Resolved)
  | _, [] => .ok []
  | i, term :: terms =>
    match scope.resolveTerm items i term with
    | .error error => .error error
    | .ok e =>
      match Scope.rejectAggregates e with
      | .error error => .error error
      | .ok () =>
        match scope.groupTerms items (i + 1) terms with
        | .error error => .error error
        | .ok es => .ok (e :: es)

def Scope.orderTerms (scope : Scope) (items : List ResultItem) :
    Nat → List OrderingTerm → Except Error (List (Resolved × Direction))
  | _, [] => .ok []
  | i, term :: terms =>
    match scope.resolveTerm items i term.expr with
    | .error error => .error error
    | .ok e =>
      match scope.orderTerms items (i + 1) terms with
      | .error error => .error error
      | .ok es => .ok ((e, term.direction) :: es)

/-- LIMIT and OFFSET are constants: they see no table. -/
def resolveLimit : Option LimitClause → Except Error (Option Resolved × Option Resolved)
  | none => .ok (none, none)
  | some clause =>
    match Scope.resolvePlain [] clause.limit with
    | .error error => .error error
    | .ok limit =>
      match Scope.resolvePlain? [] clause.offset with
      | .error error => .error error
      | .ok offset => .ok (some limit, offset)

/-! ## Plans -/

/-- An optional expression, resolved. -/
def Scope.resolve? (scope : Scope) : Option Term → Except Error (Option Resolved)
  | none => .ok none
  | some e =>
    match scope.resolve e with
    | .error error => .error error
    | .ok e => .ok (some e)

def Plan.checkHaving (p : Plan) : Except Error Plan :=
  if p.having.isSome && !p.isAggregate then
    .error (.unsupported "HAVING clause on a non-aggregate query")
  else .ok p

def Scope.plan (scope : Scope) (s : Selection) (orderBy : List OrderingTerm)
    (limit : Option LimitClause) : Except Error Plan := do
  let items ← scope.expandAll s.columns
  let filter ← scope.resolvePlain? s.filter
  let groupBy ← scope.groupTerms items 0 s.groupBy
  let having ← scope.resolve? s.having
  let orderBy ← scope.orderTerms items 0 orderBy
  let (limit, offset) ← resolveLimit limit
  Plan.checkHaving {
    sources := scope.map fun t => ⟨t.cursor, some (t.table.root, t.table.name)⟩
    projection := items.map (·.expr)
    names := items.map (·.name)
    filter, groupBy, having, orderBy, limit, offset
    distinct := s.distinct }

end QueryMachine
