import QueryMachine.Compile.Grouping
import QueryMachine.Compile.Options

/-!
# Queries

Code for a whole query. A plain selection scans, filters and sends rows on. Selections joined by
UNION and UNION ALL are collected first: every selection up to the last UNION goes into one index,
where equal rows fall together, and the rest is appended to a table that starts with that index's
rows. What was collected is then scanned like a table, so ORDER BY, LIMIT and OFFSET apply to it.

* `emitQuery` — code that sends the rows of a query to a destination.
* `compileQuery` — a program that puts them out, and the names of the result columns.
-/

namespace QueryMachine

open Emit

def emitPlain (p : Plan) (destination : Destination) : Emit Unit := do
  emitOpenSources p.sources
  let done ← newLabel
  let counters ← emitCounters p done
  let output ← Output.prepare p (!p.orderBy.isEmpty)
  let scanEnd ← if output.sorting.isSome then newLabel else pure done
  emitScan p.sources scanEnd fun skip => do
    emitFilter [] skip p.filter
    output.emitRow p.projection [] counters destination skip done
  if output.sorting.isSome then
    bindHere scanEnd
    output.emitDrain counters destination done
  bindHere done
  output.emitCloseAll
  emitCloseSources p.sources

def emitPlan (p : Plan) (destination : Destination) : Emit Unit :=
  if p.isAggregate then Grouping.emit p destination else emitPlain p destination

/-- Code for plans that share a destination, one after the other. -/
def emitPlans (destination : Destination) : List Plan → Emit Unit
  | [] => pure ()
  | p :: plans => do
    emitPlan p destination
    emitPlans destination plans

/-- The tables a selection reads from, each with a cursor of its own. -/
def openScope (schema : Schema) : List TableRef → Emit Scope
  | [] => pure []
  | t :: tables => do
    let table ← check (schema.lookup t.name)
    let cursor ← newCursor
    let scope ← openScope schema tables
    pure (⟨table, t.visibleName, cursor⟩ :: scope)

def planSelection (schema : Schema) (s : Selection) (orderBy : List OrderingTerm)
    (limit : Option LimitClause) : Emit Plan := do
  let scope ← openScope schema s.tables
  check (scope.plan s orderBy limit)

/-! ## Selections joined by UNION and UNION ALL -/

namespace Compound

/-- Plans the further selections, which have as many result columns as the first. -/
def planArms (schema : Schema) (width : Nat) : List (CompoundOp × Selection) → Emit (List Plan)
  | [] => pure []
  | (operator, s) :: arms => do
    let plan ← planSelection schema s [] none
    if plan.projection.length = width then
      let plans ← planArms schema width arms
      pure (plan :: plans)
    else throw (.compoundArity operator.sql)

/-- The result column that an ORDER BY term names, by position or by name. -/
def orderColumn? (names : List String) : Term → Option Nat
  | .lit (.int k) =>
    if 1 ≤ k.toInt ∧ k.toInt ≤ names.length then some (k.toInt.toNat - 1) else none
  | .ref (.column none name) => names.findIdx? fun n => Text.sameName n name
  | _ => none

def orderColumns (names : List String) :
    Nat → List OrderingTerm → Except Error (List (Nat × Direction))
  | _, [] => .ok []
  | i, term :: terms =>
    match orderColumn? names term.expr with
    | none => .error (.orderByTermMismatch (ordinal (i + 1)))
    | some column =>
      match orderColumns names (i + 1) terms with
      | .error error => .error error
      | .ok columns => .ok ((column, term.direction) :: columns)

/-- How many of the selections, the first included, the last UNION reaches; none without UNION. -/
def unionReach (arms : List (CompoundOp × Selection)) : Nat :=
  arms.zipIdx.foldl (fun reach (arm, i) => if arm.1 = .union then i + 2 else reach) 0

/-- Collects selections in an index, where equal rows fall together. -/
def emitSet (names : List String) (plans : List Plan) : Emit Int := do
  let cursor ← newCursor
  opWith .openEphemeral cursor names.length 0 (ascending names.length)
  emitPlans (.set cursor) plans
  pure cursor

/-- Copies the rows of an index, if there is one, to a table. -/
def emitCopy (names : List String) (table : Int) : (set : Option Int) → Emit Unit
  | some index => emitPlan (Plan.ofCursor index names) (.table table)
  | none => pure ()

/-- Collects selections in a table, after the rows of an index if there is one. -/
def emitTable (names : List String) (set : Option Int) (plans : List Plan) : Emit Int := do
  let cursor ← newCursor
  op .openEphemeral cursor names.length 0
  emitCopy names cursor set
  emitPlans (.table cursor) plans
  pure cursor

/-- Collects all selections; gives the cursors that were opened, the one to scan last. -/
def emitCollect (names : List String) (united rest : List Plan) : Emit (List Int) := do
  if united.isEmpty then
    let table ← emitTable names none rest
    pure [table]
  else
    let set ← emitSet names united
    if rest.isEmpty then pure [set]
    else
      let table ← emitTable names (some set) rest
      pure [set, table]

/-- Code for selections joined by operators. -/
def emit (schema : Schema) (q : Query) (destination : Destination) : Emit (List String) := do
  match q.arms.find? fun arm => arm.1 = .intersect || arm.1 = .except with
  | some arm => throw (.unsupported arm.1.sql)
  | none => pure ()
  let first ← planSelection schema q.first [] none
  let arms ← planArms schema first.projection.length q.arms
  let names := first.names
  let columns ← check (orderColumns names 0 q.orderBy)
  let (limit, offset) ← check (resolveLimit q.limit)
  let plans := first :: arms
  let reach := unionReach q.arms
  let cursors ← emitCollect names (plans.take reach) (plans.drop reach)
  let scanned := cursors.getLast?.getD 0
  let collected := Plan.ofCursor scanned names
  let orderBy := columns.map fun (column, direction) => (.ref (.field scanned column), direction)
  emitPlan { collected with orderBy, limit, offset } destination
  emitClose cursors
  pure names

end Compound

/-- Code that sends the rows of a query to a destination; gives the names of the result columns. -/
def emitQuery (schema : Schema) (q : Query) (destination : Destination) : Emit (List String) :=
  if q.arms.isEmpty then do
    let plan ← planSelection schema q.first q.orderBy q.limit
    emitPlan plan destination
    pure plan.names
  else Compound.emit schema q destination

/-- A program that puts out the rows of a query, and the names of the result columns. -/
def compileQuery (schema : Schema) (options : Options) (q : Query) :
    Except Error (Program × List String) :=
  Emit.build options.reuseTemps do
    emitInit
    let names ← emitQuery schema q .output
    emitHalt
    pure names

end QueryMachine
