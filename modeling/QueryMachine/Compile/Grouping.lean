import QueryMachine.Compile.Output

/-!
# Aggregate queries

Without GROUP BY every qualifying row feeds one set of accumulators, and exactly one row comes out.
With GROUP BY the rows are first sorted by the group key and then walked group by group: at the end
of each group a subroutine computes the results, tests HAVING and sends the row on.

* `Call` — an aggregate call with the registers of its arguments and its accumulator.
* `emitSingleGroup`, `emitGroups` — the two shapes of code.
-/

namespace QueryMachine

open Emit

/-- An aggregate call, with the first register of its arguments and that of its accumulator. -/
structure Call where
  expr : Resolved
  func : Aggregate
  args : List Resolved
  argBase : Int
  accumulator : Int
deriving Repr, Inhabited

namespace Grouping

def outputs (p : Plan) : List Resolved :=
  p.projection ++ p.having.toList ++ p.orderBy.map (·.1)

/-- Adds the aggregate calls in an expression to those found so far, each once. An aggregate inside
an argument of another is refused. -/
def addCalls (e : Resolved) (found : List (Aggregate × List Resolved)) :
    Except Error (List (Aggregate × List Resolved)) :=
  match e with
  | .aggregate func args =>
    if args.any (·.containsAggregate) then .error (.misuseOfAggregate func.name)
    else if found.any fun (f, a) => (Expr.aggregate f a).same (.aggregate func args) then .ok found
    else .ok (found ++ [(func, args)])
  | .binary _ left right =>
    match addCalls left found with
    | .error error => .error error
    | .ok found => addCalls right found
  | _ => .ok found

def addAllCalls : List Resolved → List (Aggregate × List Resolved) →
    Except Error (List (Aggregate × List Resolved))
  | [], found => .ok found
  | e :: es, found =>
    match addCalls e found with
    | .error error => .error error
    | .ok found => addAllCalls es found

/-- Adds the places that an expression reads outside aggregate calls and outside group keys. -/
def addBare (keys : List Resolved) (e : Resolved) (found : List Resolved) : List Resolved :=
  if keys.any (·.same e) then found
  else
    match e with
    | .ref _ => if found.any (·.same e) then found else found ++ [e]
    | .binary _ left right => addBare keys right (addBare keys left found)
    | _ => found

/-- The places that a plan reads outside aggregate calls and outside group keys. -/
def bareColumns (p : Plan) : List Resolved :=
  (outputs p).foldl (fun found e => addBare p.groupBy e found) []

def allocate : List (Aggregate × List Resolved) → Emit (List Call)
  | [] => pure []
  | (func, args) :: rest => do
    let argBase ← registers args.length
    let accumulator ← register
    let calls ← allocate rest
    pure (⟨.aggregate func args, func, args, argBase, accumulator⟩ :: calls)

/-- The number of arguments, which has eight bits. -/
def argCount (c : Call) : Emit Nat :=
  if c.args.length < 256 then pure c.args.length
  else throw (.internal "too many aggregate arguments")

/-- Sets every accumulator to what it starts with. -/
def emitReset : List Call → Emit Unit
  | [] => pure ()
  | c :: calls => do
    match c.func with
    | .count => op .integer 0 c.accumulator 0
    | .groupConcat => opWith .str8 0 c.accumulator 0 (.str "")
    | _ => op .null 0 c.accumulator 0
    emitReset calls

def emitArgs : List Call → Emit Unit
  | [] => pure ()
  | c :: calls => do
    emitExprs [] c.args c.argBase
    emitArgs calls

/-- Feeds the arguments to the accumulators. -/
def emitSteps : List Call → Emit Unit
  | [] => pure ()
  | c :: calls => do
    let count ← argCount c
    opFlagged .aggStep 0 c.argBase c.accumulator (.function c.func.name) (UInt8.ofNat count)
    emitSteps calls

/-- Computes the results of the accumulators. -/
def emitFinals : List Call → Emit Unit
  | [] => pure ()
  | c :: calls => do
    let count ← argCount c
    opWith .aggFinal c.accumulator count 0 (.function c.func.name)
    emitFinals calls

def emitNulls (first : Int) (count : Nat) : Emit Unit :=
  if count = 0 then pure () else op .null 0 first (first + count - 1)

/-- Expressions bound to consecutive registers. -/
def bindFrom (es : List Resolved) (base : Int) : Bindings :=
  es.zipIdx.map fun (e, i) => (e, base + i)

def bindCalls (calls : List Call) : Bindings := calls.map fun c => (c.expr, c.accumulator)

/-- Takes the qualifying rows into one group. -/
def emitGather (p : Plan) (calls : List Call) (bare : List Resolved) (bareBase : Int) : Emit Unit := do
  let scanEnd ← newLabel
  emitScan p.sources scanEnd fun skip => do
    emitFilter [] skip p.filter
    emitArgs calls
    emitSteps calls
    emitExprs [] bare bareBase
  bindHere scanEnd

/-- One group of all rows: one result row, also for no rows. -/
def emitSingleGroup (p : Plan) (destination : Destination) (calls : List Call)
    (bare : List Resolved) (counters : Counters) (done : Label) : Emit Unit := do
  let bareBase ← registers bare.length
  emitReset calls
  emitNulls bareBase bare.length
  let output ← Output.prepare p false
  emitGather p calls bare bareBase
  emitFinals calls
  let bindings := bindCalls calls ++ bindFrom bare bareBase
  emitFilter bindings done p.having
  output.emitRow p.projection bindings counters destination done done
  bindHere done
  output.emitCloseAll

def emitArgFields (cursor : Int) : List Call → (field : Int) → Emit Unit
  | [], _ => pure ()
  | c :: calls, field => do
    Output.emitFields cursor c.args.length field c.argBase
    emitArgFields cursor calls (field + c.args.length)

/-- The fields of a row in the sorter of the groups: the key, the arguments of the calls, and the bare
columns. -/
def sortedFields (p : Plan) (calls : List Call) (bare : List Resolved) : List Resolved :=
  p.groupBy ++ calls.flatMap (·.args) ++ bare

/-- First pass: sorts the qualifying rows by the group key. Gives the sorter and the register of its
record. -/
def emitSortRows (p : Plan) (calls : List Call) (bare : List Resolved) : Emit (Int × Int) := do
  let fields := sortedFields p calls bare
  let sorter ← newCursor
  opWith .sorterOpen sorter p.groupBy.length 0 (ascending p.groupBy.length)
  let block ← registers fields.length
  let record ← register
  let scanEnd ← newLabel
  emitScan p.sources scanEnd fun skip => do
    emitFilter [] skip p.filter
    emitExprs [] fields block
    op .makeRecord block fields.length record
    op .sorterInsert sorter record 0
  bindHere scanEnd
  pure (sorter, record)

structure Walk where
  /-- Positive until a row has come. -/
  first : Int
  previous : Int
  /-- The key of the row. -/
  current : Int
  /-- The bare columns of the row. -/
  currentBare : Int
  /-- The bare columns of the group's last row. -/
  groupBare : Int
  returnRegister : Int
deriving DecidableEq, Repr, Inhabited

/-- Hands out the registers in which the groups are walked, and sets them to what they start with. -/
def prepareWalk (p : Plan) (calls : List Call) (bare : List Resolved) : Emit Walk := do
  emitReset calls
  let first ← register
  op .integer 1 first 0
  let previous ← registers p.groupBy.length
  emitNulls previous p.groupBy.length
  let current ← registers p.groupBy.length
  let currentBare ← registers bare.length
  let groupBare ← registers bare.length
  emitNulls groupBare bare.length
  let returnRegister ← register
  pure ⟨first, previous, current, currentBare, groupBare, returnRegister⟩

/-- Reads the current row of the sorter. -/
def emitLoad (p : Plan) (calls : List Call) (bare : List Resolved) (sorter record : Int) (w : Walk) :
    Emit Unit := do
  let keyCount : Int := p.groupBy.length
  let argCount : Int := (calls.flatMap (·.args)).length
  op .sorterData sorter record 0
  Output.emitFields sorter p.groupBy.length 0 w.current
  emitArgFields sorter calls keyCount
  Output.emitFields sorter bare.length (keyCount + argCount) w.currentBare

def emitTake (p : Plan) (calls : List Call) (bare : List Resolved) (w : Walk) : Emit Unit := do
  op .copy w.current w.previous (p.groupBy.length - 1)
  emitSteps calls
  if bare.isEmpty then pure () else op .copy w.currentBare w.groupBare (bare.length - 1)

/-- Enters the loop over the sorted rows: reads the current row, and goes to `sameGroup` unless it
begins a new group after another one. Gives the head of the loop. -/
def emitEnter (p : Plan) (calls : List Call) (bare : List Resolved) (sorter record : Int) (w : Walk)
    (groupsEnd boundary sameGroup : Label) : Emit Label := do
  jump .sorterSort sorter 0 groupsEnd
  let head ← labelHere
  emitLoad p calls bare sorter record w
  jump .ifPos w.first 1 sameGroup
  Output.emitDiffers boundary p.groupBy.length w.current w.previous
  jump .goto 0 0 sameGroup
  bindHere boundary
  pure head

/-- Second pass: walks the sorted rows. Where a new group begins, the subroutine `outputRoutine` ends
the group before it. -/
def emitWalk (p : Plan) (calls : List Call) (bare : List Resolved) (sorter record : Int) (w : Walk)
    (groupsEnd outputRoutine boundary sameGroup : Label) : Emit Unit := do
  let head ← emitEnter p calls bare sorter record w groupsEnd boundary sameGroup
  jump .gosub w.returnRegister 0 outputRoutine
  emitReset calls
  bindHere sameGroup
  emitTake p calls bare w
  jump .sorterNext sorter 0 head

def groupBindings (p : Plan) (calls : List Call) (bare : List Resolved) (w : Walk) : Bindings :=
  bindFrom p.groupBy w.previous ++ bindCalls calls ++ bindFrom bare w.groupBare

def emitGroupEnd (p : Plan) (destination : Destination) (calls : List Call) (bare : List Resolved)
    (counters : Counters) (output : Output) (w : Walk) (done : Label) : Emit Unit := do
  emitFinals calls
  let bindings := groupBindings p calls bare w
  let groupDone ← newLabel
  emitFilter bindings groupDone p.having
  output.emitRow p.projection bindings counters destination groupDone done
  bindHere groupDone
  op .ret w.returnRegister 0 0

/-- Walks the groups. The subroutine that ends a group stands after the walk. -/
def emitGroupLoop (p : Plan) (destination : Destination) (calls : List Call) (bare : List Resolved)
    (counters : Counters) (output : Output) (sorter record : Int) (w : Walk) (done : Label) :
    Emit Unit := do
  let groupsEnd ← newLabel
  let outputRoutine ← newLabel
  let boundary ← newLabel
  let sameGroup ← newLabel
  let afterGroups ← newLabel
  emitWalk p calls bare sorter record w groupsEnd outputRoutine boundary sameGroup
  bindHere groupsEnd
  jump .ifPos w.first 0 afterGroups
  jump .gosub w.returnRegister 0 outputRoutine
  jump .goto 0 0 afterGroups
  bindHere outputRoutine
  emitGroupEnd p destination calls bare counters output w done
  bindHere afterGroups

/-- The rows of each group in turn, by way of a sorter on the group key. -/
def emitGroups (p : Plan) (destination : Destination) (calls : List Call) (bare : List Resolved)
    (counters : Counters) (done : Label) : Emit Unit := do
  let (sorter, record) ← emitSortRows p calls bare
  let output ← Output.prepare p (!p.orderBy.isEmpty)
  let w ← prepareWalk p calls bare
  emitGroupLoop p destination calls bare counters output sorter record w done
  output.emitDrain counters destination done
  bindHere done
  op .close sorter 0 0
  output.emitCloseAll

def emit (p : Plan) (destination : Destination) : Emit Unit := do
  let found ← check (addAllCalls (outputs p) [])
  let bare := bareColumns p
  let calls ← allocate found
  emitOpenSources p.sources
  let done ← newLabel
  let counters ← emitCounters p done
  if p.groupBy.isEmpty then emitSingleGroup p destination calls bare counters done
  else emitGroups p destination calls bare counters done
  emitCloseSources p.sources

end Grouping

end QueryMachine
