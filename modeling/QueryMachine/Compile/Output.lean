import QueryMachine.Compile.Expression
import QueryMachine.Compile.Plan

/-!
# From a qualifying row to its destination

What happens to a row after the filter: duplicates are dropped, rows go through a sorter if the
query is ordered, OFFSET skips and LIMIT stops, and the row is handed to its destination.

* `Destination` — where result rows go.
* `emitScan` — nested loops over the sources.
* `Output.emitRow`, `Output.emitDrain` — the way of a row, without and through a sorter.
-/

namespace QueryMachine

open Emit

/-- Where result rows go. -/
inductive Destination where
  /-- Out of the program. -/
  | output
  /-- Appended to the table of a cursor under a fresh rowid. -/
  | table (cursor : Int)
  /-- Added to the index of a cursor. -/
  | set (cursor : Int)
  /-- Into registers; each row replaces the one before. -/
  | registers (base : Int)
  /-- Into registers, then to the coroutine that waits for them. -/
  | coroutine (yieldRegister base : Int)
deriving DecidableEq, Repr, Inhabited

/-- Hands the `width` registers from `result` on to their destination. -/
def Destination.emit (d : Destination) (result width : Int) : Emit Unit :=
  match d with
  | output => op .resultRow result width 0
  | table cursor => do
    let record ← temp
    let rowid ← temp
    op .makeRecord result width record
    op .newRowid cursor rowid 0
    op .insert cursor record rowid
    giveBack rowid
    giveBack record
  | set cursor => do
    let record ← temp
    op .makeRecord result width record
    op .idxInsert cursor record 0
    giveBack record
  | registers base => op .copy result base (width - 1)
  | coroutine yieldRegister base => do
    op .copy result base (width - 1)
    op .yield yieldRegister 0 0

/-! ## Scans -/

def emitOpenSources : List Source → Emit Unit
  | [] => pure ()
  | s :: rest => do
    match s.table with
    | some (root, name) => opWith .openRead s.cursor root 0 (.table name)
    | none => pure ()
    emitOpenSources rest

def emitCloseSources (sources : List Source) : Emit Unit :=
  emitClose ((sources.filter fun s => s.table.isSome).map (·.cursor))

/-- Nested loops over the sources, the first outermost. The body is told where to go to drop the
current row: on to the next row of the innermost loop, or to `exit` when there is no loop. -/
def emitScan : List Source → (exit : Label) → (body : Label → Emit Unit) → Emit Unit
  | [], exit, body => body exit
  | s :: rest, exit, body => do
    let next ← newLabel
    jump .rewind s.cursor 0 exit
    let head ← labelHere
    emitScan rest next body
    bindHere next
    jump .next s.cursor 0 head

/-! ## LIMIT and OFFSET -/

/-- The registers that count LIMIT and OFFSET down. -/
structure Counters where
  limit : Option Int
  offset : Option Int
deriving DecidableEq, Repr, Inhabited

/-- Loads LIMIT, going to `done` at once when it is zero. -/
def emitLimit (done : Label) : Option Resolved → Emit (Option Int)
  | none => pure none
  | some e => do
    let r ← register
    emitExpr [] e r
    op .mustBeInt r 0 0
    jump .ifNot r 0 done
    pure (some r)

def emitOffset : Option Resolved → Emit (Option Int)
  | none => pure none
  | some e => do
    let r ← register
    emitExpr [] e r
    op .mustBeInt r 0 0
    pure (some r)

def emitCounters (p : Plan) (done : Label) : Emit Counters := do
  let limit ← emitLimit done p.limit
  let offset ← emitOffset p.offset
  pure ⟨limit, offset⟩

namespace Counters

def emitSkip (c : Counters) (skip : Label) : Emit Unit :=
  match c.offset with
  | some r => jump .ifPos r 1 skip
  | none => pure ()

/-- Counts the row, going to `done` after the last one. -/
def emitStop (c : Counters) (done : Label) : Emit Unit :=
  match c.limit with
  | some r => jump .decrJumpZero r 0 done
  | none => pure ()

end Counters

/-! ## Duplicates and order -/

/-- How duplicates are dropped. -/
inductive Distinct where
  /-- They are kept. -/
  | none
  /-- Each row is looked up in an index of the rows so far. -/
  | unordered (cursor : Int)
  /-- Rows come sorted by all their columns, so each is compared with the one before; `first` is
  positive until a row has come. -/
  | ordered (first previous : Int)
deriving DecidableEq, Repr, Inhabited

/-- A sorter and its registers: the keys, followed by the result columns, and their record. -/
structure Sorting where
  cursor : Int
  keys : List Resolved
  block : Int
  record : Int
deriving Repr, Inhabited

/-- The way of a row from the filter to its destination. -/
structure Output where
  width : Int
  /-- The first register of the result columns. -/
  result : Int
  distinct : Distinct
  sorting : Option Sorting
deriving Repr, Inhabited

/-- Whether the expressions can be paired off, one by one, with different members of `lead`. -/
def pairsOff (lead : List Resolved) : List Resolved → Bool
  | [] => true
  | e :: es => lead.any (·.same e) && pairsOff (lead.eraseP (·.same e)) es

/-- Whether the leading ORDER BY terms are the result columns in some order. -/
def Plan.orderCoversProjection (p : Plan) : Bool :=
  p.projection.length ≤ p.orderBy.length
    && pairsOff ((p.orderBy.take p.projection.length).map (·.1)) p.projection

def ascending (n : Nat) : Payload := .sortOrder (String.ofList (List.replicate n '+'))

/-- The directions of ORDER BY as a sort order. -/
def Plan.directions (p : Plan) : Payload :=
  .sortOrder (String.ofList (p.orderBy.map fun (_, d) => if d = .desc then '-' else '+'))

namespace Output

def prepareDistinct (p : Plan) (useSorter : Bool) : Emit Distinct :=
  if !p.distinct then pure .none
  else if useSorter && p.orderCoversProjection then do
    let first ← register
    op .integer 1 first 0
    let previous ← Emit.registers p.width
    pure (.ordered first previous)
  else do
    let cursor ← newCursor
    opWith .openEphemeral cursor p.width 0 (ascending p.projection.length)
    pure (.unordered cursor)

def prepareSorting (p : Plan) : Emit Sorting := do
  let cursor ← newCursor
  let keyCount : Int := p.orderBy.length
  opWith .sorterOpen cursor keyCount 0 p.directions
  let block ← Emit.registers (keyCount + p.width)
  let record ← register
  pure ⟨cursor, p.orderBy.map (·.1), block, record⟩

/-- Hands out the registers and opens the index of duplicates and the sorter, as needed. -/
def prepare (p : Plan) (useSorter : Bool) : Emit Output := do
  let result ← Emit.registers p.width
  let distinct ← prepareDistinct p useSorter
  if useSorter then
    let sorting ← prepareSorting p
    pure ⟨p.width, result, distinct, some sorting⟩
  else pure ⟨p.width, result, distinct, none⟩

/-- Drops the row if it is in the index of the rows so far, and else puts it there. -/
def emitProbe (distinct : Distinct) (result width : Int) (skip : Label) : Emit Unit :=
  match distinct with
  | .unordered cursor => do
    let key ← temp
    op .makeRecord result width key
    jump .found cursor key skip
    op .idxInsert cursor key 0
    giveBack key
  | _ => pure ()

/-- Computes the result columns of the current row and sends them on: into the sorter, or past
OFFSET to the destination. -/
def emitRow (o : Output) (projection : List Resolved) (bindings : Bindings) (counters : Counters)
    (destination : Destination) (skip done : Label) : Emit Unit :=
  match o.sorting with
  | some s => do
    let keyCount : Int := s.keys.length
    let result := s.block + keyCount
    emitExprs bindings projection result
    emitProbe o.distinct result o.width skip
    emitExprs bindings s.keys s.block
    op .makeRecord s.block (keyCount + o.width) s.record
    op .sorterInsert s.cursor s.record 0
  | none => do
    emitExprs bindings projection o.result
    emitProbe o.distinct o.result o.width skip
    counters.emitSkip skip
    destination.emit o.result o.width
    counters.emitStop done

/-- Reads `count` consecutive fields of a cursor into consecutive registers. -/
def emitFields (cursor : Int) : (count : Nat) → (field target : Int) → Emit Unit
  | 0, _, _ => pure ()
  | count + 1, field, target => do
    op .column cursor field target
    emitFields cursor count (field + 1) (target + 1)

/-- Jumps to `fresh` if one of `count` registers differs from its partner; NULL equals NULL. -/
def emitDiffers (fresh : Label) : (count : Nat) → (current previous : Int) → Emit Unit
  | 0, _, _ => pure ()
  | count + 1, current, previous => do
    jumpFlagged .ne current previous fresh Flag.nullEqual
    emitDiffers fresh count (current + 1) (previous + 1)

/-- Drops a sorted row that equals the one before. -/
def emitCompare (o : Output) (skip : Label) : Emit Unit :=
  match o.distinct with
  | .ordered first previous => do
    let fresh ← newLabel
    jump .ifPos first 1 fresh
    emitDiffers fresh o.width.toNat o.result previous
    jump .goto 0 0 skip
    bindHere fresh
    op .copy o.result previous (o.width - 1)
  | _ => pure ()

/-- Sorts, and sends the sorted rows past OFFSET to the destination. -/
def emitDrain (o : Output) (counters : Counters) (destination : Destination) (done : Label) :
    Emit Unit :=
  match o.sorting with
  | none => pure ()
  | some s => do
    jump .sorterSort s.cursor 0 done
    let head ← labelHere
    let skip ← newLabel
    op .sorterData s.cursor s.record 0
    emitFields s.cursor o.width.toNat s.keys.length o.result
    o.emitCompare skip
    counters.emitSkip skip
    destination.emit o.result o.width
    counters.emitStop done
    bindHere skip
    jump .sorterNext s.cursor 0 head

/-- Closes the index of duplicates and the sorter. -/
def emitCloseAll (o : Output) : Emit Unit := do
  match o.distinct with
  | .unordered cursor => op .close cursor 0 0
  | _ => pure ()
  match o.sorting with
  | some s => op .close s.cursor 0 0
  | none => pure ()

end Output

end QueryMachine
