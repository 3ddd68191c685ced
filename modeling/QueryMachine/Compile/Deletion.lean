import QueryMachine.Compile.IndexKey
import QueryMachine.Compile.Options

/-!
# DELETE

A DELETE of every row clears the trees. Any other runs in two passes: the first collects the rowids
of the rows to delete, the second deletes them, since deleting under a scanning cursor could make it
miss rows.

* `Cost` — what running a DELETE costs, told from the statement alone.
-/

namespace QueryMachine

open Emit

namespace Deletion

/-- The limit, where it limits: a negative one does not. -/
def effectiveLimit? (d : Deletion) : Option Int64 := d.limit.filter fun n => 0 ≤ n.toInt

def clears (d : Deletion) (options : Options) : Bool :=
  d.filter.isNone && d.effectiveLimit?.isNone && options.truncate && !options.foreignKeys

inductive Cost where
  /-- The same whatever the table holds. -/
  | constant
  /-- Every row is visited and at most `rows` are deleted. -/
  | linear (rows : Nat)
deriving DecidableEq, Repr

def cost (d : Deletion) (options : Options) (rows : Nat) : Cost :=
  if d.clears options then .constant
  else
    match d.effectiveLimit? with
    | some n => .linear (min rows n.toInt.toNat)
    | none => .linear rows

def emitClear : List Index → Emit Unit
  | [] => pure ()
  | index :: rest => do
    opWith .clear index.root 0 0 (.index index.name)
    emitClear rest

def emitTruncate (options : Options) (table : Table) : Emit Unit := do
  emitInit
  opWith .clear table.root 0 0 (.table table.name)
  emitClear (if options.maintainIndexes then table.indexes else [])
  emitHalt

/-- Loads the limit, going to `done` at once when it is zero. -/
def emitLimit (done : Label) : Option Int64 → Emit (Option Int)
  | none => pure none
  | some n => do
    let r ← register
    emitInt n r
    jump .ifNot r 0 done
    pure (some r)

/-- Counts a row, going to `collected` after the last one that is wanted. -/
def emitCount (limit : Option Int) (collected : Label) : Emit Unit :=
  match limit with
  | some r => jump .decrJumpZero r 0 collected
  | none => pure ()

/-- First pass: collects the rowids of matching rows. -/
def emitCollect (cursor rowSet : Int) (filter : Option Resolved) (limit : Option Int)
    (collected : Label) : Emit Unit := do
  jump .rewind cursor 0 collected
  let scan ← labelHere
  let next ← newLabel
  emitFilter [] next filter
  let rowid ← temp
  op .rowid cursor rowid 0
  op .rowSetAdd rowSet rowid 0
  giveBack rowid
  emitCount limit collected
  bindHere next
  jump .next cursor 0 scan

/-- Checks that no row refers to the current one. -/
def emitCheck (options : Options) (table : Table) (cursor : Int) : Emit Unit :=
  if options.foreignKeys then opWith .fkCheck cursor 0 0 (.table table.name) else pure ()

/-- Second pass: deletes the collected rows. -/
def emitDelete (options : Options) (table : Table) (indexes : List OpenIndex) (cursor rowSet : Int)
    (collected done : Label) : Emit Unit := do
  bindHere collected
  let rowid ← register
  jump .rowSetRead rowSet rowid done
  jump .notExists cursor rowid collected
  emitKeys .idxDelete table (.row cursor) indexes
  emitCheck options table cursor
  opWith .delete cursor 0 0 (.table table.name)
  jump .goto 0 0 collected

def emitRows (options : Options) (table : Table) (filter : Option Resolved) (limit : Option Int64) :
    Emit Unit := do
  let cursor ← newCursor
  emitInit
  opWith .openWrite cursor table.root 0 (.table table.name)
  let indexes ← emitOpenIndexes (if options.maintainIndexes then table.indexes else [])
  let rowSet ← register
  op .null 0 rowSet 0
  let done ← newLabel
  let collected ← newLabel
  let limit ← emitLimit done limit
  emitCollect cursor rowSet filter limit collected
  emitDelete options table indexes cursor rowSet collected done
  bindHere done
  emitClose (cursor :: indexes.map (·.1))
  emitHalt

def compile (schema : Schema) (options : Options) (d : Deletion) : Except Error Program := do
  let table ← schema.lookup d.table
  let filter ← (Scope.single table 0).resolvePlain? d.filter
  let steps :=
    if d.clears options then emitTruncate options table
    else emitRows options table filter d.effectiveLimit?
  let (program, ()) ← Emit.build options.reuseTemps steps
  pure program

end Deletion

end QueryMachine
