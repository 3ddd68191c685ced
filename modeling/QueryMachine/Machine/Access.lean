import QueryMachine.Machine.Control

/-!
# Cursors, trees and sorters

Opening cursors, moving them, and reading and changing what is under them. An instruction that fails
has not changed any tree.
-/

namespace QueryMachine.Machine

/-! ## Opening -/

/-- The root an opening instruction names, in p2 or in register p2. -/
def rootOf (pc : Nat) (i : Instruction) (s : State) : Except Fault Int :=
  if i.has Flag.rootInRegister then
    let root := (s.get i.p2).toInt64.toInt
    if Integer.inRange32 root then .ok root else .error (.badOperand i.opcode pc .rootOutOfRange)
  else .ok i.p2

def openTree (pc : Nat) (i : Instruction) (s : State) : Effect :=
  match rootOf pc i s with
  | .error f => .error f
  | .ok root =>
    match s.store.tree? root with
    | some _ => .ok (.next, s.openCursor i.p1 (.stored root))
    | none => .error (.noSuchRoot root)

/-- Opens a cursor on a tree of its own: an index where the payload is a sort order. -/
def openTransient (i : Instruction) (s : State) : Flow × State :=
  let tree := match i.payload with
    | .sortOrder _ => Tree.emptyIndex
    | _ => Tree.emptyTable
  (.next, s.openCursor i.p1 (.transient tree))

def openSorter (i : Instruction) (s : State) : Flow × State :=
  let descending := match i.payload with
    | .sortOrder directions => directions.toList.map (· == '-')
    | _ => []
  (.next, s.openCursor i.p1 (.sorter (.empty i.p2.toNat descending)))

def closeCursor (i : Instruction) (s : State) : Flow × State :=
  (.next, { s with cursors := s.cursors.erase i.p1 })

/-! ## Moving -/

/-- Goes to one end of a tree, and jumps if the tree is empty. -/
def moveToEnd (find : Tree → Option Position) (pc : Nat) (i : Instruction) (s : State) : Effect :=
  match s.tree pc .openRead i.p1 with
  | .error f => .error f
  | .ok tree =>
    let position := find tree
    .ok (jumpIf position.isNone i.p2 (s.setPosition i.p1 position))

/-- Goes to a neighbour, and jumps if there is one. -/
def moveOn (find : Tree → Position → Option Position) (pc : Nat) (i : Instruction) (s : State) :
    Effect :=
  match s.tree pc .openRead i.p1, s.cursor pc i.p1 with
  | .error f, _ => .error f
  | _, .error f => .error f
  | .ok tree, .ok cursor =>
    let position := cursor.position.bind (find tree)
    .ok (jumpIf position.isSome i.p2 (s.setPosition i.p1 position))

def hasRow (id : Int64) : Tree → Bool
  | .table rows => (Rows.get? rows id).isSome
  | .index _ => false

/-- Goes to the row with the rowid in register p3, or jumps if there is none. -/
def notExists (pc : Nat) (i : Instruction) (s : State) : Effect :=
  let id := (s.get i.p3).toInt64
  match s.tree pc .openRead i.p1 with
  | .error f => .error f
  | .ok tree =>
    if hasRow id tree then .ok (.next, s.setPosition i.p1 (some (.rowid id)))
    else .ok (.jump i.p2, s)

/-- Jumps if some key begins with the fields of the record in register p3, or if none does. -/
def probe (wanted : Bool) (pc : Nat) (i : Instruction) (s : State) : Effect :=
  match s.getFields pc i.opcode i.p3 with
  | .error f => .error f
  | .ok fields =>
    match s.tree pc .openRead i.p1 with
    | .error f => .error f
    | .ok tree => .ok (jumpIf (tree.hasKeyWith fields == wanted) i.p2 s)

/-! ## Reading -/

/-- The field at a position of a row; NULL where there is none. -/
def fieldAt (row : List Value) (position : Int) : Value :=
  if position < 0 then .null else row.getD position.toNat .null

def readField (pc : Nat) (i : Instruction) (s : State) : Effect :=
  match s.currentRow pc i.p1 with
  | .error f => .error f
  | .ok row => .ok (.next, s.set i.p3 (fieldAt row i.p2))

def readRowid (pc : Nat) (i : Instruction) (s : State) : Effect :=
  match s.currentRowid pc i.p1 with
  | .error f => .error f
  | .ok id => .ok (.next, s.set i.p2 (.int id))

/-- A rowid that no row of the table has, while there is one above the largest. -/
def newRowid (pc : Nat) (i : Instruction) (s : State) : Effect :=
  match s.tree pc .openRead i.p1 with
  | .error f => .error f
  | .ok tree => .ok (.next, s.set i.p2 (.int tree.nextRowid))

/-! ## Records -/

/-- Values with affinities applied, as far as those go. -/
def applyAffinities : (codes : List Char) → List Value → List Value
  | c :: codes, v :: values => v.withAffinity (Affinity.ofChar c) :: applyAffinities codes values
  | [], values => values
  | _, [] => []

def makeRecord (i : Instruction) (s : State) : Effect :=
  let codes := match i.payload with
    | .affinity codes => codes.toList
    | _ => []
  match Record.encode (applyAffinities codes (s.getBlock i.p1 i.p2)) with
  | .error e => .error (.rejected e)
  | .ok bytes => .ok (.next, s.set i.p3 (.blob bytes))

/-! ## Changing trees -/

/-- Stores a record under the rowid in register p3, and goes there. -/
def insertRow (pc : Nat) (i : Instruction) (s : State) : Effect :=
  match s.getRecord pc i.opcode i.p2 with
  | .error f => .error f
  | .ok record =>
    let id := (s.get i.p3).toInt64
    match s.tree pc .openWrite i.p1 with
    | .error f => .error f
    | .ok (.table rows) =>
      let s := s.setTree i.p1 (.table (Rows.put id record rows))
      .ok (.next, s.setPosition i.p1 (some (.rowid id)))
    | .ok (.index _) => .error (.badOperand i.opcode pc .insertIntoIndex)

def deleteRow (pc : Nat) (i : Instruction) (s : State) : Effect :=
  match s.cursor pc i.p1, s.tree pc .openWrite i.p1 with
  | .error f, _ => .error f
  | _, .error f => .error f
  | .ok cursor, .ok tree =>
    match tree, cursor.position with
    | .table rows, some (.rowid id) => .ok (.next, s.setTree i.p1 (.table (Rows.erase id rows)))
    | .index keys, some (.key key) => .ok (.next, s.setTree i.p1 (.index (Keys.erase key keys)))
    | _, _ => .error (.noCurrentRow i.p1 pc)

/-- Removes every entry of a tree of the database. -/
def clearTree (i : Instruction) (s : State) : Effect :=
  match s.store.tree? i.p1 with
  | some tree => .ok (.next, { s with store := s.store.setTree i.p1 tree.cleared })
  | none => .error (.noSuchRoot i.p1)

/-- Changes the keys of an index by the key that is the record in register p2. -/
def changeKeys (change : List Value → List (List Value) → List (List Value)) (pc : Nat)
    (i : Instruction) (s : State) : Effect :=
  match s.getFields pc i.opcode i.p2 with
  | .error f => .error f
  | .ok key =>
    match s.tree pc .openWrite i.p1 with
    | .error f => .error f
    | .ok (.index keys) => .ok (.next, s.setTree i.p1 (.index (change key keys)))
    | .ok (.table _) => .error (.badOperand i.opcode pc .indexOperationOnTable)

/-- Makes a tree: an index where p3 is 2. -/
def createTree (i : Instruction) (s : State) : Flow × State :=
  let (root, store) := s.store.create (if i.p3 == 2 then .emptyIndex else .emptyTable)
  (.next, { s with store }.set i.p2 (.int (Int64.ofInt root)))

/-! ## Sorters -/

/-- Puts the record in register p2 into a sorter. -/
def sorterInsert (pc : Nat) (i : Instruction) (s : State) : Effect :=
  match s.getRecord pc i.opcode i.p2 with
  | .error f => .error f
  | .ok record =>
    match Record.decode record with
    | .error e => .error (.rejected e)
    | .ok values =>
      match s.sorter pc i.opcode i.p1 with
      | .error f => .error f
      | .ok sorter => .ok (.next, s.setSorter i.p1 (sorter.insert values record))

/-- Sorts, and jumps if there are no rows. -/
def sorterSort (pc : Nat) (i : Instruction) (s : State) : Effect :=
  match s.sorter pc i.opcode i.p1 with
  | .error f => .error f
  | .ok sorter =>
    let sorter := sorter.sort
    .ok (jumpIf sorter.position.isNone i.p2 (s.setSorter i.p1 sorter))

/-- Reads the current record of a sorter. -/
def sorterData (pc : Nat) (i : Instruction) (s : State) : Effect :=
  match s.sorter pc i.opcode i.p1 with
  | .error f => .error f
  | .ok sorter =>
    match sorter.current? with
    | some row => .ok (.next, s.set i.p2 (.blob row.2))
    | none => .error (.noCurrentRow i.p1 pc)

/-- Goes to the next row of a sorter, and jumps if there is one. -/
def sorterNext (pc : Nat) (i : Instruction) (s : State) : Effect :=
  match s.sorter pc i.opcode i.p1 with
  | .error f => .error f
  | .ok sorter =>
    let sorter := sorter.next
    .ok (jumpIf sorter.position.isSome i.p2 (s.setSorter i.p1 sorter))

end QueryMachine.Machine
