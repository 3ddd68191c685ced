import QueryMachine.Machine.Accumulator
import QueryMachine.Machine.Fault
import QueryMachine.Machine.Sorter
import QueryMachine.Program.Instruction
import QueryMachine.Record
import QueryMachine.Tree

/-!
# The state of a running program

Registers, cursors, accumulators and sets of rowids, and the trees of the database. An accumulator
or a set belongs to a register number and is dropped when that register is written.

* `Registers.get`, `set` — registers hold NULL until written; a negative number means register 0.
* `State.tree` — the tree under a cursor.
-/

namespace QueryMachine.Machine

/-! ## Registers -/

/-- The registers that were written so far. -/
structure Registers where
  cells : Array Value
deriving DecidableEq, Repr, Inhabited

namespace Registers

/-- Registers before anything is written. -/
def empty : Registers := ⟨#[]⟩

def get (rs : Registers) (r : Int) : Value := rs.cells.getD r.toNat .null

def set (rs : Registers) (r : Int) (v : Value) : Registers :=
  if r.toNat < rs.cells.size then ⟨rs.cells.setIfInBounds r.toNat v⟩
  else ⟨(rs.cells ++ Array.replicate (r.toNat - rs.cells.size) Value.null).push v⟩

theorem get_set (rs : Registers) (r q : Int) (v : Value) :
    (rs.set r v).get q = if q.toNat = r.toNat then v else rs.get q := by
  simp only [set, get, Array.getD_eq_getD_getElem?]
  split
  · -- The register was written before.
    rename_i inside
    rw [Array.getElem?_setIfInBounds]
    by_cases same : q.toNat = r.toNat
    · simp [same, inside]
    · simp [same, Ne.symm same]
  · -- The register lies beyond those written before; what is between holds NULL.
    rename_i outside
    have length : (rs.cells ++ Array.replicate (r.toNat - rs.cells.size) Value.null).size = r.toNat := by
      simp only [Array.size_append, Array.size_replicate]
      omega
    rw [Array.getElem?_push, length]
    by_cases same : q.toNat = r.toNat
    · simp [same]
    · rw [if_neg same, if_neg same, Array.getElem?_append]
      split
      · rfl
      · rename_i beyond
        rw [Array.getElem?_eq_none (Nat.le_of_not_lt beyond), Array.getElem?_replicate]
        split <;> rfl

end Registers

/-! ## Cursors -/

/-- What a cursor moves over. -/
inductive Backing where
  /-- A tree of the database. -/
  | stored (root : Int)
  /-- A tree of the cursor's own. -/
  | transient (tree : Tree)
  | sorter (s : Sorter)
deriving DecidableEq, Repr, Inhabited

structure Cursor where
  backing : Backing
  /-- Where in its tree the cursor is. -/
  position : Option Position
deriving DecidableEq, Repr, Inhabited

/-! ## States -/

/-- The state of a running program. -/
structure State where
  store : Store
  registers : Registers
  cursors : Slots Cursor
  accumulators : Slots Accumulator
  /-- Sets of rowids, in ascending order. -/
  rowSets : Slots (List Int64)
  rows : Array (List Value)
deriving Repr, Inhabited

/-- What comes after an instruction. -/
inductive Flow where
  | next
  | jump (target : Int)
  | halt
deriving DecidableEq, Repr, Inhabited

/-- What an instruction does: where to go on, and the new state. -/
abbrev Effect := Except Fault (Flow × State)

namespace State

/-- The state before the first instruction. -/
def start (store : Store) : State := ⟨store, Registers.empty, .empty, .empty, .empty, #[]⟩

def get (s : State) (r : Int) : Value := s.registers.get r

/-- Writes a register, dropping what belonged to its number. -/
def set (s : State) (r : Int) (v : Value) : State :=
  { s with
    registers := s.registers.set r v
    accumulators := s.accumulators.erase r
    rowSets := s.rowSets.erase r }

def getBlock (s : State) (first count : Int) : List Value :=
  (List.range count.toNat).map fun (k : Nat) => s.get (first + k)

def getRecord (s : State) (pc : Nat) (opcode : Opcode) (r : Int) : Except Fault Bytes :=
  match s.get r with
  | .blob bytes => .ok bytes
  | v => .error (.badOperand opcode pc (.notRecord v.className))

def getFields (s : State) (pc : Nat) (opcode : Opcode) (r : Int) : Except Fault (List Value) :=
  match s.getRecord pc opcode r with
  | .ok bytes => Fault.lift (Record.decode bytes)
  | .error f => .error f

def openCursor (s : State) (c : Int) (backing : Backing) : State :=
  { s with cursors := s.cursors.set c ⟨backing, none⟩ }

def cursor (s : State) (pc : Nat) (c : Int) : Except Fault Cursor :=
  match s.cursors.get? c with
  | some cursor => .ok cursor
  | none => .error (.cursorNotOpen c pc)

/-- The tree under a cursor. That a sorter is none is reported as an issue of the opening operation
that was needed. -/
def tree (s : State) (pc : Nat) (opener : Opcode) (c : Int) : Except Fault Tree :=
  match s.cursor pc c with
  | .error f => .error f
  | .ok cursor =>
    match cursor.backing with
    | .stored root =>
      match s.store.tree? root with
      | some tree => .ok tree
      | none => .error (.noSuchRoot root)
    | .transient tree => .ok tree
    | .sorter _ => .error (.badOperand opener pc (.isSorter c))

/-- Moves a cursor. -/
def setPosition (s : State) (c : Int) (position : Option Position) : State :=
  match s.cursors.get? c with
  | some cursor => { s with cursors := s.cursors.set c { cursor with position } }
  | none => s

/-- Replaces the tree under a cursor. -/
def setTree (s : State) (c : Int) (tree : Tree) : State :=
  match s.cursors.get? c with
  | some ⟨.stored root, _⟩ => { s with store := s.store.setTree root tree }
  | some ⟨.transient _, position⟩ =>
    { s with cursors := s.cursors.set c ⟨.transient tree, position⟩ }
  | _ => s

def sorter (s : State) (pc : Nat) (opcode : Opcode) (c : Int) : Except Fault Sorter :=
  match s.cursor pc c with
  | .error f => .error f
  | .ok cursor =>
    match cursor.backing with
    | .sorter sorter => .ok sorter
    | _ => .error (.badOperand opcode pc .notSorter)

/-- Replaces the sorter under a cursor. -/
def setSorter (s : State) (c : Int) (sorter : Sorter) : State :=
  { s with cursors := s.cursors.set c ⟨.sorter sorter, none⟩ }

/-- The fields of the row under a cursor. -/
def currentRow (s : State) (pc : Nat) (c : Int) : Except Fault (List Value) :=
  match s.cursor pc c with
  | .error f => .error f
  | .ok ⟨.sorter sorter, _⟩ =>
    match sorter.current? with
    | some row => .ok row.1
    | none => .error (.noCurrentRow c pc)
  | .ok cursor =>
    match s.tree pc .openRead c, cursor.position with
    | .error f, _ => .error f
    | .ok (.table rows), some (.rowid id) =>
      match Rows.get? rows id with
      | some record => Fault.lift (Record.decode record)
      | none => .error (.noCurrentRow c pc)
    | .ok (.index _), some (.key key) => .ok key
    | .ok _, _ => .error (.noCurrentRow c pc)

/-- The rowid under a cursor; in an index it is the last field of the key. -/
def currentRowid (s : State) (pc : Nat) (c : Int) : Except Fault Int64 :=
  match s.cursor pc c with
  | .error f => .error f
  | .ok cursor =>
    match cursor.position with
    | some (.rowid id) => .ok id
    | some (.key key) =>
      match key.getLast? with
      | some v => .ok v.toInt64
      | none => .error (.noCurrentRow c pc)
    | none => .error (.noCurrentRow c pc)

end State

end QueryMachine.Machine
