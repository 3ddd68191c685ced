import QueryMachine.Machine.State
import QueryMachine.Schema

/-!
# Foreign keys

A column of a child table holds rowids of a parent table. A row of the parent may not be deleted
while a row of the child refers to it.
-/

namespace QueryMachine

/-- `column` of `child` holds rowids of `parent`. -/
structure ForeignKey where
  parent : String
  child : String
  column : String
deriving DecidableEq, Repr, Inhabited

namespace Machine

def childColumn (schema : Schema) (key : ForeignKey) : Except Error (Table × Nat) :=
  match schema.table? key.child with
  | none => .error (.noSuchTable key.child)
  | some table =>
    match table.columnIndex? key.column with
    | none => .error (.noSuchColumn (key.child ++ "." ++ key.column))
    | some index => .ok (table, index)

def columnValue (table : Table) (index : Nat) (row : Int64 × Bytes) : Except Error Value :=
  if table.isRowidAt index then .ok (.int row.1)
  else
    match Record.decode row.2 with
    | .ok values => .ok (values.getD index .null)
    | .error e => .error e

def anyRefers (table : Table) (index : Nat) (id : Int64) : List (Int64 × Bytes) → Except Error Bool
  | [] => .ok false
  | row :: rows =>
    match columnValue table index row with
    | .error e => .error e
    | .ok v => if v.equal (.int id) then .ok true else anyRefers table index id rows

def checkKey (schema : Schema) (store : Store) (parent : String) (id : Int64) (key : ForeignKey) :
    Except Fault Unit :=
  match childColumn schema key with
  | .error e => .error (.rejected e)
  | .ok (table, index) =>
    match store.tree? table.root with
    | some (.table rows) =>
      match anyRefers table index id rows with
      | .error e => .error (.rejected e)
      | .ok true => .error (.foreignKeyViolation parent key.child id)
      | .ok false => .ok ()
    | _ => .error (.noSuchRoot table.root)

def checkKeys (schema : Schema) (store : Store) (parent : String) (id : Int64) :
    List ForeignKey → Except Fault Unit
  | [] => .ok ()
  | key :: keys =>
    match checkKey schema store parent id key with
    | .error f => .error f
    | .ok () => checkKeys schema store parent id keys

/-- Checks that no row refers to the current row of the table that the payload names. -/
def foreignKeyCheck (schema : Schema) (keys : List ForeignKey) (pc : Nat) (i : Instruction)
    (s : State) : Effect :=
  match i.payload with
  | .table parent =>
    match s.currentRowid pc i.p1 with
    | .error f => .error f
    | .ok id =>
      match checkKeys schema s.store parent id
          (keys.filter fun key => Text.sameName key.parent parent) with
      | .error f => .error f
      | .ok () => .ok (.next, s)
  | _ => .error (.badOperand i.opcode pc .checkWithoutTable)

end Machine

end QueryMachine
