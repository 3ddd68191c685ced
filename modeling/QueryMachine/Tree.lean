import QueryMachine.Slots
import QueryMachine.Value.Order

/-!
# Trees

What a database stores rows and keys in. A table holds records by rowid, an index holds keys; both
are kept in ascending order. A position in a tree is the rowid or the key itself, so it keeps its
meaning when the entry under it is deleted: the next entry is the first one beyond it.

* `after?`, `before?` — the neighbours of a position, whether or not it is still taken.
* `hasKeyWith` — whether some key begins with given fields.
* `Store` — trees by their roots.
-/

namespace QueryMachine

inductive Tree where
  /-- Records by rowid, in ascending order. -/
  | table (rows : List (Int64 × Bytes))
  | index (keys : List (List Value))
deriving DecidableEq, Repr, Inhabited

inductive Position where
  | rowid (id : Int64)
  | key (key : List Value)
deriving DecidableEq, Repr, Inhabited

/-! ## Rows by rowid -/

namespace Rows

/-- The record under a rowid. -/
def get? (rows : List (Int64 × Bytes)) (id : Int64) : Option Bytes := rows.lookup id

/-- Stores a record under a rowid, replacing the one that was there. -/
def put (id : Int64) (record : Bytes) : List (Int64 × Bytes) → List (Int64 × Bytes)
  | [] => [(id, record)]
  | row :: rows =>
    if id < row.1 then (id, record) :: row :: rows
    else if id = row.1 then (id, record) :: rows
    else row :: put id record rows

/-- Removes the record under a rowid. -/
def erase (id : Int64) (rows : List (Int64 × Bytes)) : List (Int64 × Bytes) :=
  rows.filter fun row => row.1 != id

end Rows

/-! ## Keys in order -/

namespace Keys

def contains (keys : List (List Value)) (key : List Value) : Bool :=
  keys.any fun k => Value.orderRows k key == .eq

/-- Adds a key; an equal one stays as it is. -/
def add (key : List Value) : List (List Value) → List (List Value)
  | [] => [key]
  | k :: keys =>
    match Value.orderRows key k with
    | .lt => key :: k :: keys
    | .eq => k :: keys
    | .gt => k :: add key keys

/-- Removes the key equal to the given one. -/
def erase (key : List Value) (keys : List (List Value)) : List (List Value) :=
  keys.filter fun k => Value.orderRows k key != .eq

end Keys

namespace Tree

def emptyTable : Tree := table []

def emptyIndex : Tree := index []

def size : Tree → Nat
  | table rows => rows.length
  | index keys => keys.length

def cleared : Tree → Tree
  | table _ => emptyTable
  | index _ => emptyIndex

def first? : Tree → Option Position
  | table rows => rows.head?.map fun row => .rowid row.1
  | index keys => keys.head?.map .key

def last? : Tree → Option Position
  | table rows => rows.getLast?.map fun row => .rowid row.1
  | index keys => keys.getLast?.map .key

/-- The first entry beyond a position. -/
def after? : Tree → Position → Option Position
  | table rows, .rowid id => (rows.find? fun row => id < row.1).map fun row => .rowid row.1
  | index keys, .key key => (keys.find? fun k => Value.orderRows k key == .gt).map .key
  | _, _ => none

/-- The last entry ahead of a position. -/
def before? : Tree → Position → Option Position
  | table rows, .rowid id =>
    (rows.filter fun row => row.1 < id).getLast?.map fun row => .rowid row.1
  | index keys, .key key => (keys.filter fun k => Value.orderRows k key == .lt).getLast?.map .key
  | _, _ => none

/-- One above the largest rowid, as far as the 64-bit range goes; 1 where there is none. -/
def nextRowid : Tree → Int64
  | table rows =>
    match rows.getLast? with
    | some row => Integer.clamp (row.1.toInt + 1)
    | none => 1
  | index _ => 1

/-- Whether some key begins with the given fields: if one does, the first key that is not before the
fields does. -/
def hasKeyWith : Tree → List Value → Bool
  | table _, _ => false
  | index keys, lead =>
    match keys.find? fun k => Value.orderRows k lead != .lt with
    | some k => Value.startsWith k lead
    | none => false

end Tree

/-! ## Stores -/

/-- The trees of a database by root, and the root of the next one. -/
structure Store where
  trees : Slots Tree
  nextRoot : Int
deriving Repr, Inhabited

namespace Store

def tree? (s : Store) (root : Int) : Option Tree := s.trees.get? root

def setTree (s : Store) (root : Int) (tree : Tree) : Store :=
  { s with trees := s.trees.set root tree }

/-- Adds a tree; gives its root. -/
def create (s : Store) (tree : Tree) : Int × Store :=
  (s.nextRoot, ⟨s.trees.set s.nextRoot tree, s.nextRoot + 1⟩)

end Store

end QueryMachine
