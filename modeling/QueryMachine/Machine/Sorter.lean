import QueryMachine.Value.Order

/-!
# Sorters

A sorter takes rows in, sorts them by their first fields and gives them out one by one. Rows with
equal keys stay in the order in which they came.
-/

namespace QueryMachine

structure Sorter where
  /-- How many fields make up the key. -/
  keyCount : Nat
  /-- For each field of the key, whether it sorts in descending order. -/
  descending : List Bool
  /-- Each row decoded, and as the record it came in. -/
  rows : Array (List Value × Bytes)
  /-- The current row, once the rows are sorted. -/
  position : Option Nat
deriving DecidableEq, Repr, Inhabited

namespace Sorter

def empty (keyCount : Nat) (descending : List Bool) : Sorter := ⟨keyCount, descending, #[], none⟩

/-- Takes a row in. -/
def insert (s : Sorter) (values : List Value) (record : Bytes) : Sorter :=
  { s with rows := s.rows.push (values, record) }

/-- The order of two fields; a missing one comes first. -/
def orderFields : Option Value → Option Value → Ordering
  | some a, some b => a.order b
  | none, some _ => .lt
  | some _, none => .gt
  | none, none => .eq

/-- The order of two rows by their first `count` fields. -/
def orderKeys : (count : Nat) → (descending : List Bool) → List Value → List Value → Ordering
  | 0, _, _, _ => .eq
  | count + 1, descending, a, b =>
    match orderFields a.head? b.head? with
    | .eq => orderKeys count descending.tail a.tail b.tail
    | o => if descending.headD false then o.swap else o

section

variable {α : Type} (le : α → α → Bool)

/-- Merges a sorted list that begins with `x` with another one, given how what follows `x` is merged. -/
def mergeFrom (x : α) (xs : List α) (rest : List α → List α) : List α → List α
  | [] => x :: xs
  | y :: ys => if le x y then x :: rest (y :: ys) else y :: mergeFrom x xs rest ys

/-- Merges two sorted lists; of equal elements those of the first list come first. -/
def merge : List α → List α → List α
  | [] => id
  | x :: xs => mergeFrom le x xs (merge xs)

/-- Sorts a list that is at most as long as the bound: its halves are sorted and merged. -/
def mergeSort : (bound : Nat) → List α → List α
  | 0, xs => xs
  | bound + 1, xs =>
    if xs.length < 2 then xs
    else
      let half := (xs.length + 1) / 2
      merge le (mergeSort bound (xs.take half)) (mergeSort bound (xs.drop half))

end

/-- Sorts the rows and goes to the first one. -/
def sort (s : Sorter) : Sorter :=
  let sorted := mergeSort (fun a b => orderKeys s.keyCount s.descending a.1 b.1 != .gt) s.rows.size
    s.rows.toList
  { s with rows := sorted.toArray, position := if sorted.isEmpty then none else some 0 }

def current? (s : Sorter) : Option (List Value × Bytes) := s.position.bind fun p => s.rows[p]?

def next (s : Sorter) : Sorter :=
  { s with position := (s.position.map (· + 1)).filter (· < s.rows.size) }

end Sorter

end QueryMachine
