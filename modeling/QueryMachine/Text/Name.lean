/-!
# Names

Tables, columns, indexes and functions are found by name without regard to the case of the
letters A to Z; every other character counts as written.
-/

namespace QueryMachine.Text

/-- The name with A to Z made small. -/
def foldCase (name : String) : List Char := name.toList.map Char.toLower

def sameName (a b : String) : Bool := foldCase a == foldCase b

/-- Whether `part` stands somewhere in `whole`. -/
def occursIn (part : List Char) : List Char → Bool
  | [] => part.isEmpty
  | c :: rest => part.isPrefixOf (c :: rest) || occursIn part rest

end QueryMachine.Text
