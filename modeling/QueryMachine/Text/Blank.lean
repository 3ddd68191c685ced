/-!
# Blank characters

The code points with the Unicode property White_Space, and trimming by it.
-/

namespace QueryMachine.Text

/-- The code points of the White_Space property, as inclusive ranges in ascending order. -/
def blankRanges : List (Nat × Nat) :=
  [(0x09, 0x0D), (0x20, 0x20), (0x85, 0x85), (0xA0, 0xA0), (0x1680, 0x1680), (0x2000, 0x200A),
   (0x2028, 0x2029), (0x202F, 0x202F), (0x205F, 0x205F), (0x3000, 0x3000)]

def isBlank (c : Char) : Bool := blankRanges.any fun range => range.1 ≤ c.toNat && c.toNat ≤ range.2

def trim (s : String) : List Char :=
  ((s.toList.dropWhile isBlank).reverse.dropWhile isBlank).reverse

end QueryMachine.Text
