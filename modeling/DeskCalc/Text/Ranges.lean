/-!
# Ranges of code points

Properties of characters are tables of ranges of code points, each given by its first and its last.
-/

namespace DeskCalc.Text

/-- Is the character in one of the ranges? -/
def inRanges (ranges : List (Nat × Nat)) (c : Char) : Bool :=
  ranges.any fun (first, last) => first ≤ c.toNat && c.toNat ≤ last

end DeskCalc.Text
