import DeskCalc.Text.Ranges

/-!
# Blank characters

The characters with the Unicode property `White_Space`.
-/

namespace DeskCalc.Text

/-- The ranges of code points with the property `White_Space`, first and last. -/
def blankRanges : List (Nat × Nat) :=
  [(0x09, 0x0d), (0x20, 0x20), (0x85, 0x85), (0xa0, 0xa0), (0x1680, 0x1680), (0x2000, 0x200a),
    (0x2028, 0x2029), (0x202f, 0x202f), (0x205f, 0x205f), (0x3000, 0x3000)]

/-- Is the character blank? -/
def isBlank (c : Char) : Bool := inRanges blankRanges c

example : (blankRanges.map fun (first, last) => last + 1 - first).sum = 25 := by decide

end DeskCalc.Text
