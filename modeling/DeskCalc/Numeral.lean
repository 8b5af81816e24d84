/-!
# Numerals

A numeral is what a number looks like in the input: digits, perhaps a point with more digits, perhaps
an exponent. `Numeral.split` takes the longest numeral off the front of a text. The letter `e` opens
an exponent only where a digit follows it, directly or after a sign; otherwise it is left for
whatever comes next.
-/

namespace DeskCalc

/-- The exponent of a numeral as it is written: the letter, the sign if there is one, the digits. -/
structure ExponentPart where
  letter : Char
  sign : Option Char
  digits : List Char
  deriving DecidableEq

structure Numeral where
  /-- The digits in front of the point. -/
  whole : List Char
  /-- The digits behind the point, if there is a point. -/
  fraction : Option (List Char)
  exponent : Option ExponentPart
  deriving DecidableEq

namespace ExponentPart

def chars (e : ExponentPart) : List Char := e.letter :: (e.sign.toList ++ e.digits)

def value (e : ExponentPart) : Int :=
  let n := Nat.ofDigitChars 10 e.digits 0
  if e.sign = some '-' then -n else n

/-- The sign at the front of a text, if there is one, and the rest. -/
def splitSign : List Char → Option Char × List Char
  | c :: cs => if c = '+' ∨ c = '-' then (some c, cs) else (none, c :: cs)
  | [] => (none, [])

/-- The exponent at the front of a text, if there is one, and the rest. -/
def split : List Char → Option ExponentPart × List Char
  | [] => (none, [])
  | c :: cs =>
    let (sign, rest) := splitSign cs
    let digits := rest.takeWhile Char.isDigit
    if (c = 'e' ∨ c = 'E') ∧ digits ≠ [] then
      (some ⟨c, sign, digits⟩, rest.dropWhile Char.isDigit)
    else (none, c :: cs)

theorem splitSign_append (cs : List Char) : (splitSign cs).1.toList ++ (splitSign cs).2 = cs := by
  unfold splitSign
  split
  · split <;> simp
  · rfl

/-- Splitting off an exponent loses nothing. -/
theorem split_append (cs : List Char) :
    ((split cs).1.elim [] chars) ++ (split cs).2 = cs := by
  unfold split
  split
  · rfl
  · next c cs =>
    -- an exponent letter without digits behind its sign is no exponent, and nothing is taken
    have h := splitSign_append cs
    simp only
    split
    · simp [chars, List.takeWhile_append_dropWhile, h]
    · simp

end ExponentPart

namespace Numeral

def chars (n : Numeral) : List Char :=
  n.whole ++ n.fraction.elim [] ('.' :: ·) ++ n.exponent.elim [] ExponentPart.chars

/-- The digits of the numeral in front of its exponent. -/
def digits (n : Numeral) : List Char := n.whole ++ n.fraction.getD []

/--
The value `m · 10 ^ e` of the numeral, as the pair of `m` and `e`. A numeral needs a digit on either
side of its point to have one.
-/
def value? (n : Numeral) : Option (Nat × Int) :=
  if n.digits = [] then none
  else
    let places : Int := (n.fraction.getD []).length
    some (Nat.ofDigitChars 10 n.digits 0, (n.exponent.elim 0 ExponentPart.value) - places)

/-- Can a numeral start with this character? -/
def startsWith (c : Char) : Bool := c.isDigit || c == '.'

/-- The point and the digits behind it at the front of a text, if there is a point, and the rest. -/
def splitFraction : List Char → Option (List Char) × List Char
  | '.' :: cs => (some (cs.takeWhile Char.isDigit), cs.dropWhile Char.isDigit)
  | cs => (none, cs)

/-- The longest numeral at the front of a text, and the rest. -/
def split (cs : List Char) : Numeral × List Char :=
  let whole := cs.takeWhile Char.isDigit
  let (fraction, rest) := splitFraction (cs.dropWhile Char.isDigit)
  let (exponent, rest) := ExponentPart.split rest
  (⟨whole, fraction, exponent⟩, rest)

theorem splitFraction_append (cs : List Char) :
    ((splitFraction cs).1.elim [] ('.' :: ·)) ++ (splitFraction cs).2 = cs := by
  unfold splitFraction
  split
  · simp [List.takeWhile_append_dropWhile]
  · rfl

/-- A numeral and what is behind it are the text that was split. -/
theorem split_append (cs : List Char) : (split cs).1.chars ++ (split cs).2 = cs := by
  have h₁ := splitFraction_append (cs.dropWhile Char.isDigit)
  have h₂ := ExponentPart.split_append (splitFraction (cs.dropWhile Char.isDigit)).2
  simp only [split, chars, List.append_assoc]
  rw [h₂, h₁, List.takeWhile_append_dropWhile]

/-- Where a numeral can start, one of at least one character is split off. -/
theorem split_length_lt {c : Char} (cs : List Char) (h : startsWith c = true) :
    (split (c :: cs)).2.length < (c :: cs).length := by
  have happ := congrArg List.length (split_append (c :: cs))
  suffices 0 < (split (c :: cs)).1.chars.length by simp at happ ⊢; omega
  -- the first character is a digit of the whole part, or it is the point
  by_cases hd : c.isDigit = true
  · simp [split, chars, hd]
  · have : c = '.' := by simpa [startsWith, hd] using h
    subst this
    simp [split, chars, splitFraction, Char.isDigit]

end Numeral

end DeskCalc
