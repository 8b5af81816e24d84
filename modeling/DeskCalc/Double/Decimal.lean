import DeskCalc.Double.Basic

/-!
# Doubles in decimal

Reading takes the double nearest to a decimal. Writing chooses the decimal with the fewest digits
that reads back as the same double, of several such the one nearest to it, and writes it out in full,
without an exponent.

* `decimalBits`, `ofDecimal`: the double nearest to `m · 10 ^ e`;
* `Positional`: a decimal as it is written out, and what it reads back as;
* `readBack?`: whether one of the two neighbours on a decimal grid reads back;
* `shortest`: the chosen decimal;
* `format`: the text of a double.
-/

namespace DeskCalc.Double

/--
Is `m · 10 ^ e` zero, or so small that no other double is as near to it as zero? It is below
`2 ^ (log2 m + 1) · 8 ^ e` where `e` is negative.
-/
def isNegligible (m : Nat) (e : Int) : Bool :=
  m == 0 || (m.log2 : Int) + 1 + 3 * e < -1080

/-- The magnitude bits of the double nearest to `m · 10 ^ e`. -/
def decimalBits (m : Nat) (e : Int) : Nat :=
  if isNegligible m e then 0
  -- beyond all finite doubles, whatever the digits
  else if 400 < e then infinityBits
  else if 0 ≤ e then nearestBits (m * Nat.pow 10 e.toNat) 1
  else nearestBits m (Nat.pow 10 (-e).toNat)

def ofDecimal (m : Nat) (e : Int) : Float := ofMagnitude false (decimalBits m e)

/-- A decimal as it is written out: its digits, and how many of them stand behind the point. -/
structure Positional where
  digits : Nat
  places : Nat
  deriving DecidableEq

namespace Positional

/-- The magnitude bits of the double that the decimal reads back as. -/
def bits (p : Positional) : Nat := decimalBits p.digits (-(p.places : Int))

/-- The decimal with the given digits and places, without zeros at the end of the places. -/
def trim (digits : Nat) : Nat → Positional
  | 0 => ⟨digits, 0⟩
  | places + 1 => if digits % 10 = 0 then trim (digits / 10) places else ⟨digits, places + 1⟩

/-- The decimal `n · 10 ^ k` written out. -/
def ofGrid (n : Nat) (k : Int) : Positional :=
  if 0 ≤ k then ⟨n * Nat.pow 10 k.toNat, 0⟩ else trim n (-k).toNat

/-- The text of the decimal: at least one digit in front of the point, no point without places. -/
def chars (p : Positional) : List Char :=
  let digits := Nat.toDigits 10 p.digits
  let padded := List.replicate (p.places + 1 - digits.length) '0' ++ digits
  let whole := padded.length - p.places
  if p.places = 0 then padded else padded.take whole ++ '.' :: padded.drop whole

end Positional

/-- The greatest `e` with `10 ^ e ≤ num / den`, for a positive fraction. -/
def floorLog10 (num den : Nat) : Int :=
  if den ≤ num then (Nat.toDigits 10 (num / den)).length - 1
  else -(Nat.toDigits 10 ((den - 1) / num)).length

/--
The multiples of `10 ^ k` on either side of the magnitude with the given bits, if they read back as
it: the nearer of the two where both do, and the greater where they are equally near.
-/
def readBack? (bits : Nat) (k : Int) : Option Positional :=
  let (num, den) := fraction bits
  let (n, d) :=
    if 0 ≤ k then (num, den * Nat.pow 10 k.toNat) else (num * Nat.pow 10 (-k).toNat, den)
  let below := Positional.ofGrid (n / d) k
  let above := Positional.ofGrid (n / d + 1) k
  if below.bits = bits ∧ above.bits = bits then
    some (if 2 * (n % d) < d then below else above)
  else if below.bits = bits then some below
  else if above.bits = bits then some above
  else none

/-- The finite magnitude with the given bits, digit for digit. -/
def exactly (bits : Nat) : Positional :=
  let (num, den) := fraction bits
  ⟨num * Nat.pow 5 den.log2, den.log2⟩

/--
The decimal with the fewest digits that reads back as the finite positive magnitude with the given
bits. Seventeen digits are always enough; should they not be, the exact decimal reads back.
-/
def shortest (bits : Nat) : Positional :=
  let top := floorLog10 (fraction bits).1 (fraction bits).2
  let found := (List.range 17).findSome? fun (n : Nat) => readBack? bits (top - n)
  found.getD (exactly bits)

def magnitudeText (bits : Nat) : List Char :=
  if bits = 0 then ['0'] else (shortest bits).chars

def format (x : Float) : String :=
  if x.isNaN then "nan"
  else
    let bits := magnitudeBits x
    let text := if bits = infinityBits then ['i', 'n', 'f'] else magnitudeText bits
    String.ofList (if isNegative x then '-' :: text else text)

end DeskCalc.Double
