/-!
# Doubles as exact fractions

A finite double is `± m · 2 ^ q` with natural `m`. This module reads `m` and `q` off the bits,
finds the bits nearest to a fraction of natural numbers, and with these two does exactly what needs
no rounding at all: the integral part and the remainder of a division.

The bits of a magnitude (the sign bit taken off) are ordered as the magnitudes are, and below
`infinityBits` neighbouring magnitudes have neighbouring bits. So `nearestBits` rounds to an integer
number of steps and never treats a carry into the next power of two as a case of its own.

Powers are written as `Nat.pow`, so that they are the same ones whatever else is imported.
-/

namespace DeskCalc.Double

/-- The magnitude bits of infinity; smaller bits are those of finite magnitudes. -/
def infinityBits : Nat := 0x7ff * Nat.pow 2 52

def magnitudeBits (x : Float) : Nat := x.toBits.toNat % Nat.pow 2 63

/-- Is the sign bit set? Zero has a sign too. -/
def isNegative (x : Float) : Bool := Nat.pow 2 63 ≤ x.toBits.toNat

/-- The `m` of the finite magnitude `m · 2 ^ q` with the given bits. -/
def significand (bits : Nat) : Nat :=
  if bits < Nat.pow 2 53 then bits else Nat.pow 2 52 + bits % Nat.pow 2 52

/-- The `q` of the finite magnitude `m · 2 ^ q` with the given bits. -/
def binaryExponent (bits : Nat) : Int :=
  if bits < Nat.pow 2 53 then -1074 else (bits / Nat.pow 2 52 : Nat) - 1075

def ofMagnitude (negative : Bool) (bits : Nat) : Float :=
  Float.ofBits (UInt64.ofNat (if negative then Nat.pow 2 63 + bits else bits))

/-- The natural number nearest to `num / den`; a tie goes to the even one. -/
def roundDiv (num den : Nat) : Nat :=
  let floor := num / den
  let rest := num % den
  if 2 * rest < den then floor
  else if den < 2 * rest then floor + 1
  else floor + floor % 2

/-- `num / den` divided by `2 ^ q`, as a fraction again. -/
def scaleDown (num den : Nat) (q : Int) : Nat × Nat :=
  if 0 ≤ q then (num, den * Nat.pow 2 q.toNat) else (num * Nat.pow 2 (-q).toNat, den)

/-- The greatest `e` with `2 ^ e ≤ num / den`, for a positive fraction. -/
def floorLog2 (num den : Nat) : Int :=
  let e : Int := (num.log2 : Int) - den.log2
  let (n, d) := scaleDown num den e
  if d ≤ n then e else e - 1

/--
The bits of the magnitude nearest to `num / den`; a tie goes to the even significand, and what is
too large becomes infinity. One unit in the last place of the result is `2 ^ q`, and `q` is never
below `-1074`.
-/
def nearestBits (num den : Nat) : Nat :=
  if num = 0 then 0
  else
    let q := max (-1074) (floorLog2 num den - 52)
    let (n, d) := scaleDown num den q
    min infinityBits (roundDiv n d + (q + 1074).toNat * Nat.pow 2 52)

/-- The magnitude with the given finite bits, as a fraction. -/
def fraction (bits : Nat) : Nat × Nat :=
  let m := significand bits
  let q := binaryExponent bits
  if 0 ≤ q then (m * Nat.pow 2 q.toNat, 1) else (m, Nat.pow 2 (-q).toNat)

def nan : Float := Float.ofBits 0x7ff8000000000000

def isIntegral (x : Float) : Bool :=
  let (num, den) := fraction (magnitudeBits x)
  num % den == 0

/-- The integral part, with the sign of the argument even where it is zero. -/
def trunc (x : Float) : Float :=
  if x.isFinite then
    let (num, den) := fraction (magnitudeBits x)
    ofMagnitude (isNegative x) (nearestBits (num / den) 1)
  else x

/--
What is left of `x` after taking away `y` as often as it fits, exact and with the sign of `x`.
Over a common denominator this is the remainder of natural numbers.
-/
def remainder (x y : Float) : Float :=
  if x.isNaN || y.isNaN || x.isInf || y == 0 then nan
  else if y.isInf then x
  else
    let (num, den) := fraction (magnitudeBits x)
    let (num', den') := fraction (magnitudeBits y)
    ofMagnitude (isNegative x) (nearestBits ((num * den') % (num' * den)) (den * den'))

end DeskCalc.Double
