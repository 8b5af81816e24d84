import DeskCalc.Arithmetic
import DeskCalc.Double.Decimal

/-!
# Checked functions on doubles

The transcendental functions come from a mathematical library, which is a value here: a record
`Libm` of functions from doubles to doubles. On top of it stand the functions the calculator offers.
They refuse arguments outside their domain and finite computations that leave the range of doubles,
and let everything that is not a number through.

* `Libm`: the functions of a mathematical library, and `Libm.platform`, the one that runs;
* `rangeChecked`: what makes a result a range error;
* `Libm.unary`, `Libm.power`: the checked functions;
* `Libm.arithmetic`: doubles as an interpretation of `Arithmetic`.
-/

namespace DeskCalc.Double

structure Libm where
  log : Float → Float
  log10 : Float → Float
  exp : Float → Float
  sin : Float → Float
  cos : Float → Float
  atan : Float → Float
  atan2 : Float → Float → Float
  pow : Float → Float → Float

def Libm.platform : Libm where
  log := Float.log
  log10 := Float.log10
  exp := Float.exp
  sin := Float.sin
  cos := Float.cos
  atan := Float.atan
  atan2 := Float.atan2
  pow := Float.pow

/--
The result of a computation, unless it had finite arguments and became infinite, or, where the
exact result is not zero, became zero.
-/
def rangeChecked (finiteArguments nonzero : Bool) (result : Float) : Except MathError Float :=
  if finiteArguments && (result.isInf || (nonzero && result == 0)) then .error .range
  else .ok result

/-- A logarithm: it has no value at negative numbers and a pole at zero. -/
def checkedLog (log : Float → Float) (x : Float) : Except MathError Float :=
  if x < 0 then .error .domain
  else if x == 0 then .error .range
  else .ok (log x)

def checkedSqrt (x : Float) : Except MathError Float :=
  if x < 0 then .error .domain else .ok x.sqrt

namespace Libm

def unary (lib : Libm) : UnaryFunction → Float → Except MathError Float
  | .sin, x => .ok (lib.sin x)
  | .cos, x => .ok (lib.cos x)
  | .atan, x => .ok (lib.atan x)
  | .log, x => checkedLog lib.log x
  | .log10, x => checkedLog lib.log10 x
  | .exp, x => rangeChecked x.isFinite true (lib.exp x)
  | .sqrt, x => checkedSqrt x
  | .int, x => .ok (trunc x)
  | .abs, x => .ok x.abs

/--
A power. A finite negative base has no real power with a finite exponent that is not an integer,
and zero has a pole at negative exponents.
-/
def power (lib : Libm) (base exponent : Float) : Except MathError Float :=
  if base < 0 ∧ base.isFinite ∧ exponent.isFinite ∧ !isIntegral exponent then .error .domain
  else if base == 0 ∧ exponent < 0 then .error .range
  else rangeChecked (base.isFinite && exponent.isFinite) (base != 0) (lib.pow base exponent)

/-- Doubles with the functions of the given library. -/
@[reducible] def arithmetic (lib : Libm) : Arithmetic Float where
  mod := remainder
  nan := nan
  isZero x := x == 0
  ofDecimal := ofDecimal
  power := lib.power
  unary := lib.unary
  atan2 y x := .ok (lib.atan2 y x)
  format := format

end Libm

instance : Arithmetic Float := Libm.platform.arithmetic

/-!
### Random doubles

The `n`-th draw of a seed comes from the word `seed + (n + 1) · γ`, whose bits are mixed until each
depends on all of them; its upper 53 bits count the steps of `2 ^ -53` above zero.
-/

def mixBits (z : UInt64) : UInt64 :=
  let z := (z ^^^ (z >>> 30)) * 0xbf58476d1ce4e5b9
  let z := (z ^^^ (z >>> 27)) * 0x94d049bb133111eb
  z ^^^ (z >>> 31)

/-- The `n`-th random double of a seed, at least zero and below one. -/
def random (seed : UInt64) (n : Nat) : Float :=
  let steps := (mixBits (seed + (UInt64.ofNat n + 1) * 0x9e3779b97f4a7c15) >>> 11).toNat
  ofMagnitude false (nearestBits steps (Nat.pow 2 53))

/-- The random numbers of a seed, none taken yet. -/
def draws (seed : UInt64) : Draws Float where
  draw := random seed

end DeskCalc.Double
