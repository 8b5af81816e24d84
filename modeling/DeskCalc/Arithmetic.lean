/-!
# Arithmetic: what the calculator asks of its numbers

The evaluator never looks inside a number. Everything it does with one is an operation of the class
`Arithmetic`, so its definitions read the same for every interpretation of the operations; the one
that runs is that of the double-precision numbers (`DeskCalc.Double.Checked`).

* `MathError`: why a checked function has no value to give;
* `BuiltIn`: the functions that have a name from the start, and their arities;
* `Arithmetic`: the operations;
* `Draws`: a supply of random numbers, drawn one after another.
-/

namespace DeskCalc

/-- The reason why a checked function has no value to give. -/
inductive MathError where
  /-- The argument lies outside the domain of the function. -/
  | domain
  /-- The argument is a pole, or the result is too large or too small to be represented. -/
  | range
  deriving DecidableEq

def MathError.message : MathError → String
  | .domain => "argument out of domain"
  | .range => "result out of range"

inductive UnaryFunction where
  | sin
  | cos
  | atan
  | log
  | log10
  | exp
  | sqrt
  | int
  | abs
  deriving DecidableEq

inductive BuiltIn where
  /-- The next random number, at least zero and below one. -/
  | rand
  | unary (f : UnaryFunction)
  /-- The angle of the point whose second coordinate is the first argument. -/
  | atan2
  deriving DecidableEq

def BuiltIn.arity : BuiltIn → Nat
  | .rand => 0
  | .unary _ => 1
  | .atan2 => 2

/-- The operations on numbers. Those that may fail answer with the reason. -/
class Arithmetic (α : Type) extends Add α, Sub α, Mul α, Div α, Mod α, Neg α where
  /-- The value of whatever could not be evaluated. -/
  nan : α
  isZero : α → Bool
  /-- The number that stands for `m · 10 ^ e`. -/
  ofDecimal (m : Nat) (e : Int) : α
  power (base exponent : α) : Except MathError α
  unary (f : UnaryFunction) (x : α) : Except MathError α
  /-- The angle of the point `(x, y)`. -/
  atan2 (y x : α) : Except MathError α
  format : α → String

/-- A supply of random numbers: the `n`-th draw, and how many have been taken. -/
structure Draws (α : Type) where
  draw : Nat → α
  taken : Nat := 0

namespace Draws

variable {α : Type}

def next (d : Draws α) : α × Draws α :=
  (d.draw d.taken, { d with taken := d.taken + 1 })

@[simp] theorem fst_next (d : Draws α) : d.next.1 = d.draw d.taken := rfl

@[simp] theorem draw_next (d : Draws α) : d.next.2.draw = d.draw := rfl

@[simp] theorem taken_next (d : Draws α) : d.next.2.taken = d.taken + 1 := rfl

end Draws

end DeskCalc
