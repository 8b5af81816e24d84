import DeskCalc.Arithmetic

/-!
# Problems

Everything that can be wrong with an input. A problem never stops the calculator: it is reported, and
the value of whatever has it is not a number.
-/

namespace DeskCalc

inductive SymbolError where
  | invalidIndex (index length : Nat)
  /-- The symbol is a constant or a built-in function. -/
  | immutable (name : String)
  deriving DecidableEq

def SymbolError.message : SymbolError → String
  | .invalidIndex index length => s!"invalid symbol index {index} (table length {length})"
  | .immutable name => s!"cannot modify constant/built-in '{name}'"

/-- What can be wrong with an input. -/
inductive Problem where
  /-- A character that belongs to no token. -/
  | badToken (c : Char)
  /-- A numeral without a digit in front of its exponent. -/
  | badNumber (text : String)
  /-- A token that has to come next and does not. -/
  | expected (token : String)
  /-- A token that no operand starts with. -/
  | primaryExpected
  /-- A token behind a complete statement. -/
  | unexpectedToken (token : String)
  /-- A name that was read before it was assigned. -/
  | undefinedVariable (name : String)
  | symbol (error : SymbolError)
  | divideByZero
  | math (error : MathError)
  | input (message : String)
  deriving DecidableEq

inductive ProblemKind where
  | lexical
  | syntactic
  | semantic
  | math
  | input
  deriving DecidableEq

/-- How reports speak of a kind of problems. -/
def ProblemKind.name : ProblemKind → String
  | .lexical => "Lexical"
  | .syntactic => "Syntax"
  | .semantic => "Semantic"
  | .math => "Math"
  | .input => "Input"

namespace Problem

def message : Problem → String
  | .badToken c => s!"bad token '{c}'"
  | .badNumber text => s!"bad number '{text}'"
  | .expected token => s!"'{token}' expected"
  | .primaryExpected => "primary expected"
  | .unexpectedToken token => s!"unexpected token '{token}'"
  | .undefinedVariable name => s!"undefined variable '{name}'"
  | .symbol error => error.message
  | .divideByZero => "divide by 0"
  | .math error => error.message
  | .input message => s!"input error: {message}"

def kind : Problem → ProblemKind
  | .badToken _ | .badNumber _ => .lexical
  | .expected _ | .primaryExpected | .unexpectedToken _ => .syntactic
  | .undefinedVariable _ | .symbol _ => .semantic
  | .divideByZero | .math _ => .math
  | .input _ => .input

/--
Can evaluating what was read come upon the problem? The others come up when the input is read or
when a statement is concluded.
-/
def ofEvaluation : Problem → Bool
  | .expected _ | .primaryExpected | .undefinedVariable _ | .symbol _ | .divideByZero | .math _ =>
    true
  | .badToken _ | .badNumber _ | .unexpectedToken _ | .input _ => false

end Problem

end DeskCalc
