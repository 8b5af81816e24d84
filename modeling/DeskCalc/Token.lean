/-!
# Tokens

A token is a kind, what comes with it, and the line it was read on. The kind alone decides the
grammar; names are told apart by what the symbol table knew of them when they were read.
-/

namespace DeskCalc

inductive TokenKind where
  | finish
  | endOfStatement
  | number
  /-- A name that is no built-in function. -/
  | name
  /-- The name of a built-in function without arguments. -/
  | nullary
  /-- The name of a built-in function of one argument. -/
  | unary
  /-- The name of a built-in function of two arguments. -/
  | binary
  | plus
  | minus
  | asterisk
  | slash
  | percent
  | caret
  | equals
  | comma
  | leftParen
  | rightParen
  deriving DecidableEq

namespace TokenKind

/-- The kind of a character that is a token by itself. -/
def ofChar? : Char → Option TokenKind
  | '+' => some .plus
  | '-' => some .minus
  | '*' => some .asterisk
  | '/' => some .slash
  | '%' => some .percent
  | '^' => some .caret
  | '=' => some .equals
  | ',' => some .comma
  | '(' => some .leftParen
  | ')' => some .rightParen
  | ';' => some .endOfStatement
  | _ => none

/-- How messages speak of a kind. -/
def text : TokenKind → String
  | .finish => "end of input"
  | .endOfStatement => "end of statement"
  | .number => "number"
  | .name => "name"
  | .nullary | .unary | .binary => "built-in"
  | .plus => "+"
  | .minus => "-"
  | .asterisk => "*"
  | .slash => "/"
  | .percent => "%"
  | .caret => "^"
  | .equals => "="
  | .comma => ","
  | .leftParen => "("
  | .rightParen => ")"

def endsStatement : TokenKind → Bool
  | .finish | .endOfStatement => true
  | _ => false

/-- The number of arguments that a token of this kind calls for, if it names a built-in function. -/
def arity? : TokenKind → Option Nat
  | .nullary => some 0
  | .unary => some 1
  | .binary => some 2
  | _ => none

def isName (k : TokenKind) : Bool := k == .name || k.arity?.isSome

/-- The kind of a name, given the arity of the built-in function that it names, if it does. -/
def ofArity? : Option Nat → TokenKind
  | none => .name
  | some 0 => .nullary
  | some 1 => .unary
  | some _ => .binary

/-- Messages speak of different kinds in different ways, the built-in functions apart. -/
theorem text_eq_iff {k k' : TokenKind} :
    k.text = k'.text ↔ k = k' ∨ k.arity?.isSome = true ∧ k'.arity?.isSome = true := by
  cases k <;> cases k' <;> decide

/-- No name ends a statement. -/
theorem endsStatement_eq_false_of_isName {k : TokenKind} (h : k.isName = true) :
    k.endsStatement = false := by
  cases k <;> simp_all [isName, arity?, endsStatement]

theorem isName_ofArity? (arity : Option Nat) : (ofArity? arity).isName = true := by
  unfold ofArity?; split <;> rfl

end TokenKind

inductive Payload (α : Type) where
  | none
  /-- The place of a name in the symbol table. -/
  | symbol (index : Nat)
  | number (value : α)
  deriving DecidableEq

/-- A token with the line it was read on, counted from one. -/
structure Token (α : Type) where
  kind : TokenKind
  payload : Payload α
  line : Nat

namespace Token

variable {α : Type}

def bare (kind : TokenKind) (line : Nat) : Token α := ⟨kind, .none, line⟩

def symbol? (t : Token α) : Option Nat :=
  match t.payload with
  | .symbol index => some index
  | _ => none

def number? (t : Token α) : Option α :=
  match t.payload with
  | .number value => some value
  | _ => none

end Token

end DeskCalc
