import DeskCalc.Proofs.Memory

/-!
# Syntax trees

The grammar as a family of trees, one level of precedence for each production:

```
expression := term | expression ('+' | '-') term
term       := factor | term ('*' | '/' | '%') factor
factor     := power | ('+' | '-') factor
power      := primary | primary '^' factor
primary    := NUMBER | NAME | NAME '=' expression | '(' expression ')'
            | FUNCTION '(' [expression [',' expression]] ')' | FUNCTION '=' expression
sentence   := NAME '=' expression | FUNCTION '=' expression | expression
```

* `Tree`, `Sentence` — the trees. Besides those of the grammar there are trees of what is not
  finished: a call or a parenthesis that is not closed, or nothing at all where a primary has to be.
  `Tree.Complete` excludes them, so the complete trees are the derivations of the grammar.
* `Tree.yield` — the tokens that a tree stands for.
* `Tree.evaluate` — the value of a tree, found from left to right and from the leaves up, with what
  that does to a memory. It knows nothing of tokens.
* `Tree.Greedy` — every assignment in the tree extends as far to the right as it can.
-/

namespace DeskCalc

/-- The levels of the grammar, from the loosest operators to the tightest. -/
inductive Level where
  | expression
  | term
  | factor
  | power
  | primary

/-- The token of an operator. -/
def Operator.mark : Operator → TokenKind
  | .plus => .plus
  | .minus => .minus
  | .times => .asterisk
  | .over => .slash
  | .modulo => .percent

/-- The trees of a level of the grammar. Names are known by their places in the table. -/
inductive Tree (α : Type) : Level → Type where
  | term (t : Tree α .term) : Tree α .expression
  | sum (left : Tree α .expression) (op : Operator) (hop : Operator.additive? op.mark = some op)
      (right : Tree α .term) : Tree α .expression
  | factor (f : Tree α .factor) : Tree α .term
  | product (left : Tree α .term) (op : Operator)
      (hop : Operator.multiplicative? op.mark = some op) (right : Tree α .factor) : Tree α .term
  | power (p : Tree α .power) : Tree α .factor
  | sign (negative : Bool) (operand : Tree α .factor) : Tree α .factor
  | primary (p : Tree α .primary) : Tree α .power
  | raise (base : Tree α .primary) (exponent : Tree α .factor) : Tree α .power
  | number (value : α) : Tree α .primary
  | name (index : Nat) : Tree α .primary
  | assign (kind : TokenKind) (hkind : kind.isName = true) (index : Nat)
      (right : Tree α .expression) : Tree α .primary
  | paren (inner : Tree α .expression) (closed : Bool) : Tree α .primary
  | nullary (index : Nat) (closed : Bool) : Tree α .primary
  | unary (index : Nat) (x : Tree α .expression) (closed : Bool) : Tree α .primary
  | binary (index : Nat) (x y : Tree α .expression) (closed : Bool) : Tree α .primary
  /-- A call that breaks off before its second argument. -/
  | halfBinary (index : Nat) (x : Tree α .expression) : Tree α .primary
  /-- The name of a function without arguments and without a value assigned to it. -/
  | function (kind : TokenKind) (hkind : kind.arity?.isSome = true) (index : Nat) : Tree α .primary
  /-- Nothing where a primary has to be. -/
  | missing : Tree α .primary

/-- The trees of a statement. -/
inductive Sentence (α : Type) where
  | assignment (kind : TokenKind) (hkind : kind.isName = true) (index : Nat)
      (right : Tree α .expression)
  | expression (t : Tree α .expression)

variable {α : Type}

/-! ## Yields -/

/-- The parenthesis at the end, if it is there. -/
def closing (closed : Bool) : List (Content α) := if closed then [.mark .rightParen] else []

/-- The sign as a token. -/
def signMark (negative : Bool) : TokenKind := if negative then .minus else .plus

namespace Tree

/-- The tokens that the tree stands for. -/
def yield : {l : Level} → Tree α l → List (Content α)
  | _, .term t => t.yield
  | _, .sum left op _ right => left.yield ++ .mark op.mark :: right.yield
  | _, .factor f => f.yield
  | _, .product left op _ right => left.yield ++ .mark op.mark :: right.yield
  | _, .power p => p.yield
  | _, .sign negative operand => .mark (signMark negative) :: operand.yield
  | _, .primary p => p.yield
  | _, .raise base exponent => base.yield ++ .mark .caret :: exponent.yield
  | _, .number value => [(.number, .number value)]
  | _, .name index => [(.name, .symbol index)]
  | _, .assign kind _ index right => (kind, .symbol index) :: .mark .equals :: right.yield
  | _, .paren inner closed => .mark .leftParen :: (inner.yield ++ closing closed)
  | _, .nullary index closed => (.nullary, .symbol index) :: .mark .leftParen :: closing closed
  | _, .unary index x closed =>
    (.unary, .symbol index) :: .mark .leftParen :: (x.yield ++ closing closed)
  | _, .binary index x y closed =>
    (.binary, .symbol index) :: .mark .leftParen ::
      (x.yield ++ .mark .comma :: (y.yield ++ closing closed))
  | _, .halfBinary index x => (.binary, .symbol index) :: .mark .leftParen :: x.yield
  | _, .function kind _ index => [(kind, .symbol index)]
  | _, .missing => []

/-- Nothing is missing in the tree. -/
def Complete : {l : Level} → Tree α l → Prop
  | _, .term t => t.Complete
  | _, .sum left _ _ right => left.Complete ∧ right.Complete
  | _, .factor f => f.Complete
  | _, .product left _ _ right => left.Complete ∧ right.Complete
  | _, .power p => p.Complete
  | _, .sign _ operand => operand.Complete
  | _, .primary p => p.Complete
  | _, .raise base exponent => base.Complete ∧ exponent.Complete
  | _, .number _ => True
  | _, .name _ => True
  | _, .assign _ _ _ right => right.Complete
  | _, .paren inner closed => inner.Complete ∧ closed = true
  | _, .nullary _ closed => closed = true
  | _, .unary _ x closed => x.Complete ∧ closed = true
  | _, .binary _ x y closed => x.Complete ∧ y.Complete ∧ closed = true
  | _, .halfBinary _ _ => False
  | _, .function _ _ _ => False
  | _, .missing => False

/-! ## Greedy trees -/

/-- Is the last part of the tree an assignment? An operator behind it belongs to that then. -/
def endsInAssignment : {l : Level} → Tree α l → Bool
  | _, .term t => t.endsInAssignment
  | _, .sum _ _ _ right => right.endsInAssignment
  | _, .factor f => f.endsInAssignment
  | _, .product _ _ _ right => right.endsInAssignment
  | _, .power p => p.endsInAssignment
  | _, .sign _ operand => operand.endsInAssignment
  | _, .primary p => p.endsInAssignment
  | _, .raise _ exponent => exponent.endsInAssignment
  | _, .assign _ _ _ _ => true
  | _, _ => false

/-- Is the first part of the tree an assignment? -/
def startsWithAssignment : {l : Level} → Tree α l → Bool
  | _, .term t => t.startsWithAssignment
  | _, .sum left _ _ _ => left.startsWithAssignment
  | _, .factor f => f.startsWithAssignment
  | _, .product left _ _ _ => left.startsWithAssignment
  | _, .power p => p.startsWithAssignment
  | _, .primary p => p.startsWithAssignment
  | _, .raise base _ => base.startsWithAssignment
  | _, .assign _ _ _ _ => true
  | _, _ => false

/-- No operator stands behind an assignment, so each extends as far to the right as it can. -/
def Greedy : {l : Level} → Tree α l → Prop
  | _, .term t => t.Greedy
  | _, .sum left _ _ right => left.Greedy ∧ left.endsInAssignment = false ∧ right.Greedy
  | _, .factor f => f.Greedy
  | _, .product left _ _ right => left.Greedy ∧ left.endsInAssignment = false ∧ right.Greedy
  | _, .power p => p.Greedy
  | _, .sign _ operand => operand.Greedy
  | _, .primary p => p.Greedy
  | _, .raise base exponent => base.Greedy ∧ base.endsInAssignment = false ∧ exponent.Greedy
  | _, .assign _ _ _ right => right.Greedy
  | _, .paren inner _ => inner.Greedy
  | _, .unary _ x _ => x.Greedy
  | _, .binary _ x y _ => x.Greedy ∧ y.Greedy
  | _, .halfBinary _ x => x.Greedy
  | _, .number _ | _, .name _ | _, .nullary _ _ | _, .function _ _ _ | _, .missing => True

end Tree

namespace Sentence

/-- The tokens that the sentence stands for. -/
def yield : Sentence α → List (Content α)
  | .assignment kind _ index right => (kind, .symbol index) :: .mark .equals :: right.yield
  | .expression t => t.yield

def Complete : Sentence α → Prop
  | .assignment _ _ _ right => right.Complete
  | .expression t => t.Complete

/-- Assignments extend as far as they can, and what starts with an assignment is an assignment. -/
def Greedy : Sentence α → Prop
  | .assignment _ _ _ right => right.Greedy
  | .expression t => t.Greedy ∧ t.startsWithAssignment = false

end Sentence

/-! ## Evaluation of trees -/

variable [Arithmetic α]

/-- Ends a call: without the parenthesis at its end it has no value. -/
def Memory.finishCall (closed : Bool) (index : Nat) (arguments : List α) (m : Memory α) :
    α × Memory α :=
  if closed then m.apply index arguments else m.fail (.expected ")")

/-- The value of the tree, and the memory when it has been found. -/
def Tree.evaluate : {l : Level} → Tree α l → Memory α → α × Memory α
  | _, .term t, m => t.evaluate m
  | _, .sum left op _ right, m =>
    let r := left.evaluate m
    let r' := right.evaluate r.2
    r'.2.operate op r.1 r'.1
  | _, .factor f, m => f.evaluate m
  | _, .product left op _ right, m =>
    let r := left.evaluate m
    let r' := right.evaluate r.2
    r'.2.operate op r.1 r'.1
  | _, .power p, m => p.evaluate m
  | _, .sign negative operand, m =>
    let r := operand.evaluate m
    (if negative then -r.1 else r.1, r.2)
  | _, .primary p, m => p.evaluate m
  | _, .raise base exponent, m =>
    let r := base.evaluate m
    let r' := exponent.evaluate r.2
    r'.2.checked (Arithmetic.power r.1 r'.1)
  | _, .number value, m => (value, m)
  | _, .name index, m => m.read index
  | _, .assign _ _ index right, m =>
    let r := right.evaluate m
    r.2.assign index r.1
  | _, .paren inner closed, m =>
    let r := inner.evaluate m
    (r.1, if closed then r.2 else r.2.report (.expected ")"))
  | _, .nullary index closed, m => m.finishCall closed index []
  | _, .unary index x closed, m =>
    let r := x.evaluate m
    r.2.finishCall closed index [r.1]
  | _, .binary index x y closed, m =>
    let r := x.evaluate m
    let r' := y.evaluate r.2
    r'.2.finishCall closed index [r.1, r'.1]
  | _, .halfBinary _ x, m => (x.evaluate m).2.fail (.expected ",")
  | _, .function _ _ _, m => m.fail (.expected "(")
  | _, .missing, m => m.fail .primaryExpected

/-- The statement that a sentence comes to. The value of an expression is the last result then. -/
def Sentence.evaluate (t : Sentence α) (m : Memory α) : Statement α × Memory α :=
  match t with
  | .assignment _ _ index right =>
    let r := right.evaluate m
    let r' := r.2.assign index r.1
    (.assignment r'.1, r'.2)
  | .expression t =>
    let r := t.evaluate m
    (.expression r.1, r.2.remember r.1)

end DeskCalc
