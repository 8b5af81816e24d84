import DeskCalc.Evaluation

/-!
# Productions

The grammar, evaluated while it is read:

```
expression := term (('+' | '-') term)*
term       := factor (('*' | '/' | '%') factor)*
factor     := ('+' | '-') factor | power
power      := primary ('^' factor)?
primary    := NUMBER | NAME | NAME '=' expression | call | '(' expression ')'
call       := FUNCTION '(' [expression [',' expression]] ')' | FUNCTION '=' expression
```

A production starts from the current token and leaves the first token behind what it recognised as
the current one. Where something is missing it reports that, gives up what it was recognising and
leaves the offending token alone.

Every production comes with the fact that it gets to its result by elementary moves
(`Evaluation.Reaches`). That is what makes the recursion end: an operand is read only behind a token
that was moved past, and otherwise one production hands over to a tighter one at the same token.
-/

namespace DeskCalc

variable {α : Type} [Arithmetic α]

namespace Production

open Evaluation

/-- A value, and an evaluation that the given one leads to. -/
abbrev Outcome (e : Evaluation α) := { r : α × Evaluation α // Reaches e r.2 }

/-- An outcome behind moves already made. -/
def Outcome.behind {e e' : Evaluation α} (h : Reaches e e') (r : Outcome e') : Outcome e :=
  ⟨r.1, h.trans r.2⟩

mutual

/-- Reads a sum. -/
def expression (e : Evaluation α) : Outcome e :=
  let ⟨(left, e₁), h⟩ := term e
  (expressionRest left e₁).behind h
termination_by 8 * e.ahead + 6
decreasing_by
  · omega
  · have := h.ahead_le; simp only at this; omega

/-- Reads the rest of a sum whose value so far is known. -/
def expressionRest (left : α) (e : Evaluation α) : Outcome e :=
  match ho : Operator.additive? e.current.kind with
  | none => ⟨(left, e), .refl e⟩
  | some op =>
    have moved := Operator.endsStatement_of_additive? ho
    let ⟨(right, e₁), h⟩ := term e.advance
    let next := e₁.operate op left right
    (expressionRest next.1 next.2).behind
      (((reaches_advance moved).trans h).trans (reaches_operate op left right e₁))
termination_by 8 * e.ahead + 5
decreasing_by
  · have := ahead_advance_lt moved; omega
  · have := ahead_advance_lt moved
    have := h.ahead_le
    have := (reaches_operate op left right e₁).ahead_le
    simp only at *
    omega

/-- Reads a product. -/
def term (e : Evaluation α) : Outcome e :=
  let ⟨(left, e₁), h⟩ := factor e
  (termRest left e₁).behind h
termination_by 8 * e.ahead + 4
decreasing_by
  · omega
  · have := h.ahead_le; simp only at this; omega

/-- Reads the rest of a product whose value so far is known. -/
def termRest (left : α) (e : Evaluation α) : Outcome e :=
  match ho : Operator.multiplicative? e.current.kind with
  | none => ⟨(left, e), .refl e⟩
  | some op =>
    have moved := Operator.endsStatement_of_multiplicative? ho
    let ⟨(right, e₁), h⟩ := factor e.advance
    let next := e₁.operate op left right
    (termRest next.1 next.2).behind
      (((reaches_advance moved).trans h).trans (reaches_operate op left right e₁))
termination_by 8 * e.ahead + 3
decreasing_by
  · have := ahead_advance_lt moved; omega
  · have := ahead_advance_lt moved
    have := h.ahead_le
    have := (reaches_operate op left right e₁).ahead_le
    simp only at *
    omega

/-- Reads a power with any number of signs in front of it. -/
def factor (e : Evaluation α) : Outcome e :=
  if hm : e.current.kind = .minus then
    have moved : e.current.kind.endsStatement = false := by rw [hm]; rfl
    let ⟨(value, e₁), h⟩ := factor e.advance
    ⟨(-value, e₁), (reaches_advance moved).trans h⟩
  else if hp : e.current.kind = .plus then
    have moved : e.current.kind.endsStatement = false := by rw [hp]; rfl
    (factor e.advance).behind (reaches_advance moved)
  else power e
termination_by 8 * e.ahead + 2
decreasing_by
  · have := ahead_advance_lt moved; omega
  · have := ahead_advance_lt moved; omega
  · omega

/-- Reads a primary and the exponent it is raised to, if there is one. -/
def power (e : Evaluation α) : Outcome e :=
  let ⟨(base, e₁), h⟩ := primary e
  if hc : e₁.current.kind = .caret then
    have moved : e₁.current.kind.endsStatement = false := by rw [hc]; rfl
    let ⟨(exponent, e₂), h₂⟩ := factor e₁.advance
    ⟨e₂.checked (Arithmetic.power base exponent),
      ((h.trans (reaches_advance moved)).trans h₂).trans (reaches_checked _ e₂)⟩
  else ⟨(base, e₁), h⟩
termination_by 8 * e.ahead + 1
decreasing_by
  · omega
  · have := ahead_advance_lt moved
    have := h.ahead_le
    simp only at this
    omega

/-- Reads a number, a name, a call or a parenthesis. -/
def primary (e : Evaluation α) : Outcome e :=
  if hk : e.current.kind.endsStatement = true then ⟨e.fail .primaryExpected, reaches_fail _ e⟩
  else
    have moved : e.current.kind.endsStatement = false := by simpa using hk
    match e.current.kind with
    | .number => ⟨(e.current.number?.getD Arithmetic.nan, e.advance), reaches_advance moved⟩
    | .name =>
      match e.current.symbol? with
      | none => ⟨e.fail .primaryExpected, reaches_fail _ e⟩
      | some index =>
        if ha : e.advance.current.kind = .equals then
          (assignment index e.advance ha).behind (reaches_advance moved)
        else
          ⟨e.advance.read index, (reaches_advance moved).trans (reaches_read index _)⟩
    | .nullary | .unary | .binary =>
      match e.current.symbol? with
      | none => ⟨e.fail .primaryExpected, reaches_fail _ e⟩
      | some index => (call e.current.kind index e.advance).behind (reaches_advance moved)
    | .leftParen =>
      let ⟨(value, e₁), h⟩ := expression e.advance
      ⟨(value, e₁.close), ((reaches_advance moved).trans h).trans (reaches_close e₁)⟩
    | _ => ⟨e.fail .primaryExpected, reaches_fail _ e⟩
termination_by 8 * e.ahead
decreasing_by
  all_goals have := ahead_advance_lt moved; omega

/-- Reads the right side of an assignment behind the current `=`, and assigns. -/
def assignment (index : Nat) (e : Evaluation α) (he : e.current.kind = .equals) : Outcome e :=
  have moved : e.current.kind.endsStatement = false := by rw [he]; rfl
  let ⟨(value, e₁), h⟩ := expression e.advance
  ⟨e₁.assign index value,
    ((reaches_advance moved).trans h).trans (reaches_assign index value e₁)⟩
termination_by 8 * e.ahead
decreasing_by
  have := ahead_advance_lt moved; omega

/-- Reads what follows the name of a function: its arguments, or a value assigned to it. -/
def call (function : TokenKind) (index : Nat) (e : Evaluation α) : Outcome e :=
  if ha : e.current.kind = .equals then assignment index e ha
  else if hl : e.current.kind = .leftParen then
    have moved : e.current.kind.endsStatement = false := by rw [hl]; rfl
    match function with
    | .nullary =>
      ⟨e.advance.finishCall index [],
        (reaches_advance moved).trans (reaches_finishCall index [] _)⟩
    | .unary =>
      let ⟨(x, e₁), h⟩ := expression e.advance
      ⟨e₁.finishCall index [x],
        ((reaches_advance moved).trans h).trans (reaches_finishCall index [x] e₁)⟩
    | _ =>
      let ⟨(x, e₁), h⟩ := expression e.advance
      if hc : e₁.current.kind = .comma then
        have moved' : e₁.current.kind.endsStatement = false := by rw [hc]; rfl
        let ⟨(y, e₂), h₂⟩ := expression e₁.advance
        ⟨e₂.finishCall index [x, y],
          ((((reaches_advance moved).trans h).trans (reaches_advance moved')).trans h₂).trans
            (reaches_finishCall index [x, y] e₂)⟩
      else
        ⟨e₁.fail (.expected ","), ((reaches_advance moved).trans h).trans (reaches_fail _ e₁)⟩
  else ⟨e.fail (.expected "("), reaches_fail _ e⟩
termination_by 8 * e.ahead + 1
decreasing_by
  · omega
  · have := ahead_advance_lt moved; omega
  · have := ahead_advance_lt moved; omega
  · have := ahead_advance_lt moved
    have := h.ahead_le
    have := ahead_advance_lt moved'
    simp only at *
    omega

end

end Production

namespace Evaluation

/-! ### The productions and their equations -/

/-- Evaluates a sum. -/
def expression (e : Evaluation α) : α × Evaluation α := (Production.expression e).val

/-- Evaluates the operands of a sum behind the given value. -/
def expressionRest (left : α) (e : Evaluation α) : α × Evaluation α :=
  (Production.expressionRest left e).val

/-- Evaluates a product. -/
def term (e : Evaluation α) : α × Evaluation α := (Production.term e).val

/-- Evaluates the operands of a product behind the given value. -/
def termRest (left : α) (e : Evaluation α) : α × Evaluation α :=
  (Production.termRest left e).val

/-- Evaluates a power with its signs. -/
def factor (e : Evaluation α) : α × Evaluation α := (Production.factor e).val

/-- Evaluates a primary with its exponent. -/
def power (e : Evaluation α) : α × Evaluation α := (Production.power e).val

/-- Evaluates a number, a name, a call or a parenthesis. -/
def primary (e : Evaluation α) : α × Evaluation α := (Production.primary e).val

/-- Evaluates the right side of an assignment, and assigns. -/
def assignment (index : Nat) (e : Evaluation α) : α × Evaluation α :=
  e.advance.expression.2.assign index e.advance.expression.1

/-- Evaluates a call of a function of the given kind, or an assignment to it. -/
def call (function : TokenKind) (index : Nat) (e : Evaluation α) : α × Evaluation α :=
  (Production.call function index e).val

/-- A sum is a first operand and the rest. -/
theorem expression_eq (e : Evaluation α) :
    e.expression = e.term.2.expressionRest e.term.1 := by
  rw [expression, Production.expression]; rfl

/-- The operators of a sum group to the left: the value so far is the left operand of the next
one. -/
theorem expressionRest_eq (left : α) (e : Evaluation α) :
    e.expressionRest left =
      match Operator.additive? e.current.kind with
      | none => (left, e)
      | some op =>
        let r := e.advance.term
        let next := r.2.operate op left r.1
        next.2.expressionRest next.1 := by
  rw [expressionRest, Production.expressionRest]
  split
  · next h => simp only [h]
  · next h =>
    simp only [h]
    rfl

/-- A product is a first operand and the rest. -/
theorem term_eq (e : Evaluation α) : e.term = e.factor.2.termRest e.factor.1 := by
  rw [term, Production.term]; rfl

/-- As `expressionRest_eq`, for the operators between factors. -/
theorem termRest_eq (left : α) (e : Evaluation α) :
    e.termRest left =
      match Operator.multiplicative? e.current.kind with
      | none => (left, e)
      | some op =>
        let r := e.advance.factor
        let next := r.2.operate op left r.1
        next.2.termRest next.1 := by
  rw [termRest, Production.termRest]
  split
  · next h => simp only [h]
  · next h =>
    simp only [h]
    rfl

/-- Signs are taken one by one; a plus leaves the value as it is. -/
theorem factor_eq (e : Evaluation α) :
    e.factor =
      if e.current.kind = .minus then (-e.advance.factor.1, e.advance.factor.2)
      else if e.current.kind = .plus then e.advance.factor
      else e.power := by
  rw [factor, Production.factor]
  split
  · rfl
  · split <;> rfl

/-- The exponent is a factor, so powers group to the right and an exponent may have a sign. -/
theorem power_eq (e : Evaluation α) :
    e.power =
      if e.primary.2.current.kind = .caret then
        let r := e.primary.2.advance.factor
        r.2.checked (Arithmetic.power e.primary.1 r.1)
      else e.primary := by
  unfold power
  rw [Production.power]
  -- whether there is an exponent depends on what the base leaves, so the base is read first
  by_cases h : e.primary.2.current.kind = .caret
  · rw [if_pos h]
    unfold primary at h
    simp only [dif_pos h]
    rfl
  · rw [if_neg h]
    unfold primary at h
    simp only [dif_neg h]
    rfl

theorem primary_of_number {e : Evaluation α} (h : e.current.kind = .number) :
    e.primary = (e.current.number?.getD Arithmetic.nan, e.advance) := by
  unfold primary
  rw [Production.primary]
  simp [h, TokenKind.endsStatement]

/-- A name is read, unless it is assigned. -/
theorem primary_of_name {e : Evaluation α} (h : e.current.kind = .name) :
    e.primary =
      match e.current.symbol? with
      | none => e.fail .primaryExpected
      | some index =>
        if e.advance.current.kind = .equals then e.advance.assignment index
        else e.advance.read index := by
  unfold primary
  rw [Production.primary]
  -- a name ends no statement, so there is a token to be taken
  simp only [h, TokenKind.endsStatement, Bool.false_eq_true, dite_false]
  split
  · rfl
  · split
    · rw [Production.Outcome.behind, Production.assignment]
      rfl
    · rfl

/-- The name of a built-in function starts a call, however many arguments it calls for. -/
theorem primary_of_function {e : Evaluation α} (h : e.current.kind.arity?.isSome = true) :
    e.primary =
      match e.current.symbol? with
      | none => e.fail .primaryExpected
      | some index => e.advance.call e.current.kind index := by
  -- the three kinds of functions have one branch
  have hk : e.current.kind = .nullary ∨ e.current.kind = .unary ∨ e.current.kind = .binary := by
    generalize e.current.kind = k at h
    cases k <;> simp_all [TokenKind.arity?]
  unfold primary
  rw [Production.primary]
  rcases hk with hk | hk | hk <;>
  · simp only [hk, TokenKind.endsStatement, Bool.false_eq_true, dite_false]
    split <;> rfl

/-- A parenthesis has the value of what it encloses, even if it is never closed. -/
theorem primary_of_leftParen {e : Evaluation α} (h : e.current.kind = .leftParen) :
    e.primary = (e.advance.expression.1, e.advance.expression.2.close) := by
  unfold primary
  rw [Production.primary]
  simp only [h, TokenKind.endsStatement, Bool.false_eq_true, dite_false]
  rfl

/-- A number is a factor by itself, unless a power follows. -/
theorem factor_of_number {e : Evaluation α} (h : e.current.kind = .number)
    (h' : e.advance.current.kind ≠ .caret) :
    e.factor = (e.current.number?.getD Arithmetic.nan, e.advance) := by
  have hprimary := primary_of_number h
  rw [factor_eq, if_neg (by rw [h]; decide), if_neg (by rw [h]; decide), power_eq, hprimary,
    if_neg h']

/-- Can a primary start with a token of this kind? -/
def startsPrimary (k : TokenKind) : Bool := k.isName || k == .number || k == .leftParen

/-- Nothing else starts a primary, and what is there instead is left for the caller. -/
theorem primary_of_other {e : Evaluation α} (h : startsPrimary e.current.kind = false) :
    e.primary = e.fail .primaryExpected := by
  cases hk : e.current.kind <;> rw [hk] at h <;> 
    simp [startsPrimary, TokenKind.isName, TokenKind.arity?] at h <;>
  · unfold primary
    rw [Production.primary]
    simp [hk, TokenKind.endsStatement]

/-- A value assigned to a function is an assignment like any other, until it is refused. -/
theorem call_of_equals (function : TokenKind) (index : Nat) {e : Evaluation α}
    (h : e.current.kind = .equals) : e.call function index = e.assignment index := by
  unfold call
  rw [Production.call]
  simp only [dif_pos h]
  rw [Production.assignment]
  rfl

/-- Without a parenthesis there is no call. Nothing is taken then. -/
theorem call_of_other (function : TokenKind) (index : Nat) {e : Evaluation α}
    (h : e.current.kind ≠ .equals) (h' : e.current.kind ≠ .leftParen) :
    e.call function index = e.fail (.expected "(") := by
  unfold call
  rw [Production.call]
  simp only [dif_neg h, dif_neg h']

theorem call_nullary (index : Nat) {e : Evaluation α} (h : e.current.kind = .leftParen) :
    e.call .nullary index = e.advance.finishCall index [] := by
  unfold call
  rw [Production.call]
  simp only [h, reduceCtorEq, dite_false, dite_true]

/-- One argument, and the parenthesis is closed behind it. -/
theorem call_unary (index : Nat) {e : Evaluation α} (h : e.current.kind = .leftParen) :
    e.call .unary index =
      e.advance.expression.2.finishCall index [e.advance.expression.1] := by
  unfold call
  rw [Production.call]
  simp only [h, reduceCtorEq, dite_false, dite_true]
  rfl

/-- Without a comma behind the first argument the second one is not looked for. -/
theorem call_binary (index : Nat) {e : Evaluation α} (h : e.current.kind = .leftParen) :
    e.call .binary index =
      let r := e.advance.expression
      if r.2.current.kind = .comma then
        let r' := r.2.advance.expression
        r'.2.finishCall index [r.1, r'.1]
      else r.2.fail (.expected ",") := by
  unfold call
  rw [Production.call]
  simp only [h, reduceCtorEq, dite_false, dite_true]
  -- the comma is looked for where the first argument ends
  by_cases hc : e.advance.expression.2.current.kind = .comma
  · simp only [if_pos hc]
    unfold expression at hc
    simp only [dif_pos hc]
    rfl
  · simp only [if_neg hc]
    unfold expression at hc
    simp only [dif_neg hc]
    rfl

/-! ### Productions are made of elementary moves -/

/-- What a sum does is made of elementary moves, as every production carries along with its
result. -/
theorem reaches_expression (e : Evaluation α) : Reaches e e.expression.2 :=
  (Production.expression e).2

theorem reaches_term (e : Evaluation α) : Reaches e e.term.2 := (Production.term e).2

theorem reaches_factor (e : Evaluation α) : Reaches e e.factor.2 := (Production.factor e).2

theorem reaches_power (e : Evaluation α) : Reaches e e.power.2 := (Production.power e).2

theorem reaches_primary (e : Evaluation α) : Reaches e e.primary.2 := (Production.primary e).2

/-- As the other productions, behind the sign that has been found. -/
theorem reaches_assignment (index : Nat) {e : Evaluation α} (h : e.current.kind = .equals) :
    Reaches e (e.assignment index).2 :=
  ((reaches_advance (by rw [h]; rfl)).trans (reaches_expression _)).trans (reaches_assign _ _ _)

end Evaluation

end DeskCalc
