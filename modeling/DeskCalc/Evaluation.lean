import DeskCalc.TokenStream

/-!
# Evaluations

An evaluation is an input being read as tokens together with the session it is evaluated in. This
module holds the elementary moves of an evaluation, of which the productions of the grammar are made.

* `Evaluation.advance`, `peek`: taking the next token and looking at it;
* `Evaluation.fail`, `checked`, `operate`, `read`, `assign`, `apply`: what happens to values;
* `Evaluation.tokens`: all tokens that are left;
* `Evaluation.Reaches`: what a production may do, one elementary move after another. It moves past
  no token that ends a statement (`Step.advance`), and it never adds to what is to come
  (`Reaches.ahead_le`, `Reaches.pending_le`).
-/

namespace DeskCalc

/-- The operators that stand between two operands and group to the left. -/
inductive Operator where
  | plus
  | minus
  | times
  | over
  | modulo
  deriving DecidableEq

namespace Operator

/-- The operator between two terms that a token stands for, if it does. -/
def additive? : TokenKind → Option Operator
  | .plus => some .plus
  | .minus => some .minus
  | _ => none

/-- The operator between two factors that a token stands for, if it does. -/
def multiplicative? : TokenKind → Option Operator
  | .asterisk => some .times
  | .slash => some .over
  | .percent => some .modulo
  | _ => none

theorem endsStatement_of_additive? {k : TokenKind} {op : Operator} (h : additive? k = some op) :
    k.endsStatement = false := by
  cases k <;> simp_all [additive?, TokenKind.endsStatement]

theorem endsStatement_of_multiplicative? {k : TokenKind} {op : Operator}
    (h : multiplicative? k = some op) : k.endsStatement = false := by
  cases k <;> simp_all [multiplicative?, TokenKind.endsStatement]

end Operator

/-- An input being read, and the session it is evaluated in. -/
structure Evaluation (α : Type) where
  stream : TokenStream α
  session : Session α

namespace Evaluation

variable {α : Type}

/-- The start of reading a source in a session. The line count of the session is left alone. -/
def start (source : LineSource) (session : Session α) : Evaluation α := ⟨.new source, session⟩

/-- Goes on with another source from its first line; what was read of the old one is forgotten. -/
def switch (source : LineSource) (e : Evaluation α) : Evaluation α :=
  start source e.session.resetLine

/-- The token that was taken last. -/
def current (e : Evaluation α) : Token α := e.stream.current

def report (problem : Problem) (e : Evaluation α) : Evaluation α :=
  { e with session := e.session.report problem }

/-- How much there is to come behind the current token. -/
def pending (e : Evaluation α) : Nat := e.stream.pending

/-- How much there is to come, the current token included unless it is the end of the input. -/
def ahead (e : Evaluation α) : Nat := e.pending + if e.current.kind = .finish then 0 else 1

variable [Arithmetic α]

def peek (e : Evaluation α) : Token α × Evaluation α :=
  let (token, stream, session) := e.stream.peek e.session
  (token, ⟨stream, session⟩)

/-- Takes the next token. Reading it may report something, and may give a name its place. -/
def advance (e : Evaluation α) : Evaluation α :=
  let (stream, session) := e.stream.advance e.session
  ⟨stream, session⟩

/-- Reports a problem; the value of whatever has it is not a number. -/
def fail (problem : Problem) (e : Evaluation α) : α × Evaluation α :=
  (Arithmetic.nan, e.report problem)

/-- The value of a checked function, or its failure reported. -/
def checked (result : Except MathError α) (e : Evaluation α) : α × Evaluation α :=
  match result with
  | .ok value => (value, e)
  | .error error => e.fail (.math error)

/-- The value of an operation. Dividing by zero is reported. -/
def operate (op : Operator) (left right : α) (e : Evaluation α) : α × Evaluation α :=
  match op with
  | .plus => (left + right, e)
  | .minus => (left - right, e)
  | .times => (left * right, e)
  | .over => if Arithmetic.isZero right then e.fail .divideByZero else (left / right, e)
  | .modulo => if Arithmetic.isZero right then e.fail .divideByZero else (left % right, e)

/-- The value of the name at a place of the table. -/
def read (index : Nat) (e : Evaluation α) : α × Evaluation α :=
  match e.session.table.entry index with
  | .error error => e.fail (.symbol error)
  | .ok ⟨name, binding⟩ =>
    match binding with
    | .assigned value | .constant value => (value, e)
    | .undefined => e.fail (.undefinedVariable name)
    | .builtIn _ => e.fail .primaryExpected

/-- Assigns the name at a place of the table; the value is that of the assignment. -/
def assign (index : Nat) (value : α) (e : Evaluation α) : α × Evaluation α :=
  match e.session.assign index value with
  | .ok session => (value, { e with session })
  | .error error => e.fail (.symbol error)

/-- Calls the built-in function at a place of the table, on arguments that were evaluated before. -/
def apply (index : Nat) (arguments : List α) (e : Evaluation α) : α × Evaluation α :=
  match e.session.table.get index with
  | .error error => e.fail (.symbol error)
  | .ok binding =>
    match binding.call? arguments e.session.draws with
    | some (result, draws) => checked result { e with session := { e.session with draws } }
    | none => e.fail .primaryExpected

/-- Takes a closing parenthesis; reports it where it is missing. -/
def close (e : Evaluation α) : Evaluation α :=
  if e.current.kind = .rightParen then e.advance else e.report (.expected ")")

/-- Ends a call, given its arguments: the closing parenthesis has to come now. -/
def finishCall (index : Nat) (arguments : List α) (e : Evaluation α) : α × Evaluation α :=
  if e.current.kind = .rightParen then e.advance.apply index arguments
  else e.fail (.expected ")")

/-! ### Elementary moves -/

/-- One elementary move of a production. The grammar is only ever evaluated by these. -/
inductive Step : Evaluation α → Evaluation α → Prop
  /-- Taking the next token, unless the current one ends the statement. -/
  | advance (e : Evaluation α) : e.current.kind.endsStatement = false → Step e e.advance
  /-- Reporting a problem of what was read. -/
  | report (problem : Problem) (e : Evaluation α) :
    problem.ofEvaluation = true → Step e (e.report problem)
  | assign {e : Evaluation α} {index : Nat} {value : α} {session : Session α} :
    e.session.assign index value = .ok session → Step e { e with session }
  | draw (e : Evaluation α) :
    Step e { e with session := { e.session with draws := e.session.draws.next.2 } }

/-- One evaluation leads to another by elementary moves. -/
inductive Reaches : Evaluation α → Evaluation α → Prop
  | refl (e : Evaluation α) : Reaches e e
  | tail {e e' e'' : Evaluation α} : Reaches e e' → Step e' e'' → Reaches e e''

theorem Step.reaches {e e' : Evaluation α} (h : Step e e') : Reaches e e' := .tail (.refl e) h

theorem Reaches.trans {e e' e'' : Evaluation α} (h : Reaches e e') (h' : Reaches e' e'') :
    Reaches e e'' := by
  induction h' with
  | refl => exact h
  | tail _ step ih => exact .tail ih step

theorem reaches_advance {e : Evaluation α} (h : e.current.kind.endsStatement = false) :
    Reaches e e.advance :=
  (Step.advance e h).reaches

/-- Failing is a move where evaluating can come upon the problem, which shows by evaluating the
kind. -/
theorem reaches_fail (problem : Problem) (e : Evaluation α)
    (h : problem.ofEvaluation = true := by rfl) : Reaches e (e.fail problem).2 :=
  (Step.report problem e h).reaches

theorem reaches_checked (result : Except MathError α) (e : Evaluation α) :
    Reaches e (e.checked result).2 := by
  unfold checked
  split
  · exact .refl e
  · exact reaches_fail _ e

/-- An operation reports at most that it divides by zero. -/
theorem reaches_operate (op : Operator) (left right : α) (e : Evaluation α) :
    Reaches e (e.operate op left right).2 := by
  unfold operate
  split
  · exact .refl e
  · exact .refl e
  · exact .refl e
  -- the two operators that can divide by zero
  · split
    · exact reaches_fail _ e
    · exact .refl e
  · split
    · exact reaches_fail _ e
    · exact .refl e

/-- Reading a name reports at most that there is nothing to read. -/
theorem reaches_read (index : Nat) (e : Evaluation α) : Reaches e (e.read index).2 := by
  unfold read
  split
  · exact reaches_fail _ e
  -- an unset name and a function fail; the others have a value
  · split
    · exact .refl e
    · exact .refl e
    · exact reaches_fail _ e
    · exact reaches_fail _ e

/-- Assigning a name is a move of its own, and refusing to is a report. -/
theorem reaches_assign (index : Nat) (value : α) (e : Evaluation α) :
    Reaches e (e.assign index value).2 := by
  unfold assign
  split
  · next h => exact (Step.assign h).reaches
  · exact reaches_fail _ e

/-- A built-in function draws at most one random number. -/
theorem draws_of_call? {binding : Binding α} {arguments : List α} {draws draws' : Draws α}
    {result : Except MathError α} (h : binding.call? arguments draws = some (result, draws')) :
    draws' = draws ∨ draws' = draws.next.2 := by
  unfold Binding.call? at h
  split at h
  · unfold BuiltIn.call? at h
    split at h <;> simp_all
  · simp at h

/-- Calling a function draws a random number if the function does, and reports at most one
problem. -/
theorem reaches_apply (index : Nat) (arguments : List α) (e : Evaluation α) :
    Reaches e (e.apply index arguments).2 := by
  unfold apply
  split
  · exact reaches_fail _ e
  · split
    · next h =>
      refine .trans ?_ (reaches_checked _ _)
      -- all but the random function leave the random numbers alone
      rcases draws_of_call? h with rfl | rfl
      · exact .refl e
      · exact (Step.draw e).reaches
    · exact reaches_fail _ e

/-- The closing parenthesis is taken or missed. -/
theorem reaches_close (e : Evaluation α) : Reaches e e.close := by
  unfold close
  split
  · next h => exact reaches_advance (by simp [h, TokenKind.endsStatement])
  · exact (Step.report _ e rfl).reaches

/-- The end of a call is the closing parenthesis and the function, or neither. -/
theorem reaches_finishCall (index : Nat) (arguments : List α) (e : Evaluation α) :
    Reaches e (e.finishCall index arguments).2 := by
  unfold finishCall
  split
  · next h =>
    exact (reaches_advance (by simp [h, TokenKind.endsStatement])).trans (reaches_apply _ _ _)
  · exact reaches_fail _ e

/-! ### What is to come never grows -/

/-- Taking a token leaves less to come, unless it is the end of the input. -/
theorem pending_advance (e : Evaluation α) :
    e.advance.pending + (if e.advance.current.kind = .finish then 0 else 1) ≤ e.pending :=
  e.stream.pending_advance e.session

/-- Moving past a token leaves less, unless the token is the end of the input. -/
theorem ahead_advance_lt {e : Evaluation α} (h : e.current.kind.endsStatement = false) :
    e.advance.ahead < e.ahead := by
  have := e.pending_advance
  have hk : e.current.kind ≠ .finish := by intro h'; simp [h', TokenKind.endsStatement] at h
  simp only [ahead, hk, if_false] at *
  omega

/-- The tokens that are left, up to the end of the input. -/
def tokens (e : Evaluation α) : List (Token α) × Evaluation α :=
  if _h : e.advance.current.kind = .finish then ([e.advance.current], e.advance)
  else
    let (rest, last) := e.advance.tokens
    (e.advance.current :: rest, last)
termination_by e.pending
decreasing_by
  have := e.pending_advance
  simp [_h] at this
  omega

theorem pending_advance_le (e : Evaluation α) : e.advance.pending ≤ e.pending := by
  have := e.pending_advance
  omega

/-- Looking at a token only moves it to where it waits to be taken. -/
theorem pending_peek_le (e : Evaluation α) : e.peek.2.pending ≤ e.pending :=
  e.stream.pending_peek_le e.session

theorem current_peek (e : Evaluation α) : e.peek.2.current = e.current :=
  e.stream.current_peek e.session

/-- No move adds to what is to come, so what a production leaves is enough to recurse on. -/
theorem Reaches.ahead_le {e e' : Evaluation α} (h : Reaches e e') : e'.ahead ≤ e.ahead := by
  induction h with
  | refl => exact Nat.le_refl _
  | tail _ step ih =>
    -- only taking a token touches the stream, and it takes something away
    cases step with
    | advance _ h => exact Nat.le_trans (Nat.le_of_lt (ahead_advance_lt h)) ih
    | report => exact ih
    | assign => exact ih
    | draw => exact ih

/-- As `Reaches.ahead_le`, without the current token. -/
theorem Reaches.pending_le {e e' : Evaluation α} (h : Reaches e e') : e'.pending ≤ e.pending := by
  induction h with
  | refl => exact Nat.le_refl _
  | tail _ step ih =>
    cases step with
    | advance => exact Nat.le_trans (pending_advance_le _) ih
    | report => exact ih
    | assign => exact ih
    | draw => exact ih

end Evaluation

end DeskCalc
