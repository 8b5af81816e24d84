import DeskCalc.Production

/-!
# Statements

A statement is an assignment or an expression, up to the next end of a statement. Whatever stands
between the two is reported once and skipped, so that the next statement starts afresh. The value of
an expression becomes the last result.

* `Evaluation.toStatement`: finds the first token of a statement;
* `Evaluation.statement`: evaluates a statement;
* `Evaluation.pending_statement_lt`: every statement leaves less to come.
-/

namespace DeskCalc

/-- A statement that was evaluated, with its value. -/
inductive Statement (α : Type) where
  | expression (value : α)
  /-- An assignment; its value is not printed. -/
  | assignment (value : α)

def Statement.value {α : Type} : Statement α → α
  | .expression value | .assignment value => value

namespace Evaluation

variable {α : Type} [Arithmetic α]

/-- Moves to the first token of the next statement, or to the end of the input. -/
def toStatement (e : Evaluation α) : Evaluation α :=
  if _h : e.advance.current.kind = .endOfStatement then e.advance.toStatement else e.advance
termination_by e.pending
decreasing_by
  have := e.pending_advance
  simp [_h] at this
  omega

/-- Moves to the end of the statement. -/
def skip (e : Evaluation α) : Evaluation α :=
  if _h : e.current.kind.endsStatement = true then e else e.advance.skip
termination_by e.ahead
decreasing_by exact ahead_advance_lt (by simpa using _h)

/--
The place of the name that the statement assigns, if it is an assignment: if its first token is a
name and its second one is `=`.
-/
def target (e : Evaluation α) : Option Nat × Evaluation α :=
  if e.current.kind.isName then
    let (token, e₁) := e.peek
    (if token.kind = .equals then e.current.symbol? else none, e₁)
  else (none, e)

/-- Evaluates the assignment or the expression that starts at the current token. -/
def body (e : Evaluation α) : Statement α × Evaluation α :=
  let (target?, e₁) := e.target
  match target? with
  | some index =>
    let (value, e₂) := e₁.advance.assignment index
    (.assignment value, e₂)
  | none =>
    let (value, e₂) := e₁.expression
    (.expression value, e₂)

/--
Moves to the end of the statement. If there is anything on the way, and nothing else was reported
since there were the given number of reports, that is reported.
-/
def conclude (reports : Nat) (e : Evaluation α) : Evaluation α :=
  if e.current.kind.endsStatement then e
  else if e.session.errorCount = reports then
    (e.report (.unexpectedToken e.current.kind.text)).skip
  else e.skip

/-- Makes a value the last result. The name of the last result gets a place if it has none. -/
def remember (value : α) (e : Evaluation α) : Evaluation α :=
  let (index, session) := e.session.intern SymbolTable.last
  (assign index value { e with session }).2

/-- Makes the value of an expression the last result. -/
def rememberStatement (statement : Statement α) (e : Evaluation α) : Evaluation α :=
  match statement with
  | .expression value => e.remember value
  | .assignment _ => e

/-- Evaluates the next statement, if there is one. -/
def statement (e : Evaluation α) : Option (Statement α) × Evaluation α :=
  let e₁ := e.toStatement
  if e₁.current.kind = .finish then (none, e₁)
  else
    let (statement, e₂) := e₁.body
    (some statement, (e₂.conclude e₁.session.errorCount).rememberStatement statement)

/-! ### Every statement leaves less to come -/

theorem pending_skip_le (e : Evaluation α) : e.skip.pending ≤ e.pending := by
  fun_induction skip e with
  | case1 => exact Nat.le_refl _
  | case2 e _ ih => exact Nat.le_trans ih e.pending_advance_le

/-- Looking for a statement uses up the blank ones in front of it, and its first token. -/
theorem pending_toStatement (e : Evaluation α) :
    e.toStatement.pending + (if e.toStatement.current.kind = .finish then 0 else 1) ≤
      e.pending := by
  fun_induction toStatement e with
  | case1 e _ ih => exact Nat.le_trans ih e.pending_advance_le
  | case2 e _ => exact e.pending_advance

theorem pending_target_le (e : Evaluation α) : e.target.2.pending ≤ e.pending := by
  unfold target
  split
  · exact e.pending_peek_le
  · exact Nat.le_refl _

/-- Reading a statement adds nothing to what is to come, whether it is an assignment or not. -/
theorem pending_body_le (e : Evaluation α) : e.body.2.pending ≤ e.pending := by
  unfold body
  simp only
  refine Nat.le_trans ?_ e.pending_target_le
  split
  -- the look ahead, two tokens, the right side and the assignment, one behind the other
  · next index _ =>
    have h₁ := (reaches_assign index e.target.2.advance.advance.expression.1
      e.target.2.advance.advance.expression.2).pending_le
    have h₂ := (reaches_expression e.target.2.advance.advance).pending_le
    have h₃ := e.target.2.advance.pending_advance_le
    have h₄ := e.target.2.pending_advance_le
    simp only [assignment]
    omega
  · exact (reaches_expression e.target.2).pending_le

/-- What is skipped at the end of a statement is gone. -/
theorem pending_conclude_le (reports : Nat) (e : Evaluation α) :
    (e.conclude reports).pending ≤ e.pending := by
  unfold conclude
  split
  · exact Nat.le_refl _
  · split
    · exact pending_skip_le _
    · exact pending_skip_le _

/-- Binding the last result reads nothing. -/
theorem pending_rememberStatement_le (statement : Statement α) (e : Evaluation α) :
    (e.rememberStatement statement).pending ≤ e.pending := by
  unfold rememberStatement
  split
  · exact (reaches_assign _ _ _).pending_le
  · exact Nat.le_refl _

/-- A statement has a first token, and that one is used up. The loop over all statements ends for
this reason. -/
theorem pending_statement_lt {e e' : Evaluation α} {statement : Statement α}
    (h : e.statement = (some statement, e')) : e'.pending < e.pending := by
  unfold Evaluation.statement at h
  simp only at h
  split at h
  · simp at h
  · next hk =>
    simp only [Prod.mk.injEq, Option.some.injEq] at h
    rw [← h.2]
    -- only looking for the first token uses one up for certain; the other steps add none
    have h₁ := e.pending_toStatement
    have h₂ := e.toStatement.pending_body_le
    have h₃ := pending_conclude_le e.toStatement.session.errorCount e.toStatement.body.2
    have h₄ := pending_rememberStatement_le e.toStatement.body.1
      (conclude e.toStatement.session.errorCount e.toStatement.body.2)
    simp only [hk, if_false] at h₁
    omega

end Evaluation

end DeskCalc
