import DeskCalc.Proofs.Memory
import DeskCalc.Proofs.Syntax.Sentence
import DeskCalc.Run

/-!
# Where statements begin and end

A statement looks for its first token, evaluates its body, skips what that left over, and makes the
value the last result. This module takes these parts one by one.

* `Ready.settled_toStatement` — looking for the first token leads to a state in which productions
  work.
* `Settled.reaches_body` — the body is made of elementary moves, also when it looks ahead.
* `view_conclude`, `read_statement`, `view_statement` — a statement leaves the view that skipping
  its tokens leaves, whatever they are.
* `Ready.statement` — behind a statement nothing was looked at beyond the current token.
* `statements_of_none`, `statements_of_some` — the statements that are left.
-/

namespace DeskCalc

variable {α : Type} [Arithmetic α]

namespace Evaluation

/-! ## The first token -/

theorem toStatement_of_endOfStatement {e : Evaluation α}
    (h : e.advance.current.kind = .endOfStatement) : e.toStatement = e.advance.toStatement := by
  rw [toStatement, dif_pos h]

/-- Any other token is the first of a statement, or the end of the input. -/
theorem toStatement_of_ne {e : Evaluation α} (h : e.advance.current.kind ≠ .endOfStatement) :
    e.toStatement = e.advance := by
  rw [toStatement, dif_neg h]

/-- At the first token of a statement, productions work. -/
theorem Ready.settled_toStatement {e : Evaluation α} (h : e.Ready) : e.toStatement.Settled := by
  fun_induction toStatement e with
  | case1 e _ ih => exact ih h.settled_advance.ready
  | case2 e _ => exact h.settled_advance

/-- Empty statements are passed over. -/
theorem kind_toStatement_ne (e : Evaluation α) :
    e.toStatement.current.kind ≠ .endOfStatement := by
  fun_induction toStatement e with
  | case1 e _ ih => exact ih
  | case2 e hk => exact hk

/-- There is a statement unless the input has come to its end. -/
theorem upcoming_toStatement_eq_nil_iff (e : Evaluation α) :
    e.toStatement.upcoming = [] ↔ e.toStatement.current.kind = .finish := by
  rw [upcoming_eq_nil_iff]
  have hne := e.kind_toStatement_ne
  generalize e.toStatement.current.kind = kind at hne
  cases kind <;> simp_all [TokenKind.endsStatement]

/-! ## The body -/

/-- The body is made of elementary moves: what it looks at, it takes. -/
theorem Settled.reaches_body {e : Evaluation α} (hs : e.Settled) : Reaches e e.body.2 := by
  cases hstart : startsAssignment e.upcoming with
  | true =>
    -- the name and the sign are taken, and what was looked at is taken with them
    obtain ⟨hname, hequals⟩ := e.startsAssignment_upcoming.1 hstart
    obtain ⟨index, hsymbol, -⟩ := hs.exists_symbol hname
    rw [body_of_assignment hstart hsymbol]
    have hk : e.current.kind.endsStatement = false :=
      TokenKind.endsStatement_eq_false_of_isName hname
    exact (reaches_advance hk).trans (reaches_assignment index hequals)
  | false =>
    rw [body_of_expression hs hstart]
    exact reaches_expression e

/-! ## The end -/

theorem conclude_of_endsStatement {e : Evaluation α} (h : e.current.kind.endsStatement = true)
    (reports : Nat) : e.conclude reports = e := by
  rw [conclude, if_pos h]

/-- A token that is left over may be reported, but that does not change what is skipped. -/
theorem view_conclude (reports : Nat) (e : Evaluation α) :
    (e.conclude reports).view = e.skip.view := by
  unfold conclude
  split
  · next h => rw [skip_of_endsStatement h]
  · split
    · exact skip_congr (view_fail (.unexpectedToken e.current.kind.text) e)
    · rfl

/-- Remembering a value leaves alone what was read, though it may make a place for a name. -/
theorem read_rememberStatement (statement : Statement α) (e : Evaluation α) :
    (e.rememberStatement statement).stream = e.stream ∧
      (e.rememberStatement statement).view.session.reports = e.view.session.reports := by
  cases statement with
  | assignment value => exact ⟨rfl, rfl⟩
  | expression value =>
    have hview := view_assign (e.session.intern SymbolTable.last).1 value
      { e with session := (e.session.intern SymbolTable.last).2 }
    exact ⟨congrArg View.stream hview, congrArg (fun v => v.session.reports) hview⟩

/-- Where the last result has its place already, remembering a value keeps the view. -/
theorem view_rememberStatement (statement : Statement α) {e : Evaluation α}
    (h : (e.session.table.indexOf? SymbolTable.last).isSome = true) :
    (e.rememberStatement statement).view = e.view := by
  cases statement with
  | assignment value => rfl
  | expression value =>
    -- the name has a place, so interning it adds none
    have hintern : (e.session.intern SymbolTable.last).2.view = e.session.view := by
      simp only [Session.view, Session.intern, SymbolTable.faces_intern, h, if_true]
    show (e.remember value).view = e.view
    unfold remember
    exact (view_assign _ value _).trans (congrArg (View.mk e.stream) hintern)

/-! ## A statement as a whole -/

theorem statement_of_finish {e : Evaluation α} (h : e.toStatement.current.kind = .finish) :
    e.statement = (none, e.toStatement) := by
  rw [statement]
  exact if_pos h

/-- A statement is its body, what is left over and the last result. -/
theorem statement_of_ne_finish {e : Evaluation α} (h : e.toStatement.current.kind ≠ .finish) :
    e.statement =
      let r := e.toStatement.body
      (some r.1, (r.2.conclude e.toStatement.session.errorCount).rememberStatement r.1) := by
  rw [statement]
  exact if_neg h

/-- Whatever a statement is made of, it takes the tokens up to its end and reports what is wrong
with them. -/
theorem Ready.read_statement {e : Evaluation α} (h : e.Ready) :
    e.statement.2.stream = e.toStatement.skip.stream ∧
      e.statement.2.view.session.reports = e.toStatement.skip.view.session.reports := by
  by_cases hk : e.toStatement.current.kind = .finish
  · rw [statement_of_finish hk, skip_of_endsStatement (by rw [hk]; rfl)]
    exact ⟨rfl, rfl⟩
  · rw [statement_of_ne_finish hk]
    -- the body has taken some of the tokens, and the end of the statement the others
    have hview := (view_conclude e.toStatement.session.errorCount e.toStatement.body.2).trans
      h.settled_toStatement.reaches_body.skip_view
    obtain ⟨hstream, hreports⟩ := read_rememberStatement e.toStatement.body.1
      (e.toStatement.body.2.conclude e.toStatement.session.errorCount)
    exact ⟨hstream.trans (congrArg View.stream hview),
      hreports.trans (congrArg (fun v => v.session.reports) hview)⟩

/-- Where the last result has its place already, a statement leaves the same view as skipping its
tokens does. -/
theorem Ready.view_statement {e : Evaluation α} (h : e.Ready)
    (hlast : (e.toStatement.skip.session.table.indexOf? SymbolTable.last).isSome = true) :
    e.statement.2.view = e.toStatement.skip.view := by
  by_cases hk : e.toStatement.current.kind = .finish
  · rw [statement_of_finish hk, skip_of_endsStatement (by rw [hk]; rfl)]
  · rw [statement_of_ne_finish hk]
    have hview := (view_conclude e.toStatement.session.errorCount e.toStatement.body.2).trans
      h.settled_toStatement.reaches_body.skip_view
    have hfaces := congrArg (fun v => v.session.faces) hview
    -- the faces are those behind skipping, so the last result has its place here, too
    refine (view_rememberStatement _ ?_).trans hview
    simp only [view, Session.view] at hfaces
    rwa [SymbolTable.indexOf?_eq_findIdx?, hfaces, ← SymbolTable.indexOf?_eq_findIdx?]

theorem Settled.skip {e : Evaluation α} (h : e.Settled) : e.skip.Settled := by
  fun_induction Evaluation.skip e with
  | case1 => exact h
  | case2 e _ ih => exact ih h.advance

/-- Between two statements nothing was looked at beyond the current token. -/
theorem Ready.statement {e : Evaluation α} (h : e.Ready) : e.statement.2.Ready := by
  rw [Ready, h.read_statement.1]
  exact h.settled_toStatement.skip.ready

/-! ## All statements -/

theorem statements_of_none {e : Evaluation α} (h : e.statement.1 = none) :
    e.statements = ([], e.statement.2) := by
  rw [statements]
  split
  · next e' hs => rw [hs]
  · next hs => rw [hs] at h; cases h

/-- A statement takes a part of what there is to come. -/
theorem pending_statement_of_some {e : Evaluation α} {statement : Statement α}
    (h : e.statement.1 = some statement) : e.statement.2.pending < e.pending := by
  have hs : e.statement = (some statement, e.statement.2) := by rw [← h]
  exact pending_statement_lt hs

/-- At the end of the input no statement is left. -/
theorem statements_of_finish {e : Evaluation α} (h : e.toStatement.current.kind = .finish) :
    e.statements = ([], e.toStatement) := by
  rw [statements_of_none (by rw [statement_of_finish h]), statement_of_finish h]

/-- The first statement, and those behind it. -/
theorem statements_of_some {e : Evaluation α} {statement : Statement α}
    (h : e.statement.1 = some statement) :
    e.statements = (statement :: e.statement.2.statements.1, e.statement.2.statements.2) := by
  rw [statements]
  split
  · next hs => rw [hs] at h; cases h
  · next hs =>
    rw [hs] at h
    cases h
    rw [hs]

end Evaluation

end DeskCalc
