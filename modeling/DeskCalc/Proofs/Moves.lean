import DeskCalc.Proofs.Printing
import Mathlib.Logic.Relation

/-!
# Whatever may happen

All that ever happens to an evaluation is a handful of moves, in whatever order. What every one of
them keeps holds at every point of every run, between two statements and inside of one.

* `Evaluation.Move` — one move.
* `Evaluation.Leads` — one evaluation leads to another by moves.
* `leads_statement`, `leads_statements`, `leads_run` — statements and runs are made of moves.
-/

namespace DeskCalc

variable {α : Type} [Arithmetic α]

namespace Evaluation

/-- What may happen to an evaluation, one thing at a time. -/
inductive Move : Evaluation α → Evaluation α → Prop
  | switch (source : LineSource) (e : Evaluation α) : Move e (e.switch source)
  | peek (e : Evaluation α) : Move e e.peek.2
  | advance (e : Evaluation α) : Move e e.advance
  | report (problem : Problem) (e : Evaluation α) : Move e (e.report problem)
  | intern (name : String) (e : Evaluation α) :
    Move e { e with session := (e.session.intern name).2 }
  | assign {e : Evaluation α} {index : Nat} {value : α} {session : Session α} :
    e.session.assign index value = .ok session → Move e { e with session }
  | draw (e : Evaluation α) :
    Move e { e with session := { e.session with draws := e.session.draws.next.2 } }

/-- One evaluation leads to another by moves. -/
abbrev Leads : Evaluation α → Evaluation α → Prop := Relation.ReflTransGen Move

theorem Move.leads {e e' : Evaluation α} (h : Move e e') : Leads e e' := .single h

/-- What a production may do is among what may happen at all. -/
theorem Step.move {e e' : Evaluation α} (h : Step e e') : Move e e' := by
  cases h with
  | advance => exact .advance e
  | report problem => exact .report problem e
  | assign ha => exact .assign ha
  | draw => exact .draw e

/-- So whatever a production does is made of moves. The induction is on its elementary moves. -/
theorem Reaches.leads {e e' : Evaluation α} (h : Reaches e e') : Leads e e' := by
  induction h with
  | refl => exact .refl
  | tail _ step ih => exact ih.tail step.move

/-! ## Statements -/

theorem leads_toStatement (e : Evaluation α) : Leads e e.toStatement := by
  fun_induction toStatement e with
  | case1 e _ ih => exact .head (.advance e) ih
  | case2 e _ => exact (Move.advance e).leads

theorem leads_skip (e : Evaluation α) : Leads e e.skip := by
  fun_induction skip e with
  | case1 e _ => exact .refl
  | case2 e _ ih => exact .head (.advance e) ih

/-- To find out what a statement assigns is one look ahead, or nothing. -/
theorem leads_target (e : Evaluation α) : Leads e e.target.2 := by
  unfold target
  split
  · exact (Move.peek e).leads
  · exact .refl

/-- The body of a statement is a look ahead, the tokens in front of a right side, and
productions. -/
theorem leads_body (e : Evaluation α) : Leads e e.body.2 := by
  unfold body
  simp only
  split
  · next index _ =>
    -- what was looked at is taken, then the sign, and the right side is read and assigned
    exact (((leads_target e).tail (.advance _)).tail (.advance _)).trans
      ((reaches_expression _).trans (reaches_assign index _ _)).leads
  · exact (leads_target e).trans (reaches_expression _).leads

/-- At its end a statement reports a token that is left over, and skips the rest. -/
theorem leads_conclude (reports : Nat) (e : Evaluation α) : Leads e (e.conclude reports) := by
  unfold conclude
  split
  · exact .refl
  · split
    · exact .head (.report _ e) (leads_skip _)
    · exact leads_skip e

/-- The last result is a name that is given its place and assigned. -/
theorem leads_rememberStatement (statement : Statement α) (e : Evaluation α) :
    Leads e (e.rememberStatement statement) := by
  cases statement with
  | assignment value => exact .refl
  | expression value => exact .head (.intern SymbolTable.last e) (reaches_assign _ _ _).leads

/-- A statement is made of moves, from the search for its first token to the binding of the last
result. -/
theorem leads_statement (e : Evaluation α) : Leads e e.statement.2 := by
  -- there may be no statement any more
  by_cases hk : e.toStatement.current.kind = .finish
  · rw [statement_of_finish hk]
    exact leads_toStatement e
  · rw [statement_of_ne_finish hk]
    exact (leads_toStatement e).trans ((leads_body _).trans
      ((leads_conclude _ _).trans (leads_rememberStatement _ _)))

/-! ## Whole inputs -/

/-- All statements of an input are made of moves. The induction is on what is to come, as in the
loop. -/
theorem leads_statements (e : Evaluation α) : Leads e e.statements.2 := by
  induction hn : e.pending using Nat.strongRecOn generalizing e with
  | _ n ih =>
    cases hs : e.statement.1 with
    | none =>
      rw [statements_of_none hs]
      exact leads_statement e
    | some statement =>
      have hlt := pending_statement_of_some hs
      rw [statements_of_some hs]
      exact (leads_statement e).trans (ih _ (by omega) _ rfl)

/-- A run is made of moves as well, even if it is broken off because nothing can be printed any
more. -/
theorem leads_run (w : Writer) (e : Evaluation α) : Leads e (e.run w).2.2 := by
  induction hn : e.pending using Nat.strongRecOn generalizing e w with
  | _ n ih =>
    cases hs : e.statement.1 with
    | none =>
      rw [run_of_none hs]
      exact leads_statement e
    | some statement =>
      have hlt := pending_statement_of_some hs
      -- printing is no move: the session is the same whether it fails or not
      rcases hprint : statement.print w with ⟨result, w'⟩
      cases result with
      | error message =>
        rw [run_of_failed hs hprint]
        exact leads_statement e
      | ok =>
        rw [run_of_some hs hprint]
        exact (leads_statement e).trans (ih _ (by omega) _ _ rfl)

end Evaluation

end DeskCalc
