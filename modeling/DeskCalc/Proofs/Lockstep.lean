import DeskCalc.Proofs.Alike
import DeskCalc.Proofs.Printing

/-!
# Evaluations in lockstep

Two evaluations that come upon the same statement every time find the same statements to the end and
print the same. It takes no more than to compare them from one statement to the next.

* `Lockstep` — both find the same statement and are related behind it, or both are at their end.
* `Lockstep.statements`, `Lockstep.run` — then this holds to the end of the input, and to the end of
  a run wherever it stops.
* `Simulation.lockstep` — a simulation goes in lockstep if it is in force again at each statement.
* `Twins` — two evaluations with the same stream, in sessions that are alike, go in lockstep
  (`lockstep_twins`).
-/

namespace DeskCalc

variable {α : Type} [Arithmetic α]

open Evaluation

/-- Between two statements, evaluations that `A` relates go on in lockstep. `Q` relates them where
the input has ended. -/
def Lockstep (A Q : Evaluation α → Evaluation α → Prop) : Prop :=
  ∀ {e e' : Evaluation α}, A e e' →
    (∃ statement, e.statement.1 = some statement ∧ e'.statement.1 = some statement ∧
      A e.statement.2 e'.statement.2) ∨
    e.statement.1 = none ∧ e'.statement.1 = none ∧ Q e.statement.2 e'.statement.2

namespace Lockstep

variable {A Q : Evaluation α → Evaluation α → Prop} {e e' : Evaluation α}

/-- Both find the same statements. -/
theorem statements (h : Lockstep A Q) (hA : A e e') :
    e'.statements.1 = e.statements.1 ∧ Q e.statements.2 e'.statements.2 := by
  -- the induction is on what is to come, as in the loop over the statements
  induction hn : e.pending using Nat.strongRecOn generalizing e e' with
  | _ n ih =>
    rcases h hA with ⟨statement, hs, hs', hnext⟩ | ⟨hs, hs', hend⟩
    · have hlt := pending_statement_of_some hs
      obtain ⟨hrest, hend⟩ := ih _ (by omega) hnext rfl
      rw [statements_of_some hs, statements_of_some hs', hrest]
      exact ⟨rfl, hend⟩
    · rw [statements_of_none hs, statements_of_none hs']
      exact ⟨rfl, hend⟩

/-- Both print the same, and a run of both stops in the same way: at the end of the input, or behind
the statement that could not be printed. -/
theorem run (h : Lockstep A Q) (hA : A e e') (w : Writer) :
    (e'.run w).1 = (e.run w).1 ∧ (e'.run w).2.1 = (e.run w).2.1 ∧
      ((e.run w).1 = .ok () ∧ Q (e.run w).2.2 (e'.run w).2.2 ∨
        (∃ message, (e.run w).1 = .error message) ∧ A (e.run w).2.2 (e'.run w).2.2) := by
  induction hn : e.pending using Nat.strongRecOn generalizing e e' w with
  | _ n ih =>
    rcases h hA with ⟨statement, hs, hs', hnext⟩ | ⟨hs, hs', hend⟩
    · have hlt := pending_statement_of_some hs
      -- the statement is the same, so the writer takes it from both or from none
      rcases hprint : statement.print w with ⟨result, w'⟩
      cases result with
      | ok =>
        rw [run_of_some hs hprint, run_of_some hs' hprint]
        exact ih _ (by omega) hnext w' rfl
      | error message =>
        rw [run_of_failed hs hprint, run_of_failed hs' hprint]
        exact ⟨rfl, rfl, Or.inr ⟨⟨message, rfl⟩, hnext⟩⟩
    · rw [run_of_none hs, run_of_none hs']
      exact ⟨rfl, rfl, Or.inl ⟨rfl, hend⟩⟩

end Lockstep

/-- A simulation that is in force at the first token of each statement. -/
theorem Simulation.lockstep {S : Evaluation α → Evaluation α → Nat → Nat → Prop}
    {R A Q : Evaluation α → Evaluation α → Prop} (h : Simulation S R)
    (hstart : ∀ {e e' : Evaluation α}, A e e' →
      e.toStatement.current.kind ≠ .finish ∧ R e.toStatement e'.toStatement ∨
      e.toStatement.current.kind = .finish ∧ e'.toStatement.current.kind = .finish ∧
        Q e.toStatement e'.toStatement)
    (hagain : ∀ {e e' : Evaluation α}, R e e' → A e e') : Lockstep A Q := by
  intro e e' hA
  -- a first token, and the simulation covers the statement; or the end of both inputs
  rcases hstart hA with ⟨hk, hR⟩ | ⟨hk, hk', hQ⟩
  · obtain ⟨hstatement, hend⟩ := h.statement hR hk
    have hs : e.statement.1 = some e.toStatement.body.1 := by rw [statement_of_ne_finish hk]
    exact Or.inl ⟨_, hs, hstatement ▸ hs, hagain hend⟩
  · rw [statement_of_finish hk, statement_of_finish hk']
    exact Or.inr ⟨rfl, rfl, hQ⟩

/-! ## The same stream -/

open Session

variable {k : Nat} {rs rs' : List Report}

/-- Sessions stay alike when a token is read off the same stream. -/
theorem Session.Alike.scan {s s' : Session α} (h : Alike k rs rs' s s') (t : TokenStream α) :
    Alike k rs rs' (t.scan s).2.2 (t.scan s').2.2 := by
  have hnext : Alike k rs rs' (if t.newlinePending then s.nextLine else s)
      (if t.newlinePending then s'.nextLine else s') := by
    split
    · exact h.nextLine
    · exact h
  unfold TokenStream.scan
  simp only
  -- the stream is the same, so both take the same way from here on
  generalize (if t.newlinePending then s.nextLine else s) = r at hnext
  generalize (if t.newlinePending then s'.nextLine else s') = r' at hnext
  split
  · exact hnext
  · split
    · exact (hnext.token _).2
    · exact hnext
    · exact hnext.report _

omit [Arithmetic α] in
/-- Sessions that are alike in all reports look the same to a reader. -/
theorem Session.Alike.view {s s' : Session α} (h : Alike 0 [] [] s s') : s'.view = s.view := by
  obtain ⟨htable, -, hline, new, hnew, hnew'⟩ := h
  rw [Report.map_later_zero] at hnew'
  rw [Session.view, Session.view, htable, hline, hnew, hnew']
  rfl

/-- The same stream is read in both, in sessions that differ in nothing but where they show
reports. -/
structure Twins (e e' : Evaluation α) : Prop where
  ready : e.Ready
  stream : e'.stream = e.stream
  alike : Alike 0 [] [] e.session e'.session

namespace Twins

variable {e e' : Evaluation α}

omit [Arithmetic α] in
theorem current (h : Twins e e') : e'.current = e.current :=
  congrArg TokenStream.current h.stream

/-- Twins stay twins when both pass over a token. -/
theorem advance (h : Twins e e') : Twins e.advance e'.advance := by
  have hready := h.ready.settled_advance.ready
  have hview : e'.view = e.view := by rw [Evaluation.view, Evaluation.view, h.stream, h.alike.view]
  refine ⟨hready, congrArg View.stream (view_advance hview), ?_⟩
  obtain ⟨t, s⟩ := e
  obtain ⟨t', s'⟩ := e'
  obtain ⟨hnone, rfl, halike⟩ := h
  -- nothing was looked at, so the token is read off the stream
  have hsession : ∀ s : Session α, (Evaluation.mk t' s).advance.session = (t'.scan s).2.2 := by
    intro s
    have hnone : t'.lookahead = none := hnone
    simp only [Evaluation.advance, TokenStream.advance, hnone]
  rw [hsession, hsession]
  exact halike.scan t'

/-- Twins stay twins when both look for a statement. -/
theorem toStatement (h : Twins e e') : Twins e.toStatement e'.toStatement := by
  fun_induction Evaluation.toStatement e generalizing e' with
  | case1 e hk ih =>
    have hk' : e'.advance.current.kind = .endOfStatement := by rw [h.advance.current, hk]
    rw [toStatement_of_endOfStatement hk']
    exact ih h.advance
  | case2 e hk =>
    have hk' : e'.advance.current.kind ≠ .endOfStatement := by rwa [h.advance.current]
    rw [toStatement_of_ne hk']
    exact h.advance

omit [Arithmetic α] in
/-- Both have read the same token, which agrees with the table that both have. -/
theorem settled (h : Twins e e') (hs : e.Settled) : e'.Settled := by
  obtain ⟨hready, hnewline, hcoherent⟩ := hs
  have hstream := h.stream
  refine ⟨?_, ?_, ?_⟩
  · rwa [Ready, hstream]
  · rwa [h.current, hstream]
  · rwa [h.current, h.alike.table]

end Twins

/-- Being twins is a way to compare evaluations. -/
theorem comparison_twins :
    Comparison (α := α) 0 [] [] fun e e' => Twins e e' ∧ e.Settled where
  settled h := ⟨h.2, h.1.settled h.2⟩
  content h := Or.inl (by rw [h.1.current])
  advance h _ := ⟨h.1.advance, h.2.advance⟩
  alike h := h.1.alike
  act h halike hfaces _ := ⟨⟨h.1.ready, h.1.stream, halike⟩, h.2.act hfaces⟩

/-- Twins find the same statements, and are twins again at the end of the input. -/
theorem lockstep_twins : Lockstep (α := α) Twins Twins := by
  refine comparison_twins.simulation.lockstep (fun {e e'} h => ?_) And.left
  have htwins := h.toStatement
  by_cases hk : e.toStatement.current.kind = .finish
  · exact Or.inr ⟨hk, htwins.current ▸ hk, htwins⟩
  · exact Or.inl ⟨hk, htwins, h.ready.settled_toStatement⟩

end DeskCalc
