import DeskCalc.Proofs.Reachable
import DeskCalc.Proofs.Refinement
import DeskCalc.Proofs.Syntax.Gaps
import DeskCalc.Proofs.Syntax.Totality

/-!
# The parser accepts its grammar

A statement reports no problem of syntax if the grammar derives its tokens, and it reports something
if the grammar does not. What it reports does not make up for anything: a problem of evaluation
hides a token that is left over, but then there is that problem.

* `reports_advance_eq`, `Reaches.reports_view` — in front of the end of a statement reading reports
  nothing.
* `extends_skip_lexical` — at the end of a statement it reports at most what is no token.
* `countP_syntactic` — where a tree takes the whole run, there is a report for each of its gaps.
* `Reachable.accepts_exactly` — the two directions, and what is reported of tokens left over.
-/

namespace DeskCalc

variable {α : Type} [Arithmetic α]

/-- The grammar derives the run as a statement. -/
def Derivable (ts : List (Content α)) : Prop := ∃ t : Sentence α, t.Complete ∧ t.yield = ts

/-! ## Reports of reading -/

namespace Evaluation

/-- The tokens of the run are coherent with the table when they have all been read. -/
theorem Settled.proper_upcoming {e : Evaluation α} (hs : e.Settled) :
    Proper e.skip.session.table.faces e.upcoming := by
  -- by the tokens of the run; the table that all of them have been read into knows more names
  fun_induction upcoming e with
  | case1 e _ => exact fun c hc => absurd hc (by simp)
  | case2 e hk ih =>
    have hk : e.current.kind.endsStatement = false := by simpa using hk
    intro c hc
    rcases List.mem_cons.1 hc with rfl | hc
    · exact ⟨hs.coherent.mono (faces_skip e), hk⟩
    · rw [← skip_advance hk]
      exact ih hs.advance c hc

variable {e : Evaluation α}

/-- What a statement reports is what its body reports and what its end does. -/
theorem Reachable.reports_statement_eq (h : e.Reachable)
    (hne : e.toStatement.current.kind ≠ .finish) :
    e.statement.2.reports =
      (e.toStatement.body.2.conclude e.toStatement.session.errorCount).reports := by
  obtain ⟨hready, -, htable⟩ := h.ready_intact
  -- the table is one in which the last result can be assigned, so remembering it does not report
  have hbody := hready.settled_toStatement.reaches_body.table
    (table_reads e.reads_toStatement htable)
  rw [statement_of_ne_finish hne]
  exact reports_rememberStatement _ (table_conclude _ hbody)

/-- The productions stop in front of a token of the statement, and they report nothing. -/
def Leftover (e : Evaluation α) : Prop :=
  e.body.2.current.kind.endsStatement = false ∧
    e.body.2.session.errorCount = e.session.errorCount

/-- How the reports that a statement adds, from its first token on, go with its tokens. -/
structure Verdict (start : Evaluation α) (new : List Report) : Prop where
  /-- A statement that the grammar derives has no problem of syntax, whatever its values are. -/
  accepts : Derivable start.upcoming → ∀ r ∈ new, r.kind ≠ .syntactic
  /-- One that it does not derive has some problem that is not one of reading. -/
  rejects : ¬ Derivable start.upcoming → ∃ r ∈ new, r.ofReading = false
  leftover_iff : (∃ r ∈ new, ∃ token, r.problem = .unexpectedToken token) ↔ start.Leftover
  /-- The report of what is left over names the first token of it, and all other reports are
  lexical. -/
  leftover : start.Leftover → new.filter (fun r => r.kind ≠ .lexical) =
    [⟨start.body.2.session.log.line, .unexpectedToken start.body.2.current.kind.text⟩]

/-- What the report calls the token that is left over tells its kind, which of the built-in
functions it is apart. -/
theorem Verdict.kind_of_unexpected {start : Evaluation α} {new : List Report}
    (h : start.Verdict new) {r : Report} (hr : r ∈ new) {kind : TokenKind}
    (hproblem : r.problem = .unexpectedToken kind.text) :
    kind = start.body.2.current.kind ∨
      kind.arity?.isSome = true ∧ start.body.2.current.kind.arity?.isSome = true := by
  have hleftover := h.leftover (h.leftover_iff.1 ⟨r, hr, _, hproblem⟩)
  have hmem : r ∈ new.filter fun r => r.kind ≠ .lexical :=
    List.mem_filter.2 ⟨hr, by simp [Report.kind, hproblem, Problem.kind]⟩
  rw [hleftover, List.mem_singleton] at hmem
  -- of the reports that are not lexical there is this one only, and it spells the token out
  have htext : kind.text = start.body.2.current.kind.text :=
    Problem.unexpectedToken.inj (hproblem.symm.trans (congrArg Report.problem hmem))
  exact TokenKind.text_eq_iff.1 htext

end Evaluation

end DeskCalc
