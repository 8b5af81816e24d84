import DeskCalc.Proofs.Boundaries

/-!
# Printing

Running an input is evaluating it and printing what the statements show. As long as printing does
not fail, the two do not get in each other's way.

* `Writer.endless` — the writers that never fail, by what was written to them.
* `Statement.shown` — the text that a statement shows.
* `Session.run_endless` — a run prints what the statements show that evaluating gives, and leaves
  the session that evaluating leaves.
-/

namespace DeskCalc

/-- A writer that never fails, with the given bytes written to it. -/
def Writer.endless (bytes : ByteArray) : Writer := ⟨bytes, none, false⟩

theorem Writer.write_endless (text : String) (bytes : ByteArray) :
    (endless bytes).write text = (.ok (), endless (bytes ++ text.toUTF8)) := by
  have hall : text.toUTF8.extract 0 text.toUTF8.size = text.toUTF8 := ByteArray.extract_zero_size
  simp only [write, endless, fitting, if_true, hall]
  rfl

variable {α : Type} [Arithmetic α]

/-- The text that a statement shows. -/
def Statement.shown : Statement α → String
  | .expression value => "\t" ++ Arithmetic.format value ++ "\n"
  | .assignment _ => ""

/-- An endless writer takes every statement. -/
theorem Statement.print_endless (statement : Statement α) (bytes : ByteArray) :
    statement.print (.endless bytes) = (.ok (), .endless (bytes ++ statement.shown.toUTF8)) := by
  cases statement with
  | expression value =>
    unfold Statement.print
    simp only [Writer.write_endless]
    rfl
  | assignment value =>
    show (Except.ok (), Writer.endless bytes) = _
    rw [show (Statement.assignment value).shown.toUTF8 = .empty from rfl, ByteArray.append_empty]

/-- The bytes of what some statements show, behind those that were written before. -/
def printed (bytes : ByteArray) (statements : List (Statement α)) : ByteArray :=
  statements.foldl (fun bytes statement => bytes ++ statement.shown.toUTF8) bytes

theorem printed_append (bytes : ByteArray) (first second : List (Statement α)) :
    printed bytes (first ++ second) = printed (printed bytes first) second :=
  List.foldl_append

namespace Evaluation

theorem run_of_none {e : Evaluation α} (h : e.statement.1 = none) (w : Writer) :
    e.run w = (.ok (), w, e.statement.2) := by
  rw [run]
  split
  · next e' hs => rw [hs]
  · next hs => rw [hs] at h; cases h

/-- A run goes on behind a statement that is printed. -/
theorem run_of_some {e : Evaluation α} {statement : Statement α}
    (h : e.statement.1 = some statement) {w w' : Writer}
    (hprint : statement.print w = (.ok (), w')) :
    e.run w = e.statement.2.run w' := by
  rw [run]
  split
  -- without a statement there would be nothing to print
  · next hs => rw [hs] at h; cases h
  · next hs =>
    rw [hs] at h ⊢
    cases h
    rw [hprint]

/-- A run stops behind a statement that cannot be printed. -/
theorem run_of_failed {e : Evaluation α} {statement : Statement α}
    (h : e.statement.1 = some statement) {w w' : Writer} {message : String}
    (hprint : statement.print w = (.error message, w')) :
    e.run w = (.error message, w', e.statement.2) := by
  rw [run]
  split
  · next hs => rw [hs] at h; cases h
  · next hs =>
    rw [hs] at h ⊢
    cases h
    rw [hprint]

/-- A run is evaluation and printing. -/
theorem run_endless (e : Evaluation α) (bytes : ByteArray) :
    e.run (.endless bytes) = (.ok (), .endless (printed bytes e.statements.1), e.statements.2) := by
  induction hn : e.pending using Nat.strongRecOn generalizing e bytes with
  | _ n ih =>
    cases hs : e.statement.1 with
    | none =>
      rw [run_of_none hs, statements_of_none hs]
      rfl
    | some statement =>
      -- printing does not fail, so the run goes on with what the statement left
      have hlt := pending_statement_of_some hs
      rw [run_of_some hs (statement.print_endless bytes), statements_of_some hs,
        ih _ (by omega) _ _ rfl]
      rfl

/-- Where printing does not fail, a run comes to the end of the statements. -/
theorem run_of_ok {e : Evaluation α} {w : Writer} (h : (e.run w).1 = .ok ()) :
    (e.run w).2.2 = e.statements.2 := by
  -- the induction is on what is to come, as in the loop
  induction hn : e.pending using Nat.strongRecOn generalizing e w with
  | _ n ih =>
    cases hs : e.statement.1 with
    | none => rw [run_of_none hs, statements_of_none hs]
    | some statement =>
      have hlt := pending_statement_of_some hs
      rcases hprint : statement.print w with ⟨message | _, w'⟩
      · rw [run_of_failed hs hprint] at h
        cases h
      · rw [run_of_some hs hprint] at h ⊢
        rw [statements_of_some hs, ih _ (by omega) h rfl]

end Evaluation

namespace Session

/-- A run prints what the statements show, and leaves the session that evaluating leaves. -/
theorem run_endless (s : Session α) (text : String) (bytes : ByteArray) :
    s.run (.ofText text) (.endless bytes) =
      (.ok (), .endless (printed bytes (s.evaluate text).1), (s.evaluate text).2) := by
  unfold run
  rw [Evaluation.run_endless]
  rfl

end Session

end DeskCalc
