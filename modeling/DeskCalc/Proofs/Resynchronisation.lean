import DeskCalc.Double.Checked
import DeskCalc.Proofs.Runs

/-!
# Statements and runs

Reading a source statement by statement takes the same tokens as reading it to its end without
evaluating anything, however wrong the statements are: there is a statement for every run of tokens,
and it ends with the token that ends the run.

* `Evaluation.Between` — what holds between two statements.
* `Between.tokens_statement` — one statement takes the first run that is left.
* `Evaluation.after` — some number of statements later. `Between.after_run` says where that is.
* `resynchronises` — all of it, for a source that is read from its start.
-/

namespace DeskCalc

variable {α : Type} [Arithmetic α]

namespace Evaluation

/-! ## Between two statements -/

/-- The table has a place for the last result. -/
def KnowsLast (e : Evaluation α) : Prop :=
  (e.session.table.indexOf? SymbolTable.last).isSome = true

omit [Arithmetic α] in
theorem KnowsLast.mono {e e' : Evaluation α} (h : e.KnowsLast)
    (hfaces : e.session.table.faces <+: e'.session.table.faces) : e'.KnowsLast := by
  obtain ⟨more, hmore⟩ := hfaces
  unfold KnowsLast at h ⊢
  rw [SymbolTable.indexOf?_eq_findIdx?, List.findIdx?_isSome] at h ⊢
  rw [← hmore, List.any_append, h, Bool.true_or]

/-- What holds between two statements. -/
structure Between (e : Evaluation α) : Prop where
  ready : e.Ready
  knowsLast : e.KnowsLast
  /-- At the end of the input there is nothing to be taken any more. -/
  finish : e.current.kind = .finish → e.advance.view = e.view

/-- At its start, an evaluation is between two statements. -/
theorem between_start (source : LineSource) {session : Session α}
    (h : (session.table.indexOf? SymbolTable.last).isSome = true) :
    (start source session).Between :=
  ⟨rfl, h, fun hk => by cases hk⟩

/-- Behind any number of tokens, nothing is looked at ahead. -/
theorem Ready.iterate_advance {e : Evaluation α} (h : e.Ready) (n : Nat) :
    (Evaluation.advance^[n] e).Ready := by
  induction n generalizing e with
  | zero => exact h
  | succ n ih => exact ih h.settled_advance.ready

theorem faces_iterate_advance (e : Evaluation α) (n : Nat) :
    e.session.table.faces <+: (Evaluation.advance^[n] e).session.table.faces := by
  induction n generalizing e with
  | zero => exact List.prefix_rfl
  | succ n ih => exact (faces_advance e).trans (ih e.advance)

/-- Behind a move along the tokens there is nothing to be taken where the input has come to its
end. -/
theorem Ready.finish_iterate {e : Evaluation α} (h : e.Ready) {n : Nat}
    (hk : (Evaluation.advance^[n + 1] e).current.kind = .finish) :
    (Evaluation.advance^[n + 1] e).advance = Evaluation.advance^[n + 1] e := by
  rw [Function.iterate_succ_apply'] at hk ⊢
  exact (h.iterate_advance n).advance_of_finish hk

/-- The tokens behind a state between two statements are the tokens to come, but for the end of the
input, which may come again. -/
theorem Between.runs_remaining {e : Evaluation α} (h : e.Between) :
    runs e.tokens.1 = runs e.remaining.1 ∧ e.tokens.2.view = e.remaining.2.view := by
  by_cases hk : e.current.kind = .finish
  -- once at the end, the end is read again, and ends have no runs
  · have hview := h.finish hk
    have hk' : e.advance.current.kind = .finish := by rwa [current_of_view hview]
    rw [remaining_of_finish hk, tokens_eq, remaining_of_finish hk']
    refine ⟨?_, hview⟩
    exact runs_of_forall_ends (by simp [hk', TokenKind.endsStatement])
  · rw [remaining_of_ne hk]
    exact ⟨rfl, rfl⟩

/-! ## One statement -/

/-- What a statement does along the tokens to come: it passes over ends of statements, takes the
first run and ends with the token behind that. -/
structure Takes (e : Evaluation α) (blanks run : List (Token α)) : Prop where
  blanks_end : ∀ t ∈ blanks, t.kind.endsStatement = true
  ne_nil : run ≠ []
  run_goes_on : ∀ t ∈ run, t.kind.endsStatement = false
  upcoming : e.toStatement.upcoming = run.map Token.content
  isSome : e.statement.1.isSome = true
  ends : e.statement.2.current.kind.endsStatement = true
  tokens : e.tokens.1 = blanks ++ run ++ e.statement.2.current :: e.statement.2.remaining.1
  last : e.tokens.2.view = e.statement.2.remaining.2.view
  view : e.statement.2.view = (Evaluation.advance^[blanks.length + run.length + 1] e).view

/-- What remains depends on what was read alone. -/
theorem remaining_congr {e e' : Evaluation α} (h : e.view = e'.view) :
    e.remaining.1 = e'.remaining.1 ∧ e.remaining.2.view = e'.remaining.2.view := by
  unfold remaining
  rw [current_of_view h]
  split
  · exact ⟨rfl, h⟩
  · exact tokens_congr h

/-- Where the end of the input comes before another run, there is no statement, and the end of the
input is reached. -/
theorem tokens_of_finish {e : Evaluation α} (hk : e.toStatement.current.kind = .finish) :
    runs e.tokens.1 = [] ∧ e.statement.1 = none ∧ e.statement.2 = e.tokens.2 := by
  -- all tokens in front of the end were passed over as ends of statements
  obtain ⟨blanks, hblanks, -, hfirst, hsecond⟩ := tokens_toStatement e
  rw [remaining_of_finish hk] at hfirst hsecond
  rw [statement_of_finish hk, hsecond, hfirst]
  refine ⟨runs_of_forall_ends fun t ht => ?_, rfl, rfl⟩
  rcases List.mem_append.1 ht with ht | ht
  · exact hblanks t ht
  · rw [List.mem_singleton.1 ht, hk]
    rfl

/-- A statement takes the first run that is left. -/
theorem Between.exists_takes {e : Evaluation α} (h : e.Between)
    (hk : e.toStatement.current.kind ≠ .finish) : ∃ blanks run, e.Takes blanks run := by
  obtain ⟨blanks, hblanks, hadvance, hfirst, hsecond⟩ := tokens_toStatement e
  obtain ⟨run, hrun, hup, hadvance', hfirst', hsecond'⟩ := tokens_skip e.toStatement
  have hskip : e.toStatement.skip =
      Evaluation.advance^[blanks.length + run.length + 1] e := by
    rw [hadvance', hadvance, ← Function.iterate_add_apply]
    congr 1
    omega
  -- taking tokens only adds names, so the last result has its place still
  have hlast : e.toStatement.skip.KnowsLast := by
    rw [hskip]
    exact h.knowsLast.mono (faces_iterate_advance e _)
  have hview := h.ready.view_statement hlast
  have hcurrent := current_of_view hview
  obtain ⟨hremaining, hremaining'⟩ := remaining_congr hview
  refine ⟨blanks, run, hblanks, ?_, hrun, hup.symm, ?_, ?_, ?_, ?_, ?_⟩
  · rintro rfl
    exact hk ((upcoming_toStatement_eq_nil_iff e).1 hup.symm)
  · rw [statement_of_ne_finish hk]
    rfl
  · rw [hcurrent]
    exact endsStatement_skip _
  · rw [hfirst, hfirst', hcurrent, hremaining, List.append_assoc]
  · rw [hsecond, hsecond', hremaining']
  · rw [hview, hskip]

/-- Behind a statement, the evaluation is between two statements again. -/
theorem Takes.between {e : Evaluation α} {blanks run : List (Token α)} (ht : e.Takes blanks run)
    (h : e.Between) : e.statement.2.Between := by
  refine ⟨h.ready.statement, ?_, fun hk => ?_⟩
  · have hfaces := congrArg (fun v => v.session.faces) ht.view
    refine h.knowsLast.mono ?_
    rw [show e.statement.2.session.table.faces = _ from hfaces]
    exact faces_iterate_advance e _
  -- a statement sees what taking its tokens sees, so the end of the input is an end for both
  · rw [view_advance ht.view, ht.view]
    rw [current_of_view ht.view] at hk
    rw [h.ready.finish_iterate hk]

/-- A statement takes away the first run. -/
theorem Takes.runs_eq {e : Evaluation α} {blanks run : List (Token α)} (ht : e.Takes blanks run)
    (h : e.Between) : runs e.tokens.1 = run :: runs e.statement.2.tokens.1 ∧
      e.tokens.2.view = e.statement.2.tokens.2.view := by
  obtain ⟨hruns, hview⟩ := (ht.between h).runs_remaining
  rw [ht.tokens, runs_blanks_append ht.blanks_end ht.ne_nil ht.run_goes_on ht.ends, hruns, ht.last,
    hview]
  exact ⟨rfl, rfl⟩

/-- The next statement is missing just when no run is left. -/
theorem Between.statement_eq_none_iff {e : Evaluation α} (h : e.Between) :
    e.statement.1 = none ↔ runs e.tokens.1 = [] := by
  -- the end of the input has no run; any other first token starts one
  by_cases hk : e.toStatement.current.kind = .finish
  · obtain ⟨hruns, hnone, -⟩ := tokens_of_finish hk
    simp [hruns, hnone]
  · obtain ⟨blanks, run, ht⟩ := h.exists_takes hk
    have hsome := ht.isSome
    rw [(ht.runs_eq h).1]
    cases hs : e.statement.1 with
    | none => simp [hs] at hsome
    | some statement => simp

/-! ## All statements -/

/-- There is a statement for every run, and the last one leaves the view that the tokens leave. -/
theorem Between.statements_eq {e : Evaluation α} (h : e.Between) :
    e.statements.1.length = (runs e.tokens.1).length ∧
      e.statements.2.view = e.tokens.2.view := by
  -- by induction on the runs that are left, of which each statement takes the first one
  induction hr : runs e.tokens.1 generalizing e with
  | nil =>
    have hnone := h.statement_eq_none_iff.2 hr
    have hk : e.toStatement.current.kind = .finish := by
      by_contra hk
      rw [statement_of_ne_finish hk] at hnone
      cases hnone
    rw [statements_of_none hnone, (tokens_of_finish hk).2.2]
    exact ⟨rfl, rfl⟩
  | cons run rest ih =>
    have hk : e.toStatement.current.kind ≠ .finish := by
      intro hk
      rw [(tokens_of_finish hk).1] at hr
      cases hr
    obtain ⟨blanks, run', ht⟩ := h.exists_takes hk
    obtain ⟨hruns, hview⟩ := ht.runs_eq h
    obtain ⟨statement, hsome⟩ := Option.isSome_iff_exists.1 ht.isSome
    rw [hr] at hruns
    obtain ⟨hlength, hlast⟩ := ih (ht.between h) (List.cons.inj hruns).2.symm
    rw [statements_of_some hsome, hview]
    exact ⟨congrArg (· + 1) hlength, hlast⟩

/-- The evaluation some number of statements later. -/
def after (i : Nat) (e : Evaluation α) : Evaluation α := (fun e => e.statement.2)^[i] e

theorem after_succ (i : Nat) (e : Evaluation α) : after (i + 1) e = after i e.statement.2 := rfl

/-- Any number of statements later, the evaluation is between two statements. -/
theorem Between.after {e : Evaluation α} (h : e.Between) (i : Nat) : (e.after i).Between := by
  induction i generalizing e with
  | zero => exact h
  | succ i ih =>
    rw [after_succ]
    -- at the end of the input a missing statement leaves a state of the same sort
    by_cases hk : e.toStatement.current.kind = .finish
    · refine ih ⟨h.ready.statement, ?_, fun hk' => ?_⟩
      · rw [statement_of_finish hk]
        obtain ⟨blanks, -, hadvance, -⟩ := tokens_toStatement e
        rw [hadvance]
        exact h.knowsLast.mono (faces_iterate_advance e _)
      · rw [statement_of_finish hk] at hk' ⊢
        obtain ⟨blanks, -, hadvance, -⟩ := tokens_toStatement e
        rw [hadvance] at hk' ⊢
        rw [h.ready.finish_iterate hk']
    · obtain ⟨blanks, run, ht⟩ := h.exists_takes hk
      exact ih (ht.between h)

/-- A run among the tokens to come, and what the statement with its number has to do with it. -/
structure Matches (e : Evaluation α) (i : Nat) (before run : List (Token α)) (stop : Token α)
    (behind : List (Token α)) : Prop where
  tokens : e.tokens.1 = before ++ run ++ stop :: behind
  runs_before : runs before = (runs e.tokens.1).take i
  isSome : (e.after i).statement.1.isSome = true
  /-- The statement is made of the tokens of the run. -/
  upcoming : (e.after i).toStatement.upcoming = run.map Token.content
  ends : stop.kind.endsStatement = true
  /-- Behind the statement, the end of the run is the current token. -/
  current : (e.after (i + 1)).current = stop
  /-- All tokens up to there were taken and no others, and the view is as if they had been taken
  without being evaluated. -/
  view : (e.after (i + 1)).view =
    (Evaluation.advance^[before.length + run.length + 1] e).view

/-- Every run has its statement. -/
theorem Between.exists_matches {e : Evaluation α} (h : e.Between) {i : Nat}
    {run : List (Token α)} (hi : (runs e.tokens.1)[i]? = some run) :
    ∃ before stop behind, e.Matches i before run stop behind := by
  -- by induction on the number of the run: one statement takes the first, and the others come
  -- behind
  induction i generalizing e with
  | zero =>
    have hk : e.toStatement.current.kind ≠ .finish := by
      intro hk
      simp [(tokens_of_finish hk).1] at hi
    obtain ⟨blanks, run', ht⟩ := h.exists_takes hk
    rw [(ht.runs_eq h).1, List.getElem?_cons_zero, Option.some.injEq] at hi
    subst hi
    exact ⟨blanks, _, _, ht.tokens, runs_of_forall_ends ht.blanks_end, ht.isSome, ht.upcoming,
      ht.ends, rfl, ht.view⟩
  | succ i ih =>
    have hk : e.toStatement.current.kind ≠ .finish := by
      intro hk
      simp [(tokens_of_finish hk).1] at hi
    obtain ⟨blanks, first, ht⟩ := h.exists_takes hk
    have hruns := (ht.runs_eq h).1
    rw [hruns, List.getElem?_cons_succ] at hi
    obtain ⟨before, stop, behind, hm⟩ := ih (ht.between h) hi
    -- the input has not come to its end, or no run would be left
    have hne : e.statement.2.current.kind ≠ .finish := by
      intro hfinish
      rw [(ht.between h).runs_remaining.1, remaining_of_finish hfinish] at hi
      simp at hi
    refine ⟨blanks ++ first ++ e.statement.2.current :: before, stop, behind, ?_, ?_, hm.isSome,
      hm.upcoming, hm.ends, hm.current, ?_⟩
    · rw [ht.tokens, remaining_of_ne hne, hm.tokens]
      simp
    · rw [runs_blanks_append ht.blanks_end ht.ne_nil ht.run_goes_on ht.ends, hruns,
        hm.runs_before]
      rfl
    · rw [after_succ, hm.view, view_iterate_advance ht.view, ← Function.iterate_add_apply]
      congr 2
      simp
      omega

/-! ## Resynchronisation -/

/-- The evaluation has moved along the run ahead of the other one, past none but tokens of the
run. -/
def Within (e e' : Evaluation α) : Prop :=
  ∃ n ≤ e.upcoming.length, e'.view = (Evaluation.advance^[n] e).view ∧
    e'.upcoming = e.upcoming.drop n

/-- The production of any level, a call, an assignment and the body of a statement move along the
run ahead. -/
structure StaysWithin (e : Evaluation α) : Prop where
  produce : ∀ l, e.Within (e.produce l).2
  call : ∀ function index, e.Within (e.call function index).2
  assignment : e.current.kind = .equals → ∀ index, e.Within (e.assignment index).2
  body : e.Settled → e.Within e.body.2

/-- All productions stay within the run ahead. -/
theorem staysWithin (e : Evaluation α) : e.StaysWithin where
  -- a production reaches where it stops, so that is some tokens further along
  produce l := by
    cases l with
    | expression => exact (reaches_expression e).exists_iterate
    | term => exact (reaches_term e).exists_iterate
    | factor => exact (reaches_factor e).exists_iterate
    | power => exact (reaches_power e).exists_iterate
    | primary => exact (reaches_primary e).exists_iterate
  call function index := (Production.call function index e).2.exists_iterate
  assignment h index := (reaches_assignment index h).exists_iterate
  body hs := hs.reaches_body.exists_iterate

end Evaluation

open Evaluation

/-- Statement by statement, the tokens of a source are taken as they are without statements: to the
same end, with the same names in the same places and the same reports of reading. The statements are
the runs, each ends where its run ends, and there is none just when nothing but ends of statements
is left. No production moves past the end of its statement. -/
theorem resynchronises (source : LineSource) {session : Session α}
    (hlast : (session.table.indexOf? SymbolTable.last).isSome = true) :
    (start source session).statements.2.view = (start source session).tokens.2.view ∧
      (start source session).statements.1.length = (runs (start source session).tokens.1).length ∧
      (∀ i run, (runs (start source session).tokens.1)[i]? = some run →
        ∃ before stop behind, (start source session).Matches i before run stop behind) ∧
      (∀ i, ((start source session).after i).statement.1 = none ↔
        ∀ t ∈ ((start source session).after i).tokens.1, t.kind.endsStatement = true) ∧
      ∀ e : Evaluation α, e.StaysWithin := by
  have h := between_start source hlast
  -- between two statements what the runs are is known, and it is known at the start
  obtain ⟨hlength, hview⟩ := h.statements_eq
  refine ⟨hview, hlength, fun i run hi => h.exists_matches hi, fun i => ?_, staysWithin⟩
  rw [(h.after i).statement_eq_none_iff]
  exact ⟨forall_ends_of_runs, runs_of_forall_ends⟩

/-- Three runs: a call that lacks most of its parts, operands without operators, and what cannot
start a statement. -/
def malformed (draws : Draws α) : Evaluation α :=
  start (.ofText "atan2 ( 1;x y\n)) last") (Session.new "hoc" .silent draws)

theorem knowsLast_malformed : (malformed (Double.draws 0)).KnowsLast := by
  unfold KnowsLast
  decide +kernel

/-- There are three statements for the three runs, although each is wrong. -/
theorem resynchronises_malformed :
    (malformed (Double.draws 0)).KnowsLast ∧
      (malformed (Double.draws 0)).statements.2.view =
        (malformed (Double.draws 0)).tokens.2.view ∧
      (malformed (Double.draws 0)).statements.1.length =
        (runs (malformed (Double.draws 0)).tokens.1).length := by
  have hlast := knowsLast_malformed
  obtain ⟨hview, hlength, -⟩ := resynchronises (.ofText "atan2 ( 1;x y\n)) last") hlast
  exact ⟨hlast, hview, hlength⟩

end DeskCalc
