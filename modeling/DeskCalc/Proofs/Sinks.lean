import DeskCalc.Proofs.Concatenation
import DeskCalc.Proofs.Display
import DeskCalc.Proofs.Lockstep

/-!
# Whether anyone is looking

Where reports are shown makes no difference to anything else. Whatever is done with a session, it
gives the same answers and is left in the same state, be it silent, be there someone who sees
everything, or be there room for some bytes only.

* `Session.Action`, `Effect` — what can be done with a session, and what comes of it.
* `Session.acts` — a sequence of actions, with the session behind each of them.
* `Session.unseen` — a session but for where it shows its reports; `Twins` are the evaluations in
  sessions of which this is the same.
* `Session.acts_unseen` — no action can tell them apart.
* `Session.sink_only_shows` — and what is seen are the reports, and nothing else.
-/

namespace DeskCalc

variable {α : Type}

namespace Session

/-- What can be done with a session. -/
inductive Action where
  | run (source : LineSource) (w : Writer)
  | evaluate (text : String)
  | report (problem : Problem)

/-- What comes of an action, the session apart. -/
inductive Effect (α : Type) where
  | ran (result : Except String Unit) (w : Writer)
  | evaluated (statements : List (Statement α))
  | reported

/-- The session, but for where it shows its reports. -/
def unseen (s : Session α) : Session α := { s with log := { s.log with sink := .silent } }

/-- Sessions of one program are the same but for their sinks if they are alike in all reports. -/
theorem Alike.unseen_eq {s s' : Session α} (h : Alike 0 [] [] s s')
    (hprogram : s'.log.program = s.log.program) : s'.unseen = s.unseen := by
  obtain ⟨htable, hdraws, hline, new, hnew, hnew'⟩ := h
  rw [Report.map_later_zero] at hnew'
  have hhistory : s'.log.history = s.log.history := Array.toList_inj.1 (by rw [hnew, hnew'])
  have hcount : s'.log.errors = s.log.errors := by rw [s'.log.counted, s.log.counted, hhistory]
  simp only [unseen, htable, hdraws, hline, hprogram, hhistory, hcount, Nat.add_zero]

/-- Sessions are alike where they are the same but for what has been shown. -/
theorem alike_of_unseen {s s' : Session α} (h : s'.unseen = s.unseen) : Alike 0 [] [] s s' := by
  simp only [unseen, Session.mk.injEq, ErrorLog.mk.injEq] at h
  obtain ⟨htable, ⟨-, hline, -, hhistory, -⟩, hdraws⟩ := h
  refine ⟨htable, hdraws, hline, s.log.history.toList, rfl, ?_⟩
  rw [hhistory, Report.map_later_zero]
  rfl

theorem Alike.resetLine {s s' : Session α} (h : Alike 0 [] [] s s') :
    Alike 0 [] [] s.resetLine s'.resetLine :=
  ⟨h.table, h.draws, rfl, h.reports⟩

variable [Arithmetic α]

def act (action : Action) (s : Session α) : Effect α × Session α :=
  match action with
  | .run source w =>
    let (result, w, s) := s.run source w
    (.ran result w, s)
  | .evaluate text =>
    let (statements, s) := s.evaluate text
    (.evaluated statements, s)
  | .report problem => (.reported, s.report problem)

/-- The effects of some actions one after another, with the session behind each of them. -/
def acts : List Action → Session α → List (Effect α × Session α)
  | [], _ => []
  | action :: actions, s => s.act action :: acts actions (s.act action).2

/-! ## Nothing depends on the sink -/

omit [Arithmetic α] in
theorem twins_start {s s' : Session α} (h : Alike 0 [] [] s s') (source : LineSource) :
    Twins (s.start source) (s'.start source) :=
  ⟨rfl, rfl, h.resetLine⟩

/-- An action has the same effect, and leaves sessions that are alike. -/
theorem Alike.act {s s' : Session α} (h : Alike 0 [] [] s s') (action : Action) :
    (s'.act action).1 = (s.act action).1 ∧ Alike 0 [] [] (s.act action).2 (s'.act action).2 := by
  cases action with
  | run source w =>
    obtain ⟨hresult, hprinted, hend⟩ := lockstep_twins.run (twins_start h source) w
    have halike : Alike 0 [] [] ((s.start source).run w).2.2.session
        ((s'.start source).run w).2.2.session := by
      -- the run came to the end or broke off, and left twins either way
      rcases hend with ⟨-, htwins⟩ | ⟨-, htwins⟩
      · exact htwins.alike
      · exact htwins.alike
    refine ⟨?_, halike⟩
    show Effect.ran ((s'.start source).run w).1 ((s'.start source).run w).2.1 = _
    rw [hresult, hprinted]
    rfl
  | evaluate text =>
    obtain ⟨hstatements, htwins⟩ := lockstep_twins.statements (twins_start h (.ofText text))
    exact ⟨congrArg Effect.evaluated hstatements, htwins.alike⟩
  | report problem => exact ⟨rfl, h.report problem⟩

/-- What happens to a session in an action happens to an evaluation in it by moves. -/
theorem leads_act (action : Action) (e : Evaluation α) :
    ∃ e', Evaluation.Leads e e' ∧ e'.session = (e.session.act action).2 := by
  -- a run and an evaluation start by switching the source
  cases action with
  | run source w =>
    exact ⟨_, (Evaluation.Move.switch source e).leads.trans (Evaluation.leads_run w _), rfl⟩
  | evaluate text =>
    exact ⟨_, (Evaluation.Move.switch (.ofText text) e).leads.trans (Evaluation.leads_statements _),
      rfl⟩
  | report problem => exact ⟨_, (Evaluation.Move.report problem e).leads, rfl⟩

/-- Every session on the way is that of an evaluation which the first one leads to. -/
theorem leads_acts (actions : List Action) (e : Evaluation α) :
    ∀ step ∈ e.session.acts actions, ∃ e', Evaluation.Leads e e' ∧ e'.session = step.2 := by
  induction actions generalizing e with
  | nil => exact fun step hstep => absurd hstep List.not_mem_nil
  | cons action actions ih =>
    -- by induction on the actions; only the session is handed on from one to the next
    obtain ⟨e', hleads, hsession⟩ := leads_act action e
    intro step hstep
    rw [acts, ← hsession, List.mem_cons] at hstep
    rcases hstep with rfl | hstep
    · exact ⟨e', hleads, hsession⟩
    · obtain ⟨e'', hleads', hsession'⟩ := ih e' step hstep
      exact ⟨e'', hleads.trans hleads', hsession'⟩

theorem program_act (action : Action) (s : Session α) :
    (s.act action).2.log.program = s.log.program := by
  obtain ⟨e, hleads, hsession⟩ := leads_act action (.start .nothing s)
  have hprogram := hleads.continues.program
  rw [hsession] at hprogram
  exact hprogram

/-- Whatever is done, sessions that are the same but for their sinks have the same effects and are
the same but for their sinks behind every step. -/
theorem acts_unseen (actions : List Action) {s s' : Session α} (h : s'.unseen = s.unseen) :
    (s'.acts actions).map (Prod.map id unseen) = (s.acts actions).map (Prod.map id unseen) := by
  induction actions generalizing s s' with
  | nil => rfl
  | cons action actions ih =>
    -- by induction on the actions, which keep the sessions the same but for the sinks
    obtain ⟨heffect, halike⟩ := (alike_of_unseen h).act action
    have hprogram : s'.log.program = s.log.program := congrArg (fun s => s.log.program) h
    have hunseen : (s'.act action).2.unseen = (s.act action).2.unseen :=
      halike.unseen_eq (by rw [program_act, program_act, hprogram])
    rw [acts, acts, List.map_cons, List.map_cons, ih hunseen, Prod.map, Prod.map, heffect, hunseen]

end Session

/-! ## What is seen -/

variable [Arithmetic α]

open Evaluation Session

/-- The account that a session of a program gives of its reports, if it started with the sink. -/
structure Evaluation.Accounts (program : String) (sink : Sink) (e : Evaluation α) : Prop where
  count : e.session.errorCount = e.reports.length
  /-- Whatever happens next, the reports stay and others come behind them. -/
  grows (e' : Evaluation α) : Leads e e' → e.reports <+: e'.reports
  /-- Starting on another source is no report, and neither is starting on its first line. -/
  switch (source : LineSource) : (e.switch source).reports = e.reports ∧
    (e.switch source).session.errorCount = e.session.errorCount
  resetLine : e.session.resetLine.reports = e.reports ∧
    e.session.resetLine.errorCount = e.session.errorCount
  /-- A writer that was new has the first bytes of the reports, each shown on a line of its own. -/
  written (room : Option Nat) (flushFails : Bool) : sink = .writer (.new room flushFails) →
    e.session.log.sink.written =
      Writer.firstBytes room (Report.allShown program e.reports).toUTF8
  program : e.session.log.program = program

theorem Evaluation.Leads.accounts {program : String} {sink : Sink} {draws : Draws α}
    {source : LineSource} {e : Evaluation α}
    (h : Leads (.start source (Session.new program sink draws)) e) : e.Accounts program sink where
  program := h.continues.program
  count := e.length_reports.symm
  grows _ h' := h'.continues.isPrefix
  switch _ := ⟨rfl, rfl⟩
  resetLine := ⟨rfl, rfl⟩
  -- the log goes on from the new one, and a log that goes on has shown what it recorded
  written room flushFails hsink := by
    subst hsink
    exact ErrorLog.Continues.written h.continues

/-- A session can be silent, show everything, or show as much as there is room for: no action can
tell, nor anything behind it. And at every point of whatever happens, between the actions and inside
of them, it accounts for its reports. -/
theorem Session.sink_only_shows (program : String) (draws : Draws α) (actions : List Action) :
    (∀ sink sink', ((new program sink' draws).acts actions).map (Prod.map id unseen) =
      ((new program sink draws).acts actions).map (Prod.map id unseen)) ∧
    ∀ sink source,
      (∀ step ∈ (new program sink draws).acts actions,
        ∃ e, Leads (.start source (new program sink draws)) e ∧ e.session = step.2) ∧
      ∀ e, Leads (.start source (new program sink draws)) e → e.Accounts program sink :=
  ⟨fun _ _ => acts_unseen actions rfl, fun _ source =>
    ⟨leads_acts actions (.start source _), fun _ => Leads.accounts⟩⟩

end DeskCalc
