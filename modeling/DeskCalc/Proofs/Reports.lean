import DeskCalc.Proofs.Boundaries

/-!
# The log only grows

Whatever an evaluation does, it adds reports and takes none back, and what it adds tells what it
did.

* `Extends` — a log with more reports, all of some kind.
* `Evaluation.extends_advance` — taking a token adds reports of reading.
* `Reaches.extends_reports` — a production adds these and reports of evaluation.
* `extends_conclude` — only the end of a statement reports a token that was not expected.
* `Evaluation.since` — the reports that were added since some earlier state.
-/

namespace DeskCalc

variable {α : Type}

/-- More reports were added at the end, all with the given property. -/
def Extends (P : Report → Prop) (rs rs' : List Report) : Prop :=
  ∃ new : List Report, rs' = rs ++ new ∧ ∀ r ∈ new, P r

namespace Extends

variable {P Q : Report → Prop} {rs rs' rs'' : List Report}

theorem refl (P : Report → Prop) (rs : List Report) : Extends P rs rs := ⟨[], by simp⟩

/-- What is added later is added to the first log, too. -/
theorem trans (h : Extends P rs rs') (h' : Extends P rs' rs'') : Extends P rs rs'' := by
  obtain ⟨new, rfl, hnew⟩ := h
  obtain ⟨new', rfl, hnew'⟩ := h'
  refine ⟨new ++ new', by rw [List.append_assoc], fun r hr => ?_⟩
  rcases List.mem_append.1 hr with hr | hr
  · exact hnew r hr
  · exact hnew' r hr

theorem mono (h : Extends P rs rs') (hPQ : ∀ r, P r → Q r) : Extends Q rs rs' := by
  obtain ⟨new, hrs, hnew⟩ := h
  exact ⟨new, hrs, fun r hr => hPQ r (hnew r hr)⟩

theorem isPrefix (h : Extends P rs rs') : rs <+: rs' := by
  obtain ⟨new, rfl, -⟩ := h
  exact List.prefix_append rs new

end Extends

/-- The report came up while reading or while evaluating. -/
def Report.Usual (r : Report) : Prop := r.ofReading = true ∨ r.problem.ofEvaluation = true

namespace Evaluation

/-- The reports so far, oldest first. -/
def reports (e : Evaluation α) : List Report := e.session.log.history.toList

theorem length_reports (e : Evaluation α) : e.reports.length = e.session.errorCount := by
  simp [reports, Session.errorCount, ErrorLog.count_eq]

theorem reports_report (problem : Problem) (e : Evaluation α) :
    (e.report problem).reports = e.reports ++ [⟨e.session.log.line, problem⟩] := by
  simp [reports, report, Session.report, ErrorLog.report]

end Evaluation

/-! ## Reading -/

namespace Session

/-- An assignment is not logged. -/
theorem log_assign {s s' : Session α} {index : Nat} {value : α}
    (h : s.assign index value = .ok s') : s'.log = s.log := by
  unfold assign at h
  cases ht : s.table.assign index value with
  | error error => simp [ht, Except.map] at h
  | ok table =>
    simp only [ht, Except.map, Except.ok.injEq] at h
    rw [← h]

theorem extends_report {problem : Problem} {P : Report → Prop} (s : Session α)
    (h : P ⟨s.log.line, problem⟩) :
    Extends P s.log.history.toList (s.report problem).log.history.toList :=
  ⟨[⟨s.log.line, problem⟩], by simp [report, ErrorLog.report], by simpa using h⟩

variable [Arithmetic α]

/-- Making a token reports what is wrong with its lexeme, and nothing else. -/
theorem extends_token (l : Lexeme) (s : Session α) :
    Extends (fun r => r.ofReading = true) s.log.history.toList
      (s.token l).2.log.history.toList := by
  cases l with
  | newline => exact .refl _ _
  | mark kind => exact .refl _ _
  | stray c => exact s.extends_report rfl
  -- a numeral without digits has no value, and that is reported
  | number n =>
    cases hv : n.value? with
    | none =>
      simp only [token, hv]
      exact s.extends_report rfl
    | some v =>
      simp only [token, hv]
      exact .refl _ _
  | name chars => exact .refl _ _

end Session

variable [Arithmetic α]

/-- Reading a token reports problems of reading only. -/
theorem TokenStream.extends_scan (t : TokenStream α) (s : Session α) :
    Extends (fun r => r.ofReading = true) s.log.history.toList
      (t.scan s).2.2.log.history.toList := by
  -- counting a line does not report
  have hnext : (if t.newlinePending then s.nextLine else s).log.history = s.log.history := by
    split <;> rfl
  unfold scan
  simp only
  rw [← hnext]
  generalize (if t.newlinePending then s.nextLine else s) = r
  split
  · exact .refl _ _
  · split
    · exact Session.extends_token _ r
    · exact .refl _ _
    · exact r.extends_report rfl

namespace Evaluation

/-- Taking a token reports problems of reading only. -/
theorem extends_advance (e : Evaluation α) :
    Extends (fun r => r.ofReading = true) e.reports e.advance.reports := by
  obtain ⟨t, s⟩ := e
  unfold advance TokenStream.advance
  simp only
  cases t.lookahead with
  -- a token that was looked at ahead was reported when it was read
  | some token => exact .refl _ _
  | none => exact t.extends_scan s

/-- Skipping the rest of a statement reports problems of reading only. -/
theorem extends_skip (e : Evaluation α) :
    Extends (fun r => r.ofReading = true) e.reports e.skip.reports := by
  fun_induction skip e with
  | case1 e _ => exact .refl _ _
  | case2 e _ ih => exact e.extends_advance.trans ih

/-! ## Evaluating -/

/-- A step reports what came up while reading or evaluating. -/
theorem Step.extends_reports {e e' : Evaluation α} (h : Step e e') :
    Extends Report.Usual e.reports e'.reports := by
  -- only taking a token and reporting a problem of evaluation add to the log
  cases h with
  | advance => exact e.extends_advance.mono fun r hr => Or.inl hr
  | report problem _ hp => exact e.session.extends_report (Or.inr hp)
  | assign ha =>
    simp only [reports, Session.log_assign ha]
    exact .refl _ _
  | draw => exact .refl _ _

/-- A production reports what came up while reading or evaluating. -/
theorem Reaches.extends_reports {e e' : Evaluation α} (h : Reaches e e') :
    Extends Report.Usual e.reports e'.reports := by
  induction h with
  | refl => exact .refl _ _
  | tail _ step ih => exact ih.trans step.extends_reports

/-- The end of a statement may report the token it found instead. -/
theorem extends_conclude (count : Nat) (e : Evaluation α) :
    Extends (fun r => r.ofReading = true ∨ r.problem = .unexpectedToken e.current.kind.text)
      e.reports (e.conclude count).reports := by
  unfold conclude
  split
  · exact .refl _ _
  -- the first token that is left over is reported if nothing else was
  · split
    · exact (e.session.extends_report (Or.inr rfl)).trans
        ((extends_skip _).mono fun r hr => Or.inl hr)
    · exact e.extends_skip.mono fun r hr => Or.inl hr

/-- Remembering a result can fail only as an assignment does. -/
theorem extends_rememberStatement (statement : Statement α) (e : Evaluation α) :
    Extends Report.Usual e.reports (e.rememberStatement statement).reports := by
  cases statement with
  | assignment value => exact .refl _ _
  | expression value =>
    exact (reaches_assign (e.session.intern SymbolTable.last).1 value
      { e with session := (e.session.intern SymbolTable.last).2 }).extends_reports

/-- A statement adds to the log and leaves the rest of it alone. -/
theorem Ready.reports_statement {e : Evaluation α} (h : e.Ready) :
    e.toStatement.reports <+: e.statement.2.reports := by
  by_cases hk : e.toStatement.current.kind = .finish
  · have hsame : e.statement.2 = e.toStatement := by rw [statement_of_finish hk]
    exact hsame ▸ List.prefix_rfl
  · rw [statement_of_ne_finish hk]
    have hbody := h.settled_toStatement.reaches_body.extends_reports
    have hend := extends_conclude e.toStatement.session.errorCount e.toStatement.body.2
    -- the body, the end of the statement and the last result each add to the log
    exact hbody.isPrefix.trans
      (hend.isPrefix.trans (extends_rememberStatement _ _).isPrefix)

/-! ## The reports that were added -/

/-- The reports that were added since some earlier state. -/
def since (e e' : Evaluation α) : List Report := e'.reports.drop e.reports.length

omit [Arithmetic α] in
/-- With the reports that were added, the earlier ones make up the later ones. -/
theorem reports_append_since {e e' : Evaluation α} (h : e.reports <+: e'.reports) :
    e.reports ++ e.since e' = e'.reports := by
  obtain ⟨more, hmore⟩ := h
  rw [since, ← hmore, List.drop_left]

omit [Arithmetic α] in
/-- What is added has the property of all that is added. -/
theorem of_mem_since {P : Report → Prop} {e e' : Evaluation α} (h : Extends P e.reports e'.reports)
    {r : Report} (hr : r ∈ e.since e') : P r := by
  obtain ⟨new, hrs, hnew⟩ := h
  rw [since, hrs, List.drop_left] at hr
  exact hnew r hr

omit [Arithmetic α] in
/-- What was added in two parts was added together. -/
theorem since_append {e e' e'' : Evaluation α} (h : e.reports <+: e'.reports)
    (h' : e'.reports <+: e''.reports) : e.since e'' = e.since e' ++ e'.since e'' := by
  rw [since.eq_1 e e'', ← reports_append_since h', ← reports_append_since h, List.append_assoc,
    List.drop_left]

omit [Arithmetic α] in
/-- Of the reports that were added, the view gained those of reading and the memory the others. -/
theorem reports_since {e e' : Evaluation α} (h : e.reports <+: e'.reports) :
    e'.view.session.reports = e.view.session.reports ++ (e.since e').filter Report.ofReading ∧
      e'.memory.reports = e.memory.reports ++ (e.since e').filter fun r => !r.ofReading := by
  have hview : e'.view.session.reports = e'.reports.filter Report.ofReading := rfl
  have hmemory : e'.memory.reports = e'.reports.filter fun r => !r.ofReading := rfl
  rw [hview, hmemory, ← reports_append_since h]
  exact ⟨List.filter_append .., List.filter_append ..⟩

end Evaluation

end DeskCalc
