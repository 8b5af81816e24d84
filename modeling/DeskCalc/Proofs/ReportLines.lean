import DeskCalc.Proofs.Concatenation
import DeskCalc.Proofs.Script

/-!
# The lines of reports

The line is counted while tokens are read, and what is wrong with a statement may show only when all
of it was read. Still every report of a statement is on the line of its first token: a line break
that ends the statement is counted when the token behind it is read, and not before.

* `Evaluation.SameLine` — the line did not change, and all that was reported is on it. A production
  leaves the line (`Reaches.sameLine`), and so does a statement from its first token on
  (`Ready.sameLine_statement`).
* `Evaluation.EndsOn` — the line that the input is going to end on, which nothing changes.
* `StandBehind` — where lexemes stand in a text.
* `Session.reports_on_lines` — the lines of all reports of a text.
-/

namespace DeskCalc

variable {α : Type} [Arithmetic α]

namespace Evaluation

/-! ## Staying on a line -/

/-- The line did not change, and all that was reported is on it. -/
structure SameLine (e e' : Evaluation α) : Prop where
  line : e'.session.log.line = e.session.log.line
  reports : Extends (fun r => r.line = e.session.log.line) e.reports e'.reports

variable {e e' e'' : Evaluation α}

omit [Arithmetic α] in
theorem SameLine.refl (e : Evaluation α) : e.SameLine e := ⟨rfl, .refl _ _⟩

omit [Arithmetic α] in
theorem SameLine.trans (h : e.SameLine e') (h' : e'.SameLine e'') : e.SameLine e'' :=
  ⟨h'.line.trans h.line, h.reports.trans (h'.reports.mono fun _ hr => hr.trans h.line)⟩

omit [Arithmetic α] in
theorem sameLine_report (problem : Problem) (e : Evaluation α) : e.SameLine (e.report problem) :=
  ⟨rfl, e.session.extends_report rfl⟩

omit [Arithmetic α] in
/-- What is not logged stays on the line. -/
theorem sameLine_of_log (h : e'.session.log = e.session.log) : e.SameLine e' := by
  refine ⟨by rw [h], ?_⟩
  rw [reports, reports, h]
  exact .refl _ _

end Evaluation

/-- What is wrong with a lexeme is reported on the line it is made a token on. -/
theorem Session.reports_token (l : Lexeme) (s : Session α) :
    Extends (fun r => r.line = s.log.line) s.log.history.toList
      (s.token l).2.log.history.toList := by
  refine ⟨_, (recites_token l s).reports, fun r hr => ?_⟩
  obtain ⟨l', hl', hr⟩ := List.mem_filterMap.1 hr
  obtain ⟨problem, -, rfl⟩ := Option.map_eq_some_iff.1 hr
  rw [List.mem_singleton.1 hl']

/-- Where no line break is to be counted, reading a token stays on the line. -/
theorem TokenStream.reports_scan (t : TokenStream α) (s : Session α)
    (h : t.newlinePending = false) :
    (t.scan s).2.2.log.line = s.log.line ∧
      Extends (fun r => r.line = s.log.line) s.log.history.toList
        (t.scan s).2.2.log.history.toList := by
  unfold scan
  simp only [h, Bool.false_eq_true, if_false]
  -- the end, a lexeme, or a failure of the source
  split
  · exact ⟨rfl, .refl _ _⟩
  · split
    · exact ⟨Evaluation.line_token _ s, s.reports_token _⟩
    · exact ⟨rfl, .refl _ _⟩
    · exact ⟨rfl, s.extends_report rfl⟩

namespace Evaluation

variable {e e' e'' : Evaluation α}

/-- Within a statement, taking a token stays on the line. -/
theorem Settled.sameLine_advance (h : e.Settled) (hk : e.current.kind.endsStatement = false) :
    e.SameLine e.advance := by
  obtain ⟨hline, hreports⟩ := e.stream.reports_scan e.session (h.newlinePending hk)
  rcases hscan : e.stream.scan e.session with ⟨token, t, s⟩
  rw [hscan] at hline hreports
  rw [h.ready.advance_eq hscan]
  exact ⟨hline, hreports⟩

theorem Settled.sameLine_step (h : e.Settled) (hstep : Step e e') : e.SameLine e' := by
  cases hstep with
  | advance _ hk => exact h.sameLine_advance hk
  | report problem => exact sameLine_report problem e
  | assign ha => exact sameLine_of_log (Session.log_assign ha)
  | draw => exact sameLine_of_log rfl

/-- A production stays on its line, as it takes no token that ends a statement. -/
theorem Reaches.sameLine (h : Reaches e e') (hs : e.Settled) : e.SameLine e' := by
  induction h with
  | refl => exact .refl e
  | tail hreach step ih => exact ih.trans ((hreach.settled hs).sameLine_step step)

/-- Skipping stops at the end of the line at the latest. -/
theorem Settled.sameLine_skip (h : e.Settled) : e.SameLine e.skip := by
  fun_induction Evaluation.skip e with
  | case1 e _ => exact .refl e
  | case2 e hk ih => exact (h.sameLine_advance (by simpa using hk)).trans (ih h.advance)

/-- The end of a statement stays on its line. -/
theorem Settled.sameLine_conclude (h : e.Settled) (count : Nat) :
    e.SameLine (e.conclude count) := by
  unfold conclude
  split
  · exact .refl e
  · split
    · exact (sameLine_report _ e).trans (Settled.sameLine_skip (h.of_view (view_fail _ e)))
    · exact h.sameLine_skip

/-- An assignment, and the refusal of one, stay on the line. -/
theorem sameLine_assign (index : Nat) (value : α) (e : Evaluation α) :
    e.SameLine (e.assign index value).2 := by
  unfold assign
  split
  · next ha => exact sameLine_of_log (Session.log_assign ha)
  · exact sameLine_report _ e

/-- Remembering a result stays on the line. -/
theorem sameLine_rememberStatement (statement : Statement α) (e : Evaluation α) :
    e.SameLine (e.rememberStatement statement) := by
  cases statement with
  | assignment value => exact .refl e
  | expression value =>
    -- the last result may get a place first, which is not logged
    have hintern : e.SameLine { e with session := (e.session.intern SymbolTable.last).2 } :=
      sameLine_of_log rfl
    exact hintern.trans (sameLine_assign (e.session.intern SymbolTable.last).1 value _)

/-- From its first token on, a statement stays on its line. -/
theorem Ready.sameLine_statement (h : e.Ready) : e.toStatement.SameLine e.statement.2 := by
  by_cases hk : e.toStatement.current.kind = .finish
  · rw [statement_of_finish hk]
    exact .refl _
  · rw [statement_of_ne_finish hk]
    -- the body, what is left over and the last result stay on the line one after another
    have hs := h.settled_toStatement
    have hbody := hs.reaches_body
    exact (hbody.sameLine hs).trans (((hbody.settled hs).sameLine_conclude _).trans
      (sameLine_rememberStatement _ _))

/-! ## Up to the first token -/

/-- Looking for a statement reports problems of reading. -/
theorem extends_toStatement (e : Evaluation α) :
    Extends (fun r => r.ofReading = true) e.reports e.toStatement.reports := by
  fun_induction toStatement e with
  | case1 e _ ih => exact e.extends_advance.trans ih
  | case2 e _ => exact e.extends_advance

/-- A text is left, and it ends on the line. -/
def EndsOn (e : Evaluation α) (line : Nat) : Prop :=
  ∃ cs, e.Holds .nothing cs ∧ e.lastLine cs = line

variable {line : Nat}

/-- Taking a token leaves the line that the text ends on, and at the end the line is that one. -/
theorem EndsOn.advance (h : e.EndsOn line) : e.advance.EndsOn line ∧
    (e.advance.current.kind = .finish →
      e.advance.session.log.line = line ∧ e.advance.reports = e.reports) := by
  obtain ⟨cs, hholds, hline⟩ := h
  have hdrained := LineSource.drained_nothing
  -- a lexeme takes its line breaks along; without one there are none left to count
  cases hl : Lexeme.next? cs with
  | some r =>
    obtain ⟨l, cs'⟩ := r
    exact ⟨⟨cs', (hholds.advance_of_some hl).2.2.1, (hholds.lastLine_of_some hl).trans hline⟩,
      fun hk => absurd hk (hholds.kind_ne_finish hl)⟩
  | none =>
    obtain ⟨-, hsession, hrest, hpending⟩ := hholds.advance_of_none hdrained hl
    have hlast := (hholds.line_of_none hdrained hl).trans hline
    refine ⟨⟨[], hrest, ?_⟩, fun _ => ⟨hlast, ?_⟩⟩
    · rw [lastLine, reading_of_not_pending hpending]
      exact hlast
    · rw [reports, hsession, e.eq_of_reading.2.2]
      rfl

/-- Taking any number of tokens leaves the line that the text ends on. -/
theorem EndsOn.iterate_advance (h : e.EndsOn line) (n : Nat) :
    (Evaluation.advance^[n] e).EndsOn line := by
  induction n generalizing e with
  | zero => exact h
  | succ n ih => exact ih h.advance.1

/-- A statement leaves the line that the text ends on. -/
theorem EndsOn.statement (h : e.EndsOn line) (hready : e.Ready) : e.statement.2.EndsOn line := by
  obtain ⟨blanks, -, hadvance, -, -⟩ := e.tokens_toStatement
  obtain ⟨run, -, -, hadvance', -, -⟩ := e.toStatement.tokens_skip
  -- a statement leaves the stream and the line that skipping its tokens leaves
  obtain ⟨cs, hholds, hline⟩ : e.toStatement.skip.EndsOn line := by
    rw [hadvance', hadvance]
    exact (h.iterate_advance _).iterate_advance _
  have hstream := hready.read_statement.1
  refine ⟨cs, ?_, ?_⟩
  · rw [Evaluation.Holds, hstream]
    exact hholds
  · rw [lastLine, reading_of_pending rfl, hstream, hready.line_statement, ← reading_of_pending rfl]
    exact hline

theorem EndsOn.after (h : e.EndsOn line) (hready : e.Ready) (i : Nat) :
    (e.after i).EndsOn line := by
  induction i generalizing e with
  | zero => exact h
  | succ i ih => exact ih (h.statement hready) hready.statement

omit [Arithmetic α] in
/-- A text ends on the line behind its last line break. -/
theorem endsOn_start (text : String) (s : Session α) :
    (s.start (.ofText text)).EndsOn (lineBreaks text + 1) :=
  ⟨text.toList, holds_start text _, s.lastLine_start text⟩

end Evaluation

/-! ## Where lexemes stand -/

/-- Behind the given part of the text the lexemes are those of what is left, which starts with the
first of them. -/
def StandBehind (before text : List Char) (ls : List (Lexeme × Nat)) : Prop :=
  ∃ behind, text = before ++ behind ∧ lexemes (before.count '\n' + 1) behind = ls ∧
    ∀ c ∈ behind.head?, c = '\n' ∨ Text.isBlank c = false

/-- The blanks in front of the first lexeme. -/
theorem Lexeme.exists_blanks (cs : List Char) :
    ∃ blanks behind, cs = blanks ++ behind ∧ '\n' ∉ blanks ∧ next? behind = next? cs ∧
      ∀ c ∈ behind.head?, c = '\n' ∨ Text.isBlank c = false := by
  induction cs with
  | nil => exact ⟨[], [], rfl, by simp, rfl, by simp⟩
  | cons c cs ih =>
    -- a line break is a lexeme, although it is blank
    by_cases hc : c = '\n'
    · exact ⟨[], c :: cs, rfl, by simp, rfl, by simp [hc]⟩
    · cases hblank : Text.isBlank c with
      | false => exact ⟨[], c :: cs, rfl, by simp, rfl, by simp [hblank]⟩
      | true =>
        obtain ⟨blanks, behind, rfl, hno, hnext, hhead⟩ := ih
        refine ⟨c :: blanks, behind, rfl, ?_, ?_, hhead⟩
        · simpa [hno] using Ne.symm hc
        · rw [hnext, next?_blank hc hblank]

/-- Every lexeme of a text stands somewhere in it, on the line that it comes with. -/
theorem exists_before {line : Nat} {cs : List Char} {front more : List (Lexeme × Nat)}
    {l : Lexeme × Nat} (h : lexemes line cs = front ++ l :: more) :
    ∃ before behind, cs = before ++ behind ∧ l.2 = before.count '\n' + line ∧
      lexemes l.2 behind = l :: more ∧ ∀ c ∈ behind.head?, c = '\n' ∨ Text.isBlank c = false := by
  -- by induction on the lexemes in front, each of which takes a part of the text with it
  induction front generalizing line cs with
  | nil =>
    obtain ⟨blanks, behind, rfl, hno, hnext, hhead⟩ := Lexeme.exists_blanks cs
    rw [← lexemes_congr hnext] at h
    have hline : l.2 = line := by
      cases hl : Lexeme.next? behind with
      | none => rw [lexemes_of_none hl] at h; cases h
      | some r => rw [lexemes_of_some hl] at h; cases h; rfl
    exact ⟨blanks, behind, rfl, by rw [List.count_eq_zero.2 hno, hline, Nat.zero_add],
      hline ▸ h, hhead⟩
  | cons first front ih =>
    cases hl : Lexeme.next? cs with
    | none => rw [lexemes_of_none hl] at h; cases h
    | some r =>
      obtain ⟨first', rest⟩ := r
      rw [lexemes_of_some hl, List.cons_append, List.cons.injEq] at h
      obtain ⟨before, behind, hrest, hline, hmore, hhead⟩ := ih h.2
      -- the first lexeme takes a line break with it if it is one
      have hcount := Lexeme.count_of_next? hl
      obtain ⟨taken, rfl⟩ := Lexeme.isSuffix_of_next? hl
      rw [List.count_append] at hcount
      refine ⟨taken ++ before, behind, by rw [hrest, List.append_assoc], ?_, hmore, hhead⟩
      rw [hline, List.count_append]
      by_cases hn : first' = .newline
      · rw [if_pos hn] at hcount ⊢
        omega
      · rw [if_neg hn] at hcount ⊢
        omega

/-! ## The lines of all reports -/

open Evaluation

/-- What goes on with a statement is no problem. -/
theorem lexicalReports_of_goes_on {ls : List (Lexeme × Nat)} (h : ∀ l ∈ ls, l.1.ends = false) :
    lexicalReports ls = [] := by
  refine List.filterMap_eq_nil_iff.2 fun l hl => ?_
  rw [Lexeme.problem?_eq_none (h l hl)]
  rfl

namespace Evaluation

variable {e : Evaluation α} {line : Nat}

/-- The reports that come up between the statements are those of what is no token. -/
theorem EndsOn.since_toStatement (h : e.EndsOn line) (hready : e.Ready) :
    ∃ gap more, e.script = gap ++ more ∧ (∀ l ∈ gap, l.1.ends = true) ∧
      e.since e.toStatement = lexicalReports gap := by
  obtain ⟨gap, e₀, hgap, hpasses, hstart, hnext⟩ := hready.passes_toStatement
  have hreports : e₀.reports = e.reports ++ lexicalReports gap := hpasses.recites.reports
  have hend : e₀.EndsOn line := by
    rw [hpasses.advance]
    exact h.iterate_advance _
  -- the token behind the gap is no problem, and the end of a text is none
  have hadvance : e₀.advance.reports = e₀.reports := by
    rcases hnext with hfinish | ⟨l, hl, hends⟩
    · exact (hend.advance.2 hfinish.kind).2
    · have hnone : lexicalReports [l] = [] := lexicalReports_of_goes_on (by simpa using hends)
      exact hl.passes.recites.reports.trans (by rw [hnone, List.append_nil]; rfl)
  refine ⟨gap, _, hpasses.script, hgap, ?_⟩
  rw [hstart, since, hadvance, hreports, List.drop_left]

/-- Behind the call that finds no statement, the line is that on which the text ends. -/
theorem EndsOn.line_of_none (h : e.EndsOn line) (hready : e.Ready) (hs : e.statement.1 = none) :
    e.statement.2.session.log.line = line := by
  have hk : e.toStatement.current.kind = .finish := by
    by_contra hk
    rw [statement_of_ne_finish hk] at hs
    cases hs
  -- only separators stand in front of the end, each of which is a token to be taken
  obtain ⟨gap, e₀, -, hpasses, hstart, -⟩ := hready.passes_toStatement
  have hend : e₀.EndsOn line := by
    rw [hpasses.advance]
    exact h.iterate_advance _
  rw [statement_of_finish hk, hstart]
  rw [hstart] at hk
  exact (hend.advance.2 hk).1

/-- The statement with some number is made of the stretch with its number. -/
theorem Ready.exists_stretch (h : e.Ready) {i : Nat} (hs : (e.after i).statement.1.isSome = true) :
    ∃ front run more, e.script = front ++ run ++ more ∧ run ≠ [] ∧
      stretches e.script = stretches front ++ run :: stretches more ∧
      (stretches front).length = i ∧
      ∀ l ∈ run.head?, l.2 = (e.after i).toStatement.session.log.line := by
  have hk : (e.after i).toStatement.current.kind ≠ .finish := by
    intro hk
    rw [statement_of_finish hk] at hs
    cases hs
  obtain ⟨done, hdone⟩ := h.exists_done i
  obtain ⟨gap, run, stop, hscans⟩ := (h.after i).exists_scans hk
  have hfront := stretches_append_gap hscans.gap_ends done
  -- each statement before this one has taken one stretch
  have hlength : (stretches done).length = i := by
    have hlt := Nat.lt_of_not_le (mt (h.finish_after_iff i).2 hk)
    rw [hdone.stretches_done, List.length_take]
    omega
  refine ⟨done ++ gap, run, stop.toList ++ (e.after i).statement.2.script, ?_, hscans.ne_nil, ?_,
    by rw [hfront, hlength], hscans.line⟩
  · rw [hdone.script, hscans.script]
    simp
  · have hmore : stretches (stop.toList ++ (e.after i).statement.2.script) =
        stretches (e.after i).statement.2.script :=
      stretches_gap_append (by simpa using hscans.stop_ends) _
    rw [hfront, hmore, ← hscans.stretches_eq, hdone.stretches_left, hdone.stretches_done,
      List.take_append_drop]

/-- The reports of some number of statements. -/
theorem Ready.reports_after (h : e.Ready) (n : Nat) :
    (e.after n).reports = e.reports ++ (List.range n).flatMap fun i =>
      (e.after i).since (e.after i).toStatement ++
        (e.after i).toStatement.since (e.after i).statement.2 := by
  induction n with
  | zero => exact (List.append_nil _).symm
  | succ n ih =>
    have hfirst := (extends_toStatement (e.after n)).isPrefix
    have hsecond := (h.after n).reports_statement
    -- what one more statement adds comes in two parts, before and from its first token on
    rw [List.range_succ, List.flatMap_append, ← List.append_assoc, ← ih, List.flatMap_singleton,
      ← List.append_assoc, reports_append_since hfirst, reports_append_since hsecond, after_succ_eq]

end Evaluation

namespace Session

/-- What the reports of a text have to do with its lines. -/
structure ReportsOnLines (s : Session α) (text : String) : Prop where
  /-- The statement with some number is the stretch with its number, and all that is reported from
  its first token on is on the line of that token. -/
  statement : ∀ i, ((s.start (.ofText text)).after i).statement.1.isSome = true →
    ∃ front run more before, lexemes 1 text.toList = front ++ run ++ more ∧
      stretches (lexemes 1 text.toList) = stretches front ++ run :: stretches more ∧
      (stretches front).length = i ∧ StandBehind before text.toList (run ++ more) ∧
      ∀ r ∈ ((s.start (.ofText text)).after i).toStatement.since
        ((s.start (.ofText text)).after i).statement.2, r.line = before.count '\n' + 1
  /-- What is reported while a statement is looked for is no token, and it is on its own line. -/
  gap : ∀ i, ∀ r ∈ ((s.start (.ofText text)).after i).since
      ((s.start (.ofText text)).after i).toStatement,
    ∃ front l more before, lexemes 1 text.toList = front ++ l :: more ∧
      stretches (lexemes 1 text.toList) = stretches front ++ stretches more ∧
      l.1.problem? = some r.problem ∧ StandBehind before text.toList (l :: more) ∧
      r.line = before.count '\n' + 1
  /-- Nothing else is reported. -/
  complete : (s.evaluate text).2.reports = s.reports ++
    (List.range ((s.evaluate text).1.length + 1)).flatMap fun i =>
      ((s.start (.ofText text)).after i).since ((s.start (.ofText text)).after i).toStatement ++
        ((s.start (.ofText text)).after i).toStatement.since
          ((s.start (.ofText text)).after i).statement.2
  line : (s.evaluate text).2.log.line = text.toList.count '\n' + 1
  /-- A run that comes to the end of the text leaves the same session. -/
  run : ∀ w, (s.run (.ofText text) w).1 = .ok () →
    (s.run (.ofText text) w).2.2 = (s.evaluate text).2

/-- Every report of a statement is on the line of its first token, every other one on the line of
what is no token, and behind a text the line is that on which it ends. -/
theorem reports_on_lines (s : Session α) (text : String) : s.ReportsOnLines text := by
  have hscript : (s.start (.ofText text)).script = lexemes 1 text.toList :=
    script_start_ofText text s.resetLine
  have hready : (s.start (.ofText text)).Ready := ready_start _ _
  have hend := endsOn_start text s
  have hafter := statements_eq_after (s.start (.ofText text))
  constructor
  -- a statement: its reports are on its line, and its first lexeme says which that is
  · intro i hs
    obtain ⟨front, run, more, hall, hne, hstretches, hlength, hline⟩ := hready.exists_stretch hs
    obtain ⟨l, run, rfl⟩ := List.exists_cons_of_ne_nil hne
    rw [hscript] at hall hstretches
    have hplace := hall
    rw [List.append_assoc, List.cons_append] at hplace
    obtain ⟨before, behind, htext, hline', hrest, hhead⟩ := exists_before hplace
    refine ⟨front, l :: run, more, before, hall, hstretches, hlength,
      ⟨behind, htext, by rw [← hline', hrest]; rfl, hhead⟩, fun r hr => ?_⟩
    rw [of_mem_since (hready.after i).sameLine_statement.reports hr, ← hline', hline l rfl]
  -- between statements: the report comes of one lexeme of the gap
  · intro i r hr
    obtain ⟨gap, more, hall, hgap, hreports⟩ :=
      (hend.after hready i).since_toStatement (hready.after i)
    obtain ⟨done, hdone⟩ := hready.exists_done i
    rw [hreports] at hr
    obtain ⟨l, hl, hr⟩ := List.mem_filterMap.1 hr
    obtain ⟨problem, hproblem, rfl⟩ := Option.map_eq_some_iff.1 hr
    obtain ⟨first, second, rfl⟩ := List.append_of_mem hl
    have hplace : lexemes 1 text.toList = (done ++ first) ++ l :: (second ++ more) := by
      rw [← hscript, hdone.script, hall]
      simp
    obtain ⟨before, behind, htext, hline, hrest, hhead⟩ := exists_before hplace
    refine ⟨done ++ first, l, second ++ more, before, hplace, ?_, hproblem,
      ⟨behind, htext, by rw [← hline, hrest], hhead⟩, hline⟩
    rw [hplace, stretches_append_cons (hgap l hl)]
  · show (s.start (.ofText text)).statements.2.reports = _
    rw [hafter, hready.reports_after]
    rfl
  · have hnone : ((s.start (.ofText text)).after
        (s.start (.ofText text)).statements.1.length).statement.1 = none := by
      rw [hready.statement_after, List.getElem?_eq_none (Nat.le_refl _)]
    show (s.start (.ofText text)).statements.2.session.log.line = _
    rw [hafter, after_succ_eq]
    exact (hend.after hready _).line_of_none (hready.after _) hnone
  · intro w hok
    exact congrArg Evaluation.session (run_of_ok (e := s.start (.ofText text)) hok)

end Session

end DeskCalc
