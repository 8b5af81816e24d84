import DeskCalc.Proofs.Over
import DeskCalc.Proofs.Sinks

/-!
# How an input ends

An input ends because its source has no more to give or because the source fails. Both are the end of
the input, and the failure is reported besides; that is all the difference it makes to the text in
front of it.

* `LineSource.Stops` — what becomes of asking a source for more behind a text.
* `Alongside` — two evaluations that read the same text, behind which their sources stop each in its
  own way. They go on in lockstep (`lockstep_alongside`) and take the same tokens (`SameTokens`)
  until the text has ended (`Stopped`).
* `Session.run_of_stops` — so the runs of two such sources only differ in how they end, and not at
  all if neither source fails (`LineSource.Contains.run`).
* `Session.asked_of_stops` — and so do their tokens.
-/

namespace DeskCalc

variable {α : Type} [Arithmetic α]

/-! ## Behind a text -/

/-- What becomes of asking a source for more behind a text: it is at its end, or it fails with a
message. -/
inductive LineSource.Stops : LineSource → Option String → Prop
  | drained {behind : LineSource} : behind.Drained → Stops behind none
  | failed {behind last : LineSource} {part : List Char} {message : String} :
    behind.read = (.failed part message, last) → Stops behind (some message)

/-- Behind the text there is no lexeme, but the end or the failure. -/
theorem LineSource.Stops.next {behind : LineSource} {message? : Option String}
    (h : behind.Stops message?) :
    ∃ last, LineSource.next [] behind = (match message? with
      | none => .finished
      | some message => .failed message, last) := by
  cases h with
  | drained hdrained => exact ⟨behind, hdrained.next rfl⟩
  | @failed last part message hread =>
    exact ⟨last, LineSource.next_of_read rfl hread⟩

/-- A source that has nothing left does not fail. -/
theorem LineSource.Stops.eq_none {behind : LineSource} {message? : Option String}
    (h : behind.Stops message?) (hdrained : behind.Drained) : message? = none := by
  cases h with
  | drained => rfl
  | failed hread =>
    rw [hdrained.read] at hread
    cases hread

/-- The session behind the end of an input. A failure of the source is reported. -/
def Session.stopped (message? : Option String) (s : Session α) : Session α :=
  match message? with
  | none => s
  | some message => s.report (.input message)

namespace Evaluation

variable {e e' : Evaluation α} {behind : LineSource} {message? : Option String} {cs : List Char}

/-- Where no lexeme is left, the input ends, and a failure of the source is reported. -/
theorem Holds.advance_of_stops (h : e.Holds behind cs) (hstops : behind.Stops message?)
    (hl : Lexeme.next? cs = none) :
    e.advance.current = .bare .finish e.reading.log.line ∧
      e.advance.session = e.reading.stopped message? ∧ e.advance.Ready ∧ e.advance.Over := by
  obtain ⟨hready, hsource, hexhausted⟩ := h
  have hnone : ∀ token, e.stream.lookahead = some token → token.kind = .finish := by
    intro token htoken
    cases hready.symm.trans htoken
  cases hx : e.stream.exhausted with
  | true =>
    -- the end has been met before, so the source did not fail
    obtain rfl := hstops.eq_none (hexhausted hx).2
    rw [Ready.advance_eq hready (scan_at_end hx)]
    exact ⟨rfl, rfl, hready, hx, rfl, hnone⟩
  | false =>
    rcases hsource.next with ⟨l, cs', rest', s', hl', -, -⟩ | ⟨-, hnext⟩
    · rw [hl] at hl'
      cases hl'
    · obtain ⟨last, hlast⟩ := hstops.next
      have hscan : e.stream.scan e.session = (.bare .finish e.reading.log.line,
          { e.stream with
            source := last, rest := [], exhausted := true, newlinePending := false },
          e.reading.stopped message?) := by
        cases message? with
        | none => exact scan_of_finished hx (hnext.trans hlast)
        | some message => exact scan_of_failed hx (hnext.trans hlast)
      rw [Ready.advance_eq hready hscan]
      exact ⟨rfl, rfl, hready, rfl, rfl, hnone⟩

end Evaluation

/-! ## The same text with different ends -/

open Evaluation Session

/-- A text that two sources hand out, and how they go on behind it: the first one comes to its end,
and the second one stops. -/
structure Endings where
  behind : LineSource
  behind' : LineSource
  message? : Option String
  /-- The line on which the text ends. -/
  lastLine : Nat
  drained : behind.Drained
  stops : behind'.Stops message?

/-- Whether a source that fails cannot do so within a statement: the text that is left ends in a
line break. -/
def Endings.Complete (p : Endings) (cs : List Char) : Prop :=
  cs.getLast? = some '\n' ∨ p.message? = none

/-- Both evaluations have the same text to read, and have read the same so far. -/
structure Alongside (p : Endings) (e e' : Evaluation α) : Prop where
  settled : e.Settled
  settled' : e'.Settled
  current : e'.current = e.current
  pending : e'.stream.newlinePending = e.stream.newlinePending
  alike : Alike 0 [] [] e.session e'.session
  text : ∃ cs, e.Holds p.behind cs ∧ e'.Holds p.behind' cs ∧ e.lastLine cs = p.lastLine ∧
    (cs = [] ∨ p.Complete cs) ∧ (e.current.kind.endsStatement = false → p.Complete cs)

/-- Both evaluations have come to the end of the text, and the second one may have reported that its
source fails. -/
structure Stopped (p : Endings) (e e' : Evaluation α) : Prop where
  ready : e.Ready
  ready' : e'.Ready
  ended : e.Over
  ended' : e'.Over
  finish : e.current.kind = .finish
  current : e'.current = e.current
  line : e.session.log.line = p.lastLine
  alike : Alike 0 [] [] (e.session.stopped p.message?) e'.session

namespace Alongside

variable {p : Endings} {e e' : Evaluation α}

omit [Arithmetic α] in
/-- The sessions are alike when the pending line break has been counted. -/
theorem reading (h : Alongside p e e') : Alike 0 [] [] e.reading e'.reading := by
  rw [Evaluation.reading, Evaluation.reading, h.pending]
  split
  · exact h.alike.nextLine
  · exact h.alike

/-- As long as there is text, the same token is taken. -/
theorem advance_of_some (h : Alongside p e e') {cs rest : List Char} {l : Lexeme}
    (hcs : e.Holds p.behind cs) (hcs' : e'.Holds p.behind' cs) (hline : e.lastLine cs = p.lastLine)
    (hcomplete : cs = [] ∨ p.Complete cs) (hl : Lexeme.next? cs = some (l, rest)) :
    Alongside p e.advance e'.advance := by
  obtain ⟨hcurrent, hsession, hrest, hpending⟩ := hcs.advance_of_some hl
  obtain ⟨hcurrent', hsession', hrest', hpending'⟩ := hcs'.advance_of_some hl
  obtain ⟨-, halike⟩ := h.reading.token l
  obtain ⟨htoken, -⟩ := token_congr h.reading.view l
  have hends : l = .newline → e.advance.current.kind.endsStatement = true := by
    rintro rfl
    rw [hcurrent]
    rfl
  -- what was the end of the text is still its end, unless it has just been taken
  have hcomplete' : p.Complete rest ∨ rest = [] ∧ l = .newline := by
    rcases hcomplete with rfl | hlast | hnone
    · cases hl
    · obtain ⟨l', rest', hl', hend⟩ := Lexeme.next?_of_getLast? hlast
      rw [hl] at hl'
      cases hl'
      exact hend.imp_left Or.inl
    · exact Or.inl (Or.inr hnone)
  refine ⟨h.settled.advance, h.settled'.advance, ?_, ?_, ?_, rest, hrest, hrest', ?_, ?_, ?_⟩
  · rw [hcurrent, hcurrent', htoken]
  · rw [hpending, hpending']
  · rwa [hsession, hsession']
  · exact (hcs.lastLine_of_some hl).trans hline
  · exact hcomplete'.elim Or.inr fun h => Or.inl h.1
  · intro hk
    rcases hcomplete' with hcomplete' | ⟨-, hnewline⟩
    · exact hcomplete'
    · rw [hends hnewline] at hk
      cases hk

/-- Where the text has ended, both evaluations stop. -/
theorem advance_of_none (h : Alongside p e e') {cs : List Char}
    (hcs : e.Holds p.behind cs) (hcs' : e'.Holds p.behind' cs) (hline : e.lastLine cs = p.lastLine)
    (hl : Lexeme.next? cs = none) : Stopped p e.advance e'.advance := by
  obtain ⟨hcurrent, hsession, hready, hover⟩ := hcs.advance_of_stops (.drained p.drained) hl
  obtain ⟨hcurrent', hsession', hready', hover'⟩ := hcs'.advance_of_stops p.stops hl
  have halike := h.reading
  -- the same end is read on both sides, and only then is the failure reported
  refine ⟨hready, hready', hover, hover', ?_, ?_, ?_, ?_⟩
  · rw [hcurrent]
    rfl
  · rw [hcurrent, hcurrent', halike.line]
    rfl
  · exact (hcs.line_of_none p.drained hl).trans hline
  · rw [hsession, hsession']
    show Alike 0 [] [] (e.reading.stopped p.message?) _
    unfold Session.stopped
    cases p.message? with
    | none => exact halike
    | some message => exact halike.report _

/-- Within a statement, both go on: if the source can fail, the line break is still to come. -/
theorem advance (h : Alongside p e e') (hk : e.current.kind.endsStatement = false) :
    Alongside p e.advance e'.advance := by
  obtain ⟨cs, hcs, hcs', hline, hcomplete, hgoes⟩ := h.text
  -- a lexeme is taken on both sides; without one, the text ends the statement and no source has
  -- failed
  cases hl : Lexeme.next? cs with
  | some r => exact h.advance_of_some hcs hcs' hline hcomplete hl
  | none =>
    rcases hgoes hk with hlast | hnone
    · obtain ⟨l, rest, hl', -⟩ := Lexeme.next?_of_getLast? hlast
      rw [hl] at hl'
      cases hl'
    · -- neither source fails, so the text ends the statement
      have hdrained : p.behind'.Drained := by
        have hstops := p.stops
        rw [hnone] at hstops
        cases hstops with
        | drained hdrained => exact hdrained
      have hstopped := h.advance_of_none hcs hcs' hline hl
      have halike := hstopped.alike
      rw [hnone] at halike
      obtain ⟨-, -, hrest, hpending⟩ := hcs.advance_of_none p.drained hl
      obtain ⟨-, -, hrest', hpending'⟩ := hcs'.advance_of_none hdrained hl
      refine ⟨h.settled.advance, h.settled'.advance, hstopped.current, ?_, halike, [], hrest,
        hrest', ?_, Or.inl rfl, fun _ => Or.inr hnone⟩
      · rw [hpending, hpending']
      · rw [lastLine, reading_of_not_pending hpending]
        exact hstopped.line

/-- Looking for a statement, both come upon the same one, or the text ends first. -/
theorem toStatement (h : Alongside p e e') :
    e.toStatement.current.kind ≠ .finish ∧ Alongside p e.toStatement e'.toStatement ∨
      e.toStatement.current.kind = .finish ∧ e'.toStatement.current.kind = .finish ∧
        Stopped p e.toStatement e'.toStatement := by
  -- by induction on the ends of statements that are passed over
  fun_induction Evaluation.toStatement e generalizing e' with
  | case1 e hk ih =>
    obtain ⟨cs, hcs, hcs', hline, hcomplete, -⟩ := h.text
    cases hl : Lexeme.next? cs with
    | some r =>
      have hnext := h.advance_of_some hcs hcs' hline hcomplete hl
      have hk' : e'.advance.current.kind = .endOfStatement := by rw [hnext.current, hk]
      rw [toStatement_of_endOfStatement hk']
      exact ih hnext
    | none =>
      rw [(h.advance_of_none hcs hcs' hline hl).finish] at hk
      cases hk
  | case2 e hk =>
    obtain ⟨cs, hcs, hcs', hline, hcomplete, -⟩ := h.text
    cases hl : Lexeme.next? cs with
    | some r =>
      have hnext := h.advance_of_some hcs hcs' hline hcomplete hl
      rw [toStatement_of_ne (by rwa [hnext.current])]
      exact Or.inl ⟨hcs.kind_ne_finish hl, hnext⟩
    | none =>
      have hstopped := h.advance_of_none hcs hcs' hline hl
      have hfinish' : e'.advance.current.kind = .finish := by rw [hstopped.current, hstopped.finish]
      rw [toStatement_of_ne (by rwa [hstopped.current])]
      exact Or.inr ⟨hstopped.finish, hfinish', hstopped⟩

end Alongside

variable {p : Endings} {e e' : Evaluation α}

/-- Reading the same text is a way to compare evaluations. -/
theorem comparison_alongside (p : Endings) : Comparison (α := α) 0 [] [] (Alongside p) where
  settled h := ⟨h.settled, h.settled'⟩
  content h := Or.inl (by rw [h.current])
  advance h hk := h.advance hk
  alike h := h.alike
  act {e e' s s'} h halike hfaces hline := by
    -- the tables stay the same, so the second one grows as the first one does
    have hfaces' : e'.session.table.faces <+: s'.table.faces := by
      rwa [halike.table, h.alike.table]
    obtain ⟨cs, hcs, hcs', hlast, hcomplete, hgoes⟩ := h.text
    refine ⟨h.settled.act hfaces, h.settled'.act hfaces', h.current, h.pending, halike,
      cs, hcs, hcs', ?_, hcomplete, hgoes⟩
    rw [← hlast, lastLine, lastLine, reading_of_pending rfl, reading_of_pending rfl]
    simp only [hline]

/-- The statements of the text are the same, whatever is behind it. -/
theorem lockstep_alongside (p : Endings) : Lockstep (α := α) (Alongside p) (Stopped p) :=
  (comparison_alongside p).simulation.lockstep Alongside.toStatement id

/-! ## The same tokens -/

omit [Arithmetic α] in
theorem Stopped.line_eq (h : Stopped p e e') : e'.session.log.line = e.session.log.line := by
  rw [h.alike.line]
  unfold Session.stopped
  cases p.message? <;> rfl

/-- Behind the end of the text, nothing changes. -/
theorem Stopped.advance (h : Stopped p e e') : Stopped p e.advance e'.advance := by
  obtain ⟨hover, hfinish, hsession, -⟩ := h.ended.advance
  obtain ⟨hover', -, hsession', -⟩ := h.ended'.advance
  refine ⟨h.ready.settled_advance.ready, h.ready'.settled_advance.ready, hover, hover', hfinish,
    ?_, ?_, ?_⟩
  · rw [h.ended.current_advance h.ready, h.ended'.current_advance h.ready', h.line_eq]
  · rw [hsession, h.line]
  · rw [hsession, hsession']
    exact h.alike

/-- The same tokens have been taken: of the text, and of its end. -/
def SameTokens (p : Endings) (e e' : Evaluation α) : Prop := Alongside p e e' ∨ Stopped p e e'

/-- The same token is taken from both, or the end of the input. -/
theorem SameTokens.advance (h : SameTokens p e e') : SameTokens p e.advance e'.advance := by
  rcases h with h | h
  · obtain ⟨cs, hcs, hcs', hline, hcomplete, -⟩ := h.text
    cases hl : Lexeme.next? cs with
    | some r => exact Or.inl (h.advance_of_some hcs hcs' hline hcomplete hl)
    | none => exact Or.inr (h.advance_of_none hcs hcs' hline hl)
  · exact Or.inr h.advance

theorem SameTokens.iterate_advance (h : SameTokens p e e') (n : Nat) :
    SameTokens p (Evaluation.advance^[n] e) (Evaluation.advance^[n] e') := by
  induction n with
  | zero => exact h
  | succ n ih =>
    rw [Function.iterate_succ_apply', Function.iterate_succ_apply']
    exact ih.advance

omit [Arithmetic α] in
theorem SameTokens.current (h : SameTokens p e e') : e'.current = e.current :=
  h.elim Alongside.current Stopped.current

/-- Every call is answered in the same way. -/
theorem SameTokens.answer (h : SameTokens p e e') (calls : List Call) (call : Call) :
    ((e'.asked calls).answer call).1 = ((e.asked calls).answer call).1 := by
  have hsame := h.iterate_advance (Call.taken calls)
  have hnext := hsame.advance.current
  rw [asked_eq, asked_eq]
  -- a token that was looked at is the next one, and otherwise it is read now
  cases Call.look calls with
  | false =>
    cases call with
    | next => exact (fst_peek _).trans (hnext.trans (fst_peek _).symm)
    | get => exact hnext
    | current => exact hsame.current
  | true =>
    simp only [if_true]
    cases call with
    | next =>
      simp only [Evaluation.answer, peek_peek, fst_peek]
      exact hnext
    | get =>
      simp only [Evaluation.answer, advance_peek]
      exact hnext
    | current =>
      simp only [Evaluation.answer, current_peek]
      exact hsame.current

/-- What some calls leave are a session and a source behind the same tokens. -/
theorem SameTokens.asked (h : SameTokens p e e') (calls : List Call) :
    ∃ f f', SameTokens p f f' ∧ (e.asked calls).session = f.session ∧
      (e'.asked calls).session = f'.session ∧
      (e'.asked calls).stream.exhausted = f'.stream.exhausted := by
  have hsame := h.iterate_advance (Call.taken calls)
  rw [asked_eq, asked_eq]
  cases Call.look calls with
  | false => exact ⟨_, _, hsame, rfl, rfl, rfl⟩
  | true => exact ⟨_, _, hsame.advance, session_peek _, session_peek _, (source_peek _).2⟩

omit [Arithmetic α] in
/-- Before the source fails the sessions are alike, and then there is one more report in the second
one. -/
theorem SameTokens.alike (h : SameTokens p e e') {message : String}
    (hmessage : p.message? = some message) :
    Alike 0 [] [] (if e'.stream.exhausted then e.session.report (.input message) else e.session)
      e'.session ∧ (e'.stream.exhausted = true → e.session.log.line = p.lastLine) := by
  rcases h with h | h
  · -- a source that has failed has no text left
    have hx : e'.stream.exhausted = false := by
      obtain ⟨cs, -, hcs', -⟩ := h.text
      rw [← Bool.not_eq_true]
      intro hx
      rw [p.stops.eq_none (hcs'.exhausted hx).2] at hmessage
      cases hmessage
    rw [hx]
    exact ⟨h.alike, fun h => by cases h⟩
  · rw [h.ended'.exhausted]
    have halike := h.alike
    rw [hmessage] at halike
    exact ⟨halike, fun _ => h.line⟩

/-! ## Sessions -/

/-- Asking a stream is made of moves. -/
theorem Evaluation.leads_asked (calls : List Call) (e : Evaluation α) :
    Leads e (e.asked calls) := by
  induction calls generalizing e with
  | nil => exact .refl
  | cons call calls ih =>
    refine Relation.ReflTransGen.trans ?_ (ih (e.answer call).2)
    cases call with
    | next => exact (Move.peek e).leads
    | get => exact (Move.advance e).leads
    | current => exact .refl

/-- The evaluations of a text and of a source that hands it out and stops behind it. -/
def Endings.ofText (text : String) {behind : LineSource} {message? : Option String}
    (h : behind.Stops message?) : Endings :=
  ⟨.nothing, behind, message?, lineBreaks text + 1, LineSource.drained_nothing, h⟩

namespace Session

variable {source behind : LineSource} {text : String} {message? : Option String}

omit [Arithmetic α] in
/-- Sessions that are alike are the same if both have gone on from the same log. -/
theorem Alike.eq_of_continues {s s' : Session α} {log : ErrorLog} (h : Alike 0 [] [] s s')
    (hlog : log.Continues s.log) (hlog' : log.Continues s'.log) : s' = s := by
  -- program, history and sink are what two logs can differ in, and all three agree
  have hprogram : s'.log.program = s.log.program := hlog'.program.trans hlog.program.symm
  have hhistory : s'.log.history.toList = s.log.history.toList := by
    obtain ⟨new, hnew, hnew'⟩ := h.reports
    rw [hnew, hnew', Report.map_later_zero]
  have hsink := hlog'.sink_eq hlog hhistory
  have hunseen := h.unseen_eq hprogram
  obtain ⟨table, ⟨program, line, errors, history, sink, counted⟩, draws⟩ := s
  obtain ⟨table', ⟨program', line', errors', history', sink', counted'⟩, draws'⟩ := s'
  simp only [unseen, mk.injEq, ErrorLog.mk.injEq, and_true] at hunseen hsink ⊢
  exact ⟨hunseen.1, ⟨hunseen.2.1.1, hunseen.2.1.2.1, hunseen.2.1.2.2.1, hunseen.2.1.2.2.2, hsink⟩,
    hunseen.2.2⟩

omit [Arithmetic α] in
/-- Both start alongside each other. -/
theorem alongside_start (s : Session α) (hstops : behind.Stops message?)
    (hsource : behind.Holds [] source text.toList)
    (hcomplete : text.toList = [] ∨ text.toList.getLast? = some '\n' ∨ message? = none) :
    Alongside (.ofText text hstops) (s.start (.ofText text)) (s.start source) where
  settled := settled_start _ _
  settled' := settled_start _ _
  current := rfl
  pending := rfl
  alike := alike_of_unseen rfl
  -- nothing has been read, so both hold the whole text
  text := ⟨text.toList, holds_start text _, ⟨rfl, hsource, fun h => by cases h⟩,
    lastLine_start text s, hcomplete, fun hk => by cases hk⟩

omit [Arithmetic α] in
/-- Where a source stops, the log goes on from what it was. -/
theorem continues_stopped (message? : Option String) (s : Session α) :
    s.log.Continues (s.stopped message?).log := by
  cases message? with
  | none => exact .refl _
  | some message => exact ErrorLog.continues_report _ _

/-- A run of the source gives the same result and prints the same as a run of the text. At the end
of the text the source stops, and where printing fails before, nothing is different. -/
theorem run_of_stops (s : Session α) (w : Writer) (hstops : behind.Stops message?)
    (hsource : behind.Holds [] source text.toList)
    (hcomplete : text.toList = [] ∨ text.toList.getLast? = some '\n' ∨ message? = none) :
    (s.run source w).1 = (s.run (.ofText text) w).1 ∧
      (s.run source w).2.1 = (s.run (.ofText text) w).2.1 ∧
      ((s.run (.ofText text) w).1 = .ok () ∧
          (s.run (.ofText text) w).2.2.log.line = lineBreaks text + 1 ∧
          (s.run source w).2.2 = (s.run (.ofText text) w).2.2.stopped message? ∧
          ((s.start source).run w).2.2.stream.exhausted = true ∨
        (∃ message, (s.run (.ofText text) w).1 = .error message) ∧
          (s.run source w).2.2 = (s.run (.ofText text) w).2.2) := by
  obtain ⟨hresult, hprinted, hend⟩ :=
    Lockstep.run (lockstep_alongside _) (s.alongside_start hstops hsource hcomplete) w
  -- both logs have gone on from the log of the session, so they show the same
  have hlog := (leads_run w (s.start (.ofText text))).continues
  have hlog' := (leads_run w (s.start source)).continues
  refine ⟨hresult, hprinted, ?_⟩
  -- the run comes to the end of the text, or printing fails before
  rcases hend with ⟨hok, hstopped⟩ | ⟨herror, halongside⟩
  · exact Or.inl ⟨hok, hstopped.line,
      hstopped.alike.eq_of_continues (hlog.trans (continues_stopped message? _)) hlog',
      hstopped.ended'.exhausted⟩
  · exact Or.inr ⟨herror, halongside.alike.eq_of_continues hlog hlog'⟩

/-- A source that fails behind a text answers all calls as the text does. The session is the same as
behind the calls on the text, with the failure reported if the calls have come to it. -/
theorem asked_of_stops (s : Session α) {message : String} (calls : List Call)
    (hstops : behind.Stops (some message)) (hsource : behind.Holds [] source text.toList)
    (hcomplete : text.toList = [] ∨ text.toList.getLast? = some '\n') :
    (∀ call, (((s.start source).asked calls).answer call).1 =
      (((s.start (.ofText text)).asked calls).answer call).1) ∧
    if ((s.start source).asked calls).stream.exhausted then
      ((s.start (.ofText text)).asked calls).session.log.line = lineBreaks text + 1 ∧
        ((s.start source).asked calls).session =
          ((s.start (.ofText text)).asked calls).session.report (.input message)
    else
      ((s.start source).asked calls).session = ((s.start (.ofText text)).asked calls).session := by
  have hstart : SameTokens (.ofText text hstops) (s.start (.ofText text)) (s.start source) :=
    Or.inl (s.alongside_start hstops hsource (hcomplete.imp_right Or.inl))
  refine ⟨hstart.answer calls, ?_⟩
  obtain ⟨f, f', hsame, hsession, hsession', hexhausted⟩ := hstart.asked calls
  obtain ⟨halike, hline⟩ := hsame.alike rfl
  have hlog := (leads_asked calls (s.start (.ofText text))).continues
  have hlog' := (leads_asked calls (s.start source)).continues
  rw [hsession] at hlog ⊢
  rw [hsession'] at hlog' ⊢
  rw [hexhausted]
  -- the source has been asked behind the text just when it is exhausted
  cases hx : f'.stream.exhausted with
  | true =>
    rw [hx] at halike
    exact ⟨hline hx,
      halike.eq_of_continues (hlog.trans (ErrorLog.continues_report _ _)) hlog'⟩
  | false =>
    rw [hx] at halike
    exact halike.eq_of_continues hlog hlog'

end Session

/-- Running a source that hands out a text and ends is running the text. -/
theorem LineSource.Contains.run {source : LineSource} {text : String} (h : source.Contains text)
    (s : Session α) (w : Writer) : s.run source w = s.run (.ofText text) w := by
  obtain ⟨behind, hdrained, hsource⟩ := h.holds
  obtain ⟨hresult, hprinted, hend⟩ :=
    s.run_of_stops w (.drained hdrained) hsource (Or.inr (Or.inr rfl))
  -- a source that stops without a failure has nothing to report
  have hsession : (s.run source w).2.2 = (s.run (.ofText text) w).2.2 := by
    rcases hend with ⟨-, -, hsession, -⟩ | ⟨-, hsession⟩
    · exact hsession
    · exact hsession
  exact Prod.ext hresult (Prod.ext hprinted hsession)

end DeskCalc
