import DeskCalc.Proofs.Alike
import DeskCalc.Proofs.Printing
import DeskCalc.Proofs.Remainder

/-!
# Two texts one after the other

Evaluating two texts in one session comes to the same as evaluating a single text made of both, with
a line break or a semicolon between them. Nothing but the session is handed on from one input to the
next, and of the session nothing but its table and its random numbers matters.

* `Evaluation.Abreast`, `Together` — two evaluations, of which the second one has a tail to read
  behind the text that both have to read. They go on together (`comparison_together`) until the
  first one is at its end (`Parted`).
* `Abreast.statements` — so the statements of the first one are the first statements of the second
  one, and the others are those of the tail.
* `Session.evaluate_join` — the statements, the table and the reports of a joint text.
* `Session.compositional` — the same for both separators, with what a run prints; and what was
  reported before makes no difference.
-/

namespace DeskCalc

variable {α : Type} [Arithmetic α]

namespace Evaluation

open Session

/-! ## Two evaluations in step -/

/-- What is known of two evaluations that are compared. -/
structure Setting where
  /-- How many lines the second one is further. -/
  lines : Nat
  /-- The line on which the text of the first one ends. -/
  lastLine : Nat
  /-- The reports that the first one started with. -/
  old : List Report
  /-- The reports that the second one started with. -/
  old' : List Report
  /-- What is left for the second one behind the text. -/
  tail : List Char

/-- The tail is separate from the text, if there is a tail. -/
def Setting.Separate (p : Setting) : Prop :=
  p.tail = [] ∨ ∃ stop more, Break stop ∧ p.tail = stop :: more

/-- Both evaluations have the same text to read, the second one with the tail behind it. -/
def SameText (p : Setting) (e e' : Evaluation α) : Prop :=
  ∃ cs, e.Holds .nothing cs ∧ e'.Holds .nothing (cs ++ p.tail) ∧ e.lastLine cs = p.lastLine

/-- The next tokens are to be read, of the same text and in sessions that are alike. -/
structure Abreast (p : Setting) (e e' : Evaluation α) : Prop where
  text : SameText p e e'
  alike : Alike p.lines p.old p.old' e.reading e'.reading

/-- The same token was taken last. -/
structure InStep (p : Setting) (e e' : Evaluation α) : Prop where
  content : e.current.content = e'.current.content
  pending : e.stream.newlinePending = e'.stream.newlinePending
  text : SameText p e e'
  finish : e.current.kind = .finish → p.tail = []

/-- The first evaluation is at its end, and the second one has taken the end of the statement that
separates the tail from the text. -/
structure Parted (p : Setting) (e e' : Evaluation α) : Prop where
  content : e.current.content = .mark .finish
  content' : e'.current.content = .mark .endOfStatement
  holds : e.Holds .nothing []
  not_pending : e.stream.newlinePending = false
  line : e.session.log.line = p.lastLine
  behind : ∃ stop more, p.tail = stop :: more ∧ e'.Holds .nothing more ∧
    e'.stream.newlinePending = decide (stop = '\n')

/-- The last tokens were taken in sessions that are alike. -/
structure Together (p : Setting) (e e' : Evaluation α) : Prop where
  settled : e.Settled
  settled' : e'.Settled
  alike : Alike p.lines p.old p.old' e.session e'.session
  streams : InStep p e e' ∨ Parted p e e'

variable {p : Setting} {e e' : Evaluation α}

omit [Arithmetic α] in
theorem InStep.kind (h : InStep p e e') : e.current.kind = e'.current.kind :=
  congrArg Prod.fst h.content

omit [Arithmetic α] in
theorem Parted.kind (h : Parted p e e') :
    e.current.kind = .finish ∧ e'.current.kind = .endOfStatement :=
  ⟨congrArg Prod.fst h.content, congrArg Prod.fst h.content'⟩

omit [Arithmetic α] in
/-- Evaluations that go together and are in step are abreast. -/
theorem Together.abreast (h : Together p e e') (hstep : InStep p e e') : Abreast p e e' := by
  refine ⟨hstep.text, ?_⟩
  rw [reading, reading, ← hstep.pending]
  split
  · exact h.alike.nextLine
  · exact h.alike

/-- A separator is the first lexeme of a tail, and ends the statement. -/
theorem next?_break {stop : Char} (h : Break stop) (more : List Char) :
    ∃ l, Lexeme.next? (stop :: more) = some (l, more) ∧ (l = .newline ↔ stop = '\n') ∧
      ∀ s : Session α, (s.token l).1.content = .mark .endOfStatement ∧ (s.token l).2 = s := by
  rcases h with rfl | rfl
  · exact ⟨.newline, Lexeme.next?_newline more, by simp, fun s => ⟨rfl, rfl⟩⟩
  · exact ⟨.mark .endOfStatement, Lexeme.next?_semicolon more, by simp, fun s => ⟨rfl, rfl⟩⟩

/-- The first lexeme of a text is its first lexeme with a tail behind it. -/
theorem next?_append_tail (hp : p.Separate) {cs rest : List Char} {l : Lexeme}
    (h : Lexeme.next? cs = some (l, rest)) :
    Lexeme.next? (cs ++ p.tail) = some (l, rest ++ p.tail) := by
  rcases hp with htail | ⟨stop, more, hstop, htail⟩
  · rw [htail, List.append_nil, List.append_nil, h]
  · rw [htail, Lexeme.next?_append_break hstop, h]

/-- Taking a token goes together, and at the end of the text the evaluations part. -/
theorem Abreast.advance (hp : p.Separate) (h : Abreast p e e') :
    Together p e.advance e'.advance := by
  obtain ⟨⟨cs, hcs, hcs', hline⟩, halike⟩ := h
  have hs : e.advance.Settled := Ready.settled_advance hcs.ready
  have hs' : e'.advance.Settled := Ready.settled_advance hcs'.ready
  cases hl : Lexeme.next? cs with
  | some r =>
    obtain ⟨l, rest⟩ := r
    -- the tail is behind a separator, so the lexeme is the same with it
    have hl' := next?_append_tail hp hl
    obtain ⟨hcurrent, hsession, hrest, hpending⟩ := hcs.advance_of_some hl
    obtain ⟨hcurrent', hsession', hrest', hpending'⟩ := hcs'.advance_of_some hl'
    obtain ⟨hcontent, halike⟩ := halike.token l
    refine ⟨hs, hs', by rwa [hsession, hsession'], Or.inl ⟨?_, ?_, ?_, ?_⟩⟩
    · rw [hcurrent, hcurrent', hcontent]
    · rw [hpending, hpending']
    · exact ⟨rest, hrest, hrest', (hcs.lastLine_of_some hl).trans hline⟩
    · exact fun hk => absurd hk (hcs.kind_ne_finish hl)
  | none =>
    have hdrained := LineSource.drained_nothing
    have hend := (hcs.line_of_none hdrained hl).trans hline
    obtain ⟨hcurrent, hsession, hrest, hpending⟩ := hcs.advance_of_none hdrained hl
    -- without a tail both are at their end, otherwise the second one comes upon the separator
    rcases hp with htail | ⟨stop, more, hstop, htail⟩
    · rw [htail, List.append_nil] at hcs'
      obtain ⟨hcurrent', hsession', hrest', hpending'⟩ := hcs'.advance_of_none hdrained hl
      refine ⟨hs, hs', by rwa [hsession, hsession'], Or.inl ⟨?_, ?_, ?_, fun _ => htail⟩⟩
      · rw [hcurrent, hcurrent']
        rfl
      · rw [hpending, hpending']
      · refine ⟨[], hrest, by rwa [htail], ?_⟩
        rw [lastLine, reading_of_not_pending hpending]
        exact hend
    · obtain ⟨l, hstop', hnewline, htoken⟩ := next?_break (α := α) hstop more
      have hl' : Lexeme.next? (cs ++ p.tail) = some (l, more) := by
        rw [htail, Lexeme.next?_append_break hstop, hl]
        exact hstop'
      obtain ⟨hcurrent', hsession', hrest', hpending'⟩ := hcs'.advance_of_some hl'
      refine ⟨hs, hs', ?_, Or.inr ⟨?_, ?_, hrest, hpending, hend, stop, more, htail, hrest', ?_⟩⟩
      · rwa [hsession, hsession', (htoken _).2]
      · rw [hcurrent]
        rfl
      · rw [hcurrent', (htoken _).1]
      · rw [hpending', decide_eq_decide]
        exact hnewline

omit [Arithmetic α] in
/-- The text is the same whatever happens to the sessions, but for the lines. -/
theorem SameText.act (h : SameText p e e') {s s' : Session α}
    (hline : s.log.line = e.session.log.line) :
    SameText p { e with session := s } { e' with session := s' } := by
  obtain ⟨cs, hcs, hcs', hlast⟩ := h
  refine ⟨cs, hcs, hcs', ?_⟩
  rw [← hlast, lastLine, lastLine, reading_of_pending rfl, reading_of_pending rfl]
  simp only [hline]

/-- Going on together is a way to compare evaluations. -/
theorem comparison_together (hp : p.Separate) :
    Comparison (α := α) p.lines p.old p.old' (Together p) where
  settled h := ⟨h.settled, h.settled'⟩
  content h := by
    -- where they have parted, both stand at the end of a statement, and no token is taken there
    rcases h.streams with hstep | hparted
    · exact Or.inl hstep.content
    · obtain ⟨hk, hk'⟩ := hparted.kind
      exact Or.inr ⟨by rw [hk]; rfl, by rw [hk']; rfl⟩
  advance h hk := by
    rcases h.streams with hstep | hparted
    · exact (h.abreast hstep).advance hp
    · rw [hparted.kind.1] at hk
      cases hk
  alike h := h.alike
  act {e e' s s'} h halike hfaces hline := by
    have hfaces' : e'.session.table.faces <+: s'.table.faces := by
      rwa [halike.table, h.alike.table]
    refine ⟨h.settled.act hfaces, h.settled'.act hfaces', halike, ?_⟩
    rcases h.streams with hstep | hparted
    · exact Or.inl ⟨hstep.content, hstep.pending, hstep.text.act hline, hstep.finish⟩
    · exact Or.inr ⟨hparted.content, hparted.content', hparted.holds, hparted.not_pending,
        hline.trans hparted.line, hparted.behind⟩

/-! ## Statements -/

/-- Looking for a statement goes together, unless the text ends first. -/
theorem Abreast.toStatement (hp : p.Separate) (h : Abreast p e e') :
    Together p e.toStatement e'.toStatement ∧ InStep p e.toStatement e'.toStatement ∨
      ∃ f', Together p e.toStatement f' ∧ Parted p e.toStatement f' ∧
        e'.toStatement = f'.toStatement := by
  -- by induction on the ends of statements that the first one passes over
  fun_induction Evaluation.toStatement e generalizing e' with
  | case1 e hk ih =>
    have htogether := h.advance hp
    rcases htogether.streams with hstep | hparted
    · rw [toStatement_of_endOfStatement (hstep.kind.symm.trans hk)]
      exact ih (htogether.abreast hstep)
    · rw [hparted.kind.1] at hk
      cases hk
  | case2 e hk =>
    have htogether := h.advance hp
    rcases htogether.streams with hstep | hparted
    · rw [toStatement_of_ne (by rwa [← hstep.kind])]
      exact Or.inl ⟨htogether, hstep⟩
    · exact Or.inr ⟨e'.advance, htogether, hparted, toStatement_of_endOfStatement hparted.kind.2⟩

/-- The statements that are left only depend on where the next one starts. -/
theorem statements_of_toStatement (h : e.toStatement = e'.toStatement) :
    e.statements = e'.statements := by
  have hstatement : e.statement = e'.statement := by rw [statement, statement, h]
  cases hs : e'.statement.1 with
  | none => rw [statements_of_none hs, statements_of_none (hstatement ▸ hs), hstatement]
  | some statement => rw [statements_of_some hs, statements_of_some (hstatement ▸ hs), hstatement]

/-- Where the evaluations have parted, the first one stays at its end. -/
theorem Parted.statements (h : Together p e e') (hparted : Parted p e e') :
    e.statements.1 = [] ∧ Together p e.statements.2 e' ∧ Parted p e.statements.2 e' := by
  have hdrained := LineSource.drained_nothing
  obtain ⟨hcurrent, hsession, hrest, hpending⟩ := hparted.holds.advance_of_none hdrained rfl
  have hk : e.toStatement = e.advance := toStatement_of_ne (by rw [hcurrent]; simp [Token.bare])
  have hfinish : e.toStatement.current.kind = .finish := by rw [hk, hcurrent]; rfl
  have hstatements : e.statements = ([], e.advance) := by rw [statements_of_finish hfinish, hk]
  -- the first one takes the end of the input again, and nothing changes
  rw [reading_of_not_pending hparted.not_pending] at hsession
  have hparted' : Parted p e.advance e' := by
    refine ⟨?_, hparted.content', hrest, hpending, ?_, hparted.behind⟩
    · rw [hcurrent]
      rfl
    · rw [hsession, hparted.line]
  rw [hstatements]
  refine ⟨rfl, ⟨h.settled.advance, h.settled', ?_, Or.inr hparted'⟩, hparted'⟩
  rw [hsession]
  exact h.alike

/-- Either there is no tail, and the statements are the same to the end; or the evaluations part at
the end of the first one, and the second one goes on with the tail from there. -/
def Joined (p : Setting) (e e' : Evaluation α) : Prop :=
  (p.tail = [] ∧ e'.statements.1 = e.statements.1 ∧ Together p e.statements.2 e'.statements.2) ∨
    ∃ f', Together p e.statements.2 f' ∧ Parted p e.statements.2 f' ∧
      e'.statements = (e.statements.1 ++ f'.statements.1, f'.statements.2)

/-- The same statement in front of both. -/
theorem Joined.cons {statement : Statement α} (hs : e.statement.1 = some statement)
    (hs' : e'.statement.1 = some statement) (h : Joined p e.statement.2 e'.statement.2) :
    Joined p e e' := by
  unfold Joined
  rw [statements_of_some hs, statements_of_some hs']
  rcases h with ⟨htail, hstatements, htogether⟩ | ⟨f', htogether, hparted, hstatements⟩
  · exact Or.inl ⟨htail, congrArg (statement :: ·) hstatements, htogether⟩
  · exact Or.inr ⟨f', htogether, hparted, by rw [hstatements]; rfl⟩

/-- Where the text has come to its end, so has the first evaluation, and the second one goes on. -/
theorem Together.joined_of_parted (h : Together p e e') (hparted : Parted p e e') :
    Joined p e e' := by
  obtain ⟨hnil, htogether, hparted'⟩ := hparted.statements h
  refine Or.inr ⟨e', htogether, hparted', ?_⟩
  rw [hnil]
  rfl

/-- The statements of both evaluations, by induction on how much there is to come. -/
theorem Abreast.joined (hp : p.Separate) (h : Abreast p e e') : Joined p e e' := by
  induction hn : e.pending using Nat.strongRecOn generalizing e e' with
  | _ n ih =>
    rcases h.toStatement hp with ⟨htogether, hstep⟩ | ⟨f', htogether, hparted, hto⟩
    -- the next statement is there for both, or it is missing for both
    · by_cases hk : e.toStatement.current.kind = .finish
      · have hk' : e'.toStatement.current.kind = .finish := by rwa [← hstep.kind]
        unfold Joined
        rw [statements_of_finish hk, statements_of_finish hk']
        exact Or.inl ⟨hstep.finish hk, rfl, htogether⟩
      · obtain ⟨hstatement, hend⟩ :=
          (comparison_together hp).simulation.statement htogether hk
        have hs : e.statement.1 = some e.toStatement.body.1 := by rw [statement_of_ne_finish hk]
        refine Joined.cons hs (hstatement ▸ hs) ?_
        have hlt := pending_statement_of_some hs
        rcases hend.streams with hstep' | hparted
        · exact ih _ (by omega) (hend.abreast hstep') rfl
        · exact hend.joined_of_parted hparted
    -- the text ends in front of the next statement, and the second one goes on with the tail
    · unfold Joined
      rw [statements_of_finish hparted.kind.1, statements_of_toStatement hto]
      exact Or.inr ⟨f', htogether, hparted, rfl⟩

/-- Without a tail, both evaluations give the same statements and report the same. -/
theorem Abreast.statements (htail : p.tail = []) (h : Abreast p e e') :
    e'.statements.1 = e.statements.1 ∧
      Alike p.lines p.old p.old' e.statements.2.session e'.statements.2.session := by
  rcases h.joined (Or.inl htail) with ⟨-, hstatements, htogether⟩ | ⟨f', -, hparted, -⟩
  · exact ⟨hstatements, htogether.alike⟩
  · obtain ⟨stop, more, hcons, -⟩ := hparted.behind
    rw [htail] at hcons
    cases hcons

end Evaluation

/-! ## Inputs -/

open Evaluation Session

/-- The reports of a session, oldest first. -/
def Session.reports (s : Session α) : List Report := s.log.history.toList

/-- How many line breaks are in a text. -/
def lineBreaks (text : String) : Nat := text.toList.count '\n'

namespace Session

omit [Arithmetic α] in
theorem lastLine_start (text : String) (s : Session α) :
    (s.start (.ofText text)).lastLine text.toList = lineBreaks text + 1 := by
  rw [lastLine, reading_of_not_pending rfl]
  exact Nat.add_comm _ _

/-- Evaluating a joint text comes to the same as evaluating two texts one after the other. Only the
lines of what the second one reports are larger. -/
structure Joins (s : Session α) (a b joint : String) (k : Nat) : Prop where
  statements : (s.evaluate joint).1 = (s.evaluate a).1 ++ ((s.evaluate a).2.evaluate b).1
  table : (s.evaluate joint).2.table = ((s.evaluate a).2.evaluate b).2.table
  draws : (s.evaluate joint).2.draws = ((s.evaluate a).2.evaluate b).2.draws
  reports : ∃ new new', (s.evaluate a).2.reports = s.reports ++ new ∧
    ((s.evaluate a).2.evaluate b).2.reports = (s.evaluate a).2.reports ++ new' ∧
    (s.evaluate joint).2.reports = s.reports ++ new ++ new'.map (Report.later k)

/-- Behind a text that is followed by a separator and another text, the session is that behind the
text alone, and what is left is the other text. -/
theorem exists_parted (s : Session α) {a b joint : String} {stop : Char} (hstop : Break stop)
    (hjoint : joint.toList = a.toList ++ stop :: b.toList) :
    ∃ f' : Evaluation α, f'.Holds .nothing b.toList ∧
      f'.reading.log.line = lineBreaks a + 1 + (if stop = '\n' then 1 else 0) ∧
      f'.session.table = (s.evaluate a).2.table ∧ f'.session.draws = (s.evaluate a).2.draws ∧
      f'.session.reports = (s.evaluate a).2.reports ∧ s.reports <+: (s.evaluate a).2.reports ∧
      (s.start (.ofText joint)).statements =
        ((s.evaluate a).1 ++ f'.statements.1, f'.statements.2) := by
  -- the joint text is the first one with the separator and the other text behind it
  let p : Setting := ⟨0, lineBreaks a + 1, s.reports, s.reports, stop :: b.toList⟩
  have habreast : Abreast p (s.start (.ofText a)) (s.start (.ofText joint)) := by
    refine ⟨⟨a.toList, holds_start a _, ?_, lastLine_start a s⟩, ?_⟩
    · rw [← hjoint]
      exact holds_start joint _
    · exact Alike.start s.resetLine s.resetLine rfl rfl rfl
  rcases habreast.joined (Or.inr ⟨stop, b.toList, hstop, rfl⟩) with
    ⟨hnil, -, -⟩ | ⟨f', htogether, hparted, hstatements⟩
  · cases hnil
  -- where they part, the joint text has the separator behind it and the other text is left
  · obtain ⟨stop', more, htail, hholds, hpending⟩ := hparted.behind
    obtain ⟨rfl, rfl⟩ := List.cons.inj htail
    obtain ⟨htable, hdraws, hline, new, hnew, hnew'⟩ := htogether.alike
    rw [Report.map_later_zero] at hnew'
    refine ⟨f', hholds, ?_, htable, hdraws, hnew'.trans hnew.symm, ⟨new, hnew.symm⟩, hstatements⟩
    rw [reading_of_pending hpending, hline, hparted.line]
    simp only [decide_eq_true_eq]
    rfl

/-- A text behind a separator is evaluated as it is alone. -/
theorem evaluate_join (s : Session α) {a b joint : String} {stop : Char} (hstop : Break stop)
    (hjoint : joint.toList = a.toList ++ stop :: b.toList) :
    s.Joins a b joint (lineBreaks a + if stop = '\n' then 1 else 0) := by
  obtain ⟨f', hholds, hline, htable, hdraws, hreports, hprefix, hstatements⟩ :=
    s.exists_parted hstop hjoint
  obtain ⟨htable', hdraws', hhistory'⟩ := f'.eq_of_reading
  let p : Setting := ⟨lineBreaks a + (if stop = '\n' then 1 else 0), lineBreaks b + 1,
    (s.evaluate a).2.reports, f'.session.reports, []⟩
  have habreast : Abreast p ((s.evaluate a).2.start (.ofText b)) f' := by
    refine ⟨⟨b.toList, holds_start b _, ?_, lastLine_start b _⟩, ?_⟩
    · rw [List.append_nil]
      exact hholds
    · refine ⟨htable'.trans htable, hdraws'.trans hdraws, ?_, [], (List.append_nil _).symm, ?_⟩
      · rw [hline]
        show lineBreaks a + 1 + (if stop = '\n' then 1 else 0) =
          1 + (lineBreaks a + if stop = '\n' then 1 else 0)
        omega
      · rw [hhistory']
        exact (List.append_nil _).symm
  obtain ⟨hsame, htable, hdraws, -, new', hnew, hnew'⟩ := habreast.statements rfl
  obtain ⟨new, hold⟩ := hprefix
  -- the statements of the joint text are those in front of the separator and those behind it
  have hjoined : s.evaluate joint =
      ((s.evaluate a).1 ++ f'.statements.1, f'.statements.2.session) := by
    unfold evaluate
    rw [hstatements]
    rfl
  refine ⟨?_, ?_, ?_, new, new', hold.symm, hnew, ?_⟩
  · rw [hjoined, hsame]
    rfl
  · rw [hjoined]
    exact htable
  · rw [hjoined]
    exact hdraws
  · rw [hjoined, hold, ← hreports]
    exact hnew'

/-- With another log, a text comes to the same, prints the same and reports the same. -/
structure Ignores (s : Session α) (log : ErrorLog) (text : String) : Prop where
  statements : (evaluate text { s with log }).1 = (s.evaluate text).1
  table : (evaluate text { s with log }).2.table = (s.evaluate text).2.table
  draws : (evaluate text { s with log }).2.draws = (s.evaluate text).2.draws
  reports : ∃ new, (s.evaluate text).2.reports = s.reports ++ new ∧
    (evaluate text { s with log }).2.reports = log.history.toList ++ new
  written : ∀ bytes, (run (.ofText text) (.endless bytes) { s with log }).2.1 =
    (s.run (.ofText text) (.endless bytes)).2.1

/-- Whatever log the session has, a text is evaluated in the same way. -/
theorem evaluate_log (s : Session α) (log : ErrorLog) (text : String) : s.Ignores log text := by
  -- the text has no tail here, only the logs differ
  let p : Setting := ⟨0, lineBreaks text + 1, s.reports, log.history.toList, []⟩
  have habreast : Abreast p (s.start (.ofText text)) (start (.ofText text) { s with log }) := by
    refine ⟨⟨text.toList, holds_start text _, ?_, lastLine_start text s⟩, ?_⟩
    · rw [List.append_nil]
      exact holds_start text _
    · exact Alike.start s.resetLine (resetLine { s with log }) rfl rfl rfl
  obtain ⟨hsame, htable, hdraws, -, new, hnew, hnew'⟩ := habreast.statements rfl
  rw [Report.map_later_zero] at hnew'
  refine ⟨hsame, htable, hdraws, ⟨new, hnew, hnew'⟩, fun bytes => ?_⟩
  rw [run_endless, run_endless]
  exact congrArg (fun statements => Writer.endless (printed bytes statements)) hsame

/-- Running a joint text prints what running two texts one after the other prints. Runs leave the
sessions that evaluating leaves. -/
structure Prints (s : Session α) (a b joint : String) (bytes : ByteArray) : Prop where
  ok : (s.run (.ofText a) (.endless bytes)).1 = .ok () ∧
    ((s.evaluate a).2.run (.ofText b) (s.run (.ofText a) (.endless bytes)).2.1).1 = .ok () ∧
    (s.run (.ofText joint) (.endless bytes)).1 = .ok ()
  written : (s.run (.ofText joint) (.endless bytes)).2.1 =
    ((s.evaluate a).2.run (.ofText b) (s.run (.ofText a) (.endless bytes)).2.1).2.1
  sessions : (s.run (.ofText a) (.endless bytes)).2.2 = (s.evaluate a).2 ∧
    ((s.evaluate a).2.run (.ofText b) (s.run (.ofText a) (.endless bytes)).2.1).2.2 =
      ((s.evaluate a).2.evaluate b).2 ∧
    (s.run (.ofText joint) (.endless bytes)).2.2 = (s.evaluate joint).2

/-- What is printed for the joint text is what is printed for one text and then for the other. -/
theorem Joins.prints {s : Session α} {a b joint : String} {k : Nat} (h : s.Joins a b joint k)
    (bytes : ByteArray) : s.Prints a b joint bytes := by
  constructor
  · simp only [run_endless, and_self]
  · simp only [run_endless, h.statements, printed_append]
  · simp only [run_endless, and_self]

/-- Evaluation is compositional over inputs: two texts in one session come to the same as both in
one text, with a line break or a semicolon between them, except for the lines of what the second one
reports. What was reported before makes no difference. -/
theorem compositional (s : Session α) (a b : String) :
    s.Joins a b (a ++ "\n" ++ b) (lineBreaks a + 1) ∧
      s.Joins a b (a ++ ";" ++ b) (lineBreaks a) ∧
      (∀ bytes, s.Prints a b (a ++ "\n" ++ b) bytes ∧ s.Prints a b (a ++ ";" ++ b) bytes) ∧
      ∀ log, s.Ignores log a := by
  -- the two separators differ in the line they leave, and in nothing else
  have hnewline : s.Joins a b (a ++ "\n" ++ b) (lineBreaks a + 1) :=
    s.evaluate_join (Or.inl rfl) (by simp)
  have hsemicolon : s.Joins a b (a ++ ";" ++ b) (lineBreaks a) :=
    s.evaluate_join (Or.inr rfl) (by simp)
  exact ⟨hnewline, hsemicolon, fun bytes => ⟨hnewline.prints bytes, hsemicolon.prints bytes⟩,
    fun log => s.evaluate_log log a⟩

end Session

end DeskCalc
