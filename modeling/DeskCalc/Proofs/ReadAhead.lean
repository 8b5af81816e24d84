import DeskCalc.Proofs.Endings
import DeskCalc.Proofs.Script

/-!
# No reading ahead

Whoever types lines sees the result of a statement as soon as its line is complete: another line is
asked for only where a token is needed and the lines so far have none left. What a source has behind
some lines makes no difference then to the statements in them.

* `LineSource.before`, `Evaluation.before` — the same with another source behind the lines.
* `LineSource.requests`, `TokenStream.HasAsked` — how many lines a source is asked for.
* `Evaluation.WithinLines` — whole lines are left, and the statement that was started ends within
  its line.
* `WithinLines.statement_before`, `WithinLines.after_before` — the statements in the lines are the
  same with a source behind them, which stays behind what they leave.
* `Session.reads_no_further` — so the statements of a text are the same with any two sources that
  hand out its lines, and no line behind them is asked for.
-/

namespace DeskCalc

/-! ## Sources one behind the other -/

namespace LineSource

variable {s s' : LineSource} {rest rest' chars : List Char} {l : Lexeme} {text : String}

/-- The lines of the source, with another source behind them. It ends as that one does. -/
def before (behind s : LineSource) : LineSource :=
  { behind with lines := s.lines ++ behind.lines }

/-- The source without its first lines. -/
def drop (n : Nat) (s : LineSource) : LineSource := { s with lines := s.lines.drop n }

/-- The source hands out the lines of the text. How it goes on behind them is left open. -/
def Delivers (text : String) (s : LineSource) : Prop := (ofText text).lines <+: s.lines

instance (text : String) (s : LineSource) : Decidable (s.Delivers text) :=
  inferInstanceAs (Decidable (_ <+: _))

/-- A source that hands out a text has the lines of the text in front of others. -/
theorem Delivers.exists_behind (h : s.Delivers text) :
    ∃ behind : LineSource, s = behind.before (ofText text) := by
  obtain ⟨more, hmore⟩ := h
  exact ⟨{ s with lines := more }, by rw [before, hmore]⟩

/-- How many lines are asked for in looking for the next lexeme. -/
def requests (rest : List Char) (s : LineSource) : Nat :=
  match Lexeme.next? rest with
  | some _ => 0
  | none =>
    match _h : s.read with
    | (.line chars, s') => requests chars s' + 1
    | (.finished, _) => 1
    | (.failed _ _, _) => 1
termination_by s.lines.length
decreasing_by exact (of_read_eq_line _h).1

/-- Reading a line takes the first one. -/
theorem exists_cons_of_read (h : s.read = (.line chars, s')) :
    s.lines = .text chars :: s'.lines ∧ s' = s.drop 1 := by
  obtain ⟨lines, ending, owned⟩ := s
  unfold read at h
  split at h
  · next hlines =>
    cases h
    cases hlines
    exact ⟨rfl, rfl⟩
  · cases h
  · split at h <;> cases h

theorem read_before (h : s.read = (.line chars, s')) (behind : LineSource) :
    (behind.before s).read = (.line chars, behind.before s') := by
  obtain ⟨hlines, -⟩ := exists_cons_of_read h
  simp only [read, before, hlines, List.cons_append]

/-- Where a lexeme is found, every line that was asked for is gone, and it makes no difference what
is behind the lines of the source. -/
theorem next_lexeme (h : next rest s = (.lexeme l rest', s')) :
    requests rest s ≤ s.lines.length ∧ s' = s.drop (requests rest s) ∧
      ∀ behind : LineSource, next rest (behind.before s) = (.lexeme l rest', behind.before s') := by
  fun_induction next rest s with
  | case1 rest s l' rest'' hl =>
    cases h
    rw [requests, hl]
    exact ⟨Nat.zero_le _, rfl, fun behind => by rw [next, hl]⟩
  -- the line had no lexeme left, so one line was asked for, and the lexeme is found in that or
  -- behind it
  | case2 rest s hl chars s'' hread ih =>
    obtain ⟨hle, hdrop, hnext⟩ := ih h
    obtain ⟨hlines, hs''⟩ := exists_cons_of_read hread
    have hrequests : requests rest s = requests chars s'' + 1 := by
      rw [requests, hl]
      simp only
      split
      · next h' => cases h'.symm.trans hread; rfl
      · next h' => cases h'.symm.trans hread
      · next h' => cases h'.symm.trans hread
    refine ⟨?_, ?_, fun behind => ?_⟩
    · rw [hrequests, hlines]
      exact Nat.succ_le_succ hle
    · rw [hrequests, hdrop, hs'', drop, drop, drop, List.drop_drop, Nat.add_comm]
    · exact (next_of_read hl (read_before hread behind)).trans (hnext behind)
  | case3 => cases h
  | case4 => cases h

end LineSource

variable {α : Type}

/-! ## Streams -/

namespace TokenStream

variable {t : TokenStream α} {s : Session α} {source : LineSource} {n : Nat}

/-- The stream with another source behind the lines to come. -/
def before (behind : LineSource) (t : TokenStream α) : TokenStream α :=
  { t with source := behind.before t.source }

/-- The stream has asked its source for some number of lines, and got them. Asking for more takes
more lines off the source (`HasAsked.scan`), and the stream is exhausted where there are none. -/
structure HasAsked (source : LineSource) (n : Nat) (t : TokenStream α) : Prop where
  exhausted : t.exhausted = false
  answered : n ≤ source.lines.length
  source : t.source = source.drop n

/-- The same lines were asked for and got, with a source behind them. -/
theorem HasAsked.before (h : t.HasAsked source n) (behind : LineSource) :
    (t.before behind).HasAsked (behind.before source) n := by
  refine ⟨h.exhausted, ?_, ?_⟩
  · exact Nat.le_trans h.answered (by simp [LineSource.before])
  · simp only [TokenStream.before, LineSource.before, LineSource.drop, h.source,
      List.drop_append_of_le_length h.answered]

variable [Arithmetic α]

/-- Where a stream goes on, it has found a lexeme. -/
theorem exists_lexeme_of_scan (hx : (t.scan s).2.1.exhausted = false) : t.exhausted = false ∧
    ∃ l rest source, LineSource.next t.rest t.source = (.lexeme l rest, source) := by
  cases hold : t.exhausted with
  | true =>
    simp only [scan, hold, if_true] at hx
    cases hx
  | false =>
    rcases hnext : LineSource.next t.rest t.source with ⟨⟨l, rest⟩ | _ | message, source⟩
    · exact ⟨rfl, l, rest, source, rfl⟩
    · simp [scan, hold, hnext] at hx
    · simp [scan, hold, hnext] at hx

/-- Reading a token that is none behind the end asks for some more lines. -/
theorem HasAsked.scan (h : t.HasAsked source n) (hx : (t.scan s).2.1.exhausted = false) :
    (t.scan s).2.1.HasAsked source (n + t.source.requests t.rest) := by
  obtain ⟨hold, l, rest, source', hnext⟩ := exists_lexeme_of_scan hx
  obtain ⟨hle, hdrop, -⟩ := LineSource.next_lexeme hnext
  refine ⟨hx, ?_, ?_⟩
  · have hlength : t.source.lines.length = source.lines.length - n := by
      rw [h.source, LineSource.drop, List.length_drop]
    have := h.answered
    omega
  · simp only [TokenStream.scan, hold, hnext]
    rw [if_neg (by simp), hdrop, h.source]
    simp only [LineSource.drop, List.drop_drop]

/-- A lexeme that the lines to come have is read in the same way with a source behind them. -/
theorem scan_before (hx : (t.scan s).2.1.exhausted = false) (behind : LineSource) :
    (t.before behind).scan s = ((t.scan s).1, (t.scan s).2.1.before behind, (t.scan s).2.2) := by
  obtain ⟨hold, l, rest, source, hnext⟩ := exists_lexeme_of_scan hx
  obtain ⟨-, -, hbefore⟩ := LineSource.next_lexeme hnext
  simp only [scan, before, hold, hnext, hbefore]
  rfl

end TokenStream

/-! ## Evaluations -/

open Session

/-- Twins with the same log behind them are the same. -/
theorem Twins.eq_of_continues {e f : Evaluation α} (h : Twins e f) {log : ErrorLog}
    (hlog : log.Continues e.session.log) (hlog' : log.Continues f.session.log) : f = e := by
  have hsession := h.alike.eq_of_continues hlog hlog'
  have hstream := h.stream
  obtain ⟨t, s⟩ := e
  obtain ⟨t', s'⟩ := f
  cases hsession
  cases hstream
  rfl

namespace Evaluation

variable {e : Evaluation α} {source : LineSource}

/-- The evaluation with another source behind the lines to come. -/
def before (behind : LineSource) (e : Evaluation α) : Evaluation α :=
  { e with stream := e.stream.before behind }

/-- Productions work with a source behind the lines, too. -/
theorem Settled.before (h : e.Settled) (behind : LineSource) : (e.before behind).Settled :=
  ⟨h.ready, h.newlinePending, h.coherent⟩

/-- Whole lines are left of the source, and the line of a statement that has been started is not at
its end: it is the line break that ends the statement. -/
structure WithinLines (source : LineSource) (e : Evaluation α) : Prop where
  settled : e.Settled
  asked : ∃ n, e.stream.HasAsked source n
  text : ∃ cs, e.Holds .nothing cs ∧ (cs = [] ∨ cs.getLast? = some '\n') ∧
    (e.current.kind.endsStatement = false → cs ≠ [])

variable [Arithmetic α]

/-- As long as the input does not end, taking a token is the same with a source behind the lines. -/
theorem advance_before (hx : e.advance.stream.exhausted = false) (behind : LineSource) :
    (e.before behind).advance = e.advance.before behind := by
  obtain ⟨t, s⟩ := e
  cases hl : t.lookahead with
  | some token => simp only [before, TokenStream.before, advance, TokenStream.advance, hl]
  -- the token is scanned, and scanning does not come to the source behind the lines
  | none =>
    have hlook : (t.before behind).lookahead = none := hl
    simp only [advance, TokenStream.advance, hl] at hx
    simp only [before, advance, TokenStream.advance, hl, hlook, TokenStream.scan_before hx]
    rfl

/-- Where the input has not come to its end, the source has not. -/
theorem Ready.exhausted_of_ne_finish (h : e.Ready) (hk : e.advance.current.kind ≠ .finish) :
    e.advance.stream.exhausted = false := by
  rcases hscan : e.stream.scan e.session with ⟨token, t, s⟩
  have hadvance := h.advance_eq hscan
  rw [hadvance, ← Bool.not_eq_true]
  intro hx
  -- an exhausted source would have given the end of the input
  have hfinish := finish_scan (t := e.stream) (s := e.session) (by rw [hscan]; exact hx)
  rw [hscan] at hfinish
  rw [hadvance] at hk
  exact hk hfinish.1

namespace WithinLines

/-- A token of the lines leaves whole lines, and is taken in the same way with a source behind. -/
theorem advance (h : e.WithinLines source) (hk : e.advance.current.kind ≠ .finish) :
    e.advance.WithinLines source ∧
      ∀ behind : LineSource, (e.before behind).advance = e.advance.before behind := by
  have hx := h.settled.ready.exhausted_of_ne_finish hk
  refine ⟨⟨h.settled.advance, ?_, ?_⟩, advance_before hx⟩
  · obtain ⟨n, hn⟩ := h.asked
    rcases hscan : e.stream.scan e.session with ⟨token, t, s⟩
    have hadvance := h.settled.ready.advance_eq hscan
    rw [hadvance] at hx ⊢
    have hscanned := hn.scan (s := e.session) (by rw [hscan]; exact hx)
    rw [hscan] at hscanned
    exact ⟨_, hscanned.exhausted, hscanned.answered, hscanned.source⟩
  · obtain ⟨cs, hcs, hend, -⟩ := h.text
    have hne : cs ≠ [] := by
      rintro rfl
      rw [(hcs.advance_of_none LineSource.drained_nothing rfl).1] at hk
      exact hk rfl
    -- the text that is left ends in a line break, so a lexeme is in it, and behind that whole lines
    obtain ⟨l, rest, hl, hrest⟩ := Lexeme.next?_of_getLast? (hend.resolve_left hne)
    obtain ⟨hcurrent, -, hholds, -⟩ := hcs.advance_of_some hl
    refine ⟨rest, hholds, hrest.symm.imp_left And.left, fun hgoes => ?_⟩
    rcases hrest with hrest | ⟨-, rfl⟩
    · rintro rfl
      cases hrest
    · -- the line is at its end only behind the line break, which ends the statement
      rw [hcurrent] at hgoes
      cases hgoes

/-- Within a statement the line is not at its end, so a token follows. -/
theorem ne_finish (h : e.WithinLines source) (hk : e.current.kind.endsStatement = false) :
    e.advance.current.kind ≠ .finish := by
  obtain ⟨cs, hcs, hend, hne⟩ := h.text
  obtain ⟨l, rest, hl, -⟩ := Lexeme.next?_of_getLast? (hend.resolve_left (hne hk))
  exact hcs.kind_ne_finish hl

omit [Arithmetic α] in
/-- What is done to a session takes no line. -/
theorem act (h : e.WithinLines source) {s : Session α}
    (hfaces : e.session.table.faces <+: s.table.faces) :
    WithinLines source { e with session := s } :=
  ⟨h.settled.act hfaces, h.asked, h.text⟩

/-- Looking for a statement is the same with a source behind the lines. -/
theorem toStatement (h : e.WithinLines source) (hk : e.toStatement.current.kind ≠ .finish) :
    e.toStatement.WithinLines source ∧
      ∀ behind : LineSource, (e.before behind).toStatement = e.toStatement.before behind := by
  fun_induction Evaluation.toStatement e with
  | case1 e hends ih =>
    obtain ⟨hwhole, hadvance⟩ := h.advance (by rw [hends]; simp)
    obtain ⟨hwhole', hstart⟩ := ih hwhole hk
    refine ⟨hwhole', fun behind => ?_⟩
    have hends' : (e.before behind).advance.current.kind = .endOfStatement := by
      rw [hadvance]
      exact hends
    rw [toStatement_of_endOfStatement hends', hadvance, hstart]
  | case2 e hends =>
    obtain ⟨hwhole, hadvance⟩ := h.advance hk
    refine ⟨hwhole, fun behind => ?_⟩
    have hends' : (e.before behind).advance.current.kind ≠ .endOfStatement := by
      rw [hadvance]
      exact hends
    rw [toStatement_of_ne hends', hadvance]

end WithinLines

/-! ## Statements -/

/-- An evaluation with whole lines left, and one with the same stream that has a source behind. -/
def Backed (source behind : LineSource) (e e' : Evaluation α) : Prop :=
  e.WithinLines source ∧ ∃ f, Twins e f ∧ e' = f.before behind

/-- Having a source behind the lines or not is a way to compare evaluations. -/
theorem comparison_backed (source behind : LineSource) :
    Comparison (α := α) 0 [] [] (Backed source behind) where
  settled := by
    rintro e _ ⟨hwhole, f, htwins, rfl⟩
    exact ⟨hwhole.settled, (htwins.settled hwhole.settled).before behind⟩
  content := by
    rintro e _ ⟨-, f, htwins, rfl⟩
    exact Or.inl (congrArg Token.content htwins.current.symm)
  advance := by
    rintro e _ ⟨hwhole, f, htwins, rfl⟩ hk
    have hne := hwhole.ne_finish hk
    have hx : f.advance.stream.exhausted = false := by
      rw [htwins.advance.stream]
      exact hwhole.settled.ready.exhausted_of_ne_finish hne
    exact ⟨(hwhole.advance hne).1, f.advance, htwins.advance, advance_before hx behind⟩
  alike := by
    rintro e _ ⟨-, f, htwins, rfl⟩
    exact htwins.alike
  act := by
    rintro e _ s s' ⟨hwhole, f, htwins, rfl⟩ halike hfaces -
    exact ⟨hwhole.act hfaces, { f with session := s' }, ⟨htwins.ready, htwins.stream, halike⟩, rfl⟩

/-- A statement in the lines is the same with a source behind them, and that source stays behind
the lines that it leaves. -/
theorem WithinLines.statement_before (h : e.WithinLines source)
    (hk : e.toStatement.current.kind ≠ .finish) :
    e.statement.2.WithinLines source ∧ ∀ behind : LineSource,
      (e.before behind).statement = (e.statement.1, e.statement.2.before behind) := by
  obtain ⟨hwhole, hstart⟩ := h.toStatement hk
  have hbacked (behind : LineSource) :
      Backed source behind e.toStatement (e.before behind).toStatement := by
    refine ⟨hwhole, e.toStatement, ⟨hwhole.settled.ready, rfl, ?_⟩, hstart behind⟩
    exact alike_of_unseen rfl
  have hsame (behind : LineSource) :=
    (comparison_backed source behind).simulation.statement (hbacked behind) hk
  refine ⟨(hsame .nothing).2.1, fun behind => ?_⟩
  obtain ⟨hstatement, -, f, htwins, hend⟩ := hsame behind
  -- both logs have gone on from the same one, so they hold and show the same
  have hlog' := (leads_statement (e.before behind)).continues
  rw [hend] at hlog'
  have hf := htwins.eq_of_continues (leads_statement e).continues hlog'
  exact Prod.ext hstatement.symm (hend.trans (by rw [hf]))

/-- As many statements as there are in the lines are the same with a source behind them. -/
theorem WithinLines.after_before (h : e.WithinLines source) {i : Nat}
    (hi : i ≤ (stretches e.script).length) :
    (e.after i).WithinLines source ∧
      ∀ behind : LineSource, (e.before behind).after i = (e.after i).before behind := by
  -- by induction on the number of statements, each of which starts where the one before has ended
  induction i with
  | zero => exact ⟨h, fun _ => rfl⟩
  | succ i ih =>
    obtain ⟨hwhole, hafter⟩ := ih (by omega)
    have hk := mt (h.settled.ready.finish_after_iff i).1 (by omega)
    obtain ⟨hwhole', hstatement⟩ := hwhole.statement_before hk
    refine ⟨by rwa [after_succ_eq], fun behind => ?_⟩
    rw [after_succ_eq, after_succ_eq, hafter, hstatement]

end Evaluation

/-! ## Readers of a text -/

/-- How many statements a text has: the stretches of lexemes between those that end a statement. -/
def statementCount (text : String) : Nat := (stretches (lexemes 1 text.toList)).length

namespace Session

open Evaluation

variable [Arithmetic α] {source source' : LineSource} {text : String}

/-- What the statements of a text come to with two sources that hand out its lines. -/
structure ReadsNoFurther (s : Session α) (text : String) (source source' : LineSource) : Prop where
  statements : ∀ i < statementCount text, ∃ statement,
    ((s.start source).after i).statement.1 = some statement ∧
      ((s.start source').after i).statement.1 = some statement
  session : ∀ i ≤ statementCount text,
    ((s.start source').after i).session = ((s.start source).after i).session
  /-- No more lines than those of the text are asked for. -/
  asked : ∀ i ≤ statementCount text, ∃ n ≤ (LineSource.ofText text).lines.length,
    ((s.start source).after i).stream.HasAsked source n ∧
      ((s.start source').after i).stream.HasAsked source' n
  /-- Nothing has been looked at that was not taken, however many statements there are. -/
  lookahead : ∀ i, ((s.start source).after i).stream.lookahead = none ∧
    ((s.start source').after i).stream.lookahead = none

omit [Arithmetic α] in
theorem withinLines_start (s : Session α)
    (hwhole : text.toList = [] ∨ text.toList.getLast? = some '\n') :
    (s.start (.ofText text)).WithinLines (.ofText text) where
  settled := settled_start _ _
  asked := ⟨0, rfl, Nat.zero_le _, rfl⟩
  text := ⟨text.toList, holds_start text _, hwhole, fun hk => by cases hk⟩

/-- Up to its last statement, evaluating a text of whole lines is the same with any source behind
them. -/
theorem after_start (s : Session α) (hwhole : text.toList = [] ∨ text.toList.getLast? = some '\n')
    {i : Nat} (hi : i ≤ statementCount text) :
    ((s.start (.ofText text)).after i).WithinLines (.ofText text) ∧
      ∀ behind : LineSource, (s.start (behind.before (.ofText text))).after i =
        ((s.start (.ofText text)).after i).before behind :=
  (s.withinLines_start hwhole).after_before (by rwa [Session.start, script_start_ofText])

/-- There is no reading ahead: the statements in some whole lines give the same values and leave the
same session whatever the source has behind them, and it is not asked for it. -/
theorem reads_no_further (s : Session α)
    (hwhole : text.toList = [] ∨ text.toList.getLast? = some '\n')
    (h : source.Delivers text) (h' : source'.Delivers text) :
    s.ReadsNoFurther text source source' := by
  -- both sources are compared with the text alone, which has nothing behind it
  obtain ⟨behind, rfl⟩ := h.exists_behind
  obtain ⟨behind', rfl⟩ := h'.exists_behind
  have hready : (s.start (.ofText text)).Ready := ready_start _ _
  refine ⟨fun i hi => ?_, fun i hi => ?_, fun i hi => ?_, fun i => ?_⟩
  · obtain ⟨hafter, hbefore⟩ := s.after_start hwhole (Nat.le_of_lt hi)
    have hk : ((s.start (.ofText text)).after i).toStatement.current.kind ≠ .finish := by
      rw [Ne, hready.finish_after_iff i, Session.start, script_start_ofText]
      exact Nat.not_le_of_lt hi
    have hstatement := (hafter.statement_before hk).2
    refine ⟨((s.start (.ofText text)).after i).toStatement.body.1, ?_, ?_⟩
    · rw [hbefore, hstatement, statement_of_ne_finish hk]
    · rw [hbefore, hstatement, statement_of_ne_finish hk]
  · obtain ⟨-, hbefore⟩ := s.after_start hwhole hi
    rw [hbefore, hbefore]
    rfl
  · obtain ⟨hafter, hbefore⟩ := s.after_start hwhole hi
    obtain ⟨n, hn⟩ := hafter.asked
    rw [hbefore, hbefore]
    exact ⟨n, hn.answered, hn.before behind, hn.before behind'⟩
  · exact ⟨(ready_start _ _).after i, (ready_start _ _).after i⟩

/-- Lines with two statements, the second one malformed, in front of a part of a line behind which
the source fails, and in front of a line that can be read. -/
theorem reads_no_further_partLine :
    ("x = 2\n1 +\n".toList = [] ∨ "x = 2\n1 +\n".toList.getLast? = some '\n') ∧
      (LineSource.failing "x = 2\n1 +\nx" "connection reset").Delivers "x = 2\n1 +\n" ∧
      (LineSource.ofText "x = 2\n1 +\n3; x\n").Delivers "x = 2\n1 +\n" ∧
      statementCount "x = 2\n1 +\n" = 2 ∧
      (Session.new "calc" .silent (Double.draws 0)).ReadsNoFurther "x = 2\n1 +\n"
        (.failing "x = 2\n1 +\nx" "connection reset") (.ofText "x = 2\n1 +\n3; x\n") := by
  have hwhole : "x = 2\n1 +\n".toList = [] ∨ "x = 2\n1 +\n".toList.getLast? = some '\n' := by decide
  have hfailing :
      (LineSource.failing "x = 2\n1 +\nx" "connection reset").Delivers "x = 2\n1 +\n" := by decide
  have htext : (LineSource.ofText "x = 2\n1 +\n3; x\n").Delivers "x = 2\n1 +\n" := by decide
  exact ⟨hwhole, hfailing, htext, by decide +kernel, reads_no_further _ hwhole hfailing htext⟩

end Session

end DeskCalc
