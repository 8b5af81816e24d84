import DeskCalc.Proofs.Moves
import DeskCalc.Proofs.Reports

/-!
# What a log shows

Whoever looks at a log sees its reports, each on a line of its own, as far as there is room for them.
Nothing else is ever shown, and nothing that was shown or recorded changes again.

* `Writer.firstBytes`, `snd_write` — what writing leaves in a writer; writing one text and then
  another comes to the same as writing both at once (`write_append`).
* `Report.shown`, `allShown` — the line in which a program shows a report, spelled out, and the lines
  of several reports; `ErrorLog.render` gives that line (`render_eq`).
* `ErrorLog.Continues` — a log goes on with more reports, which have all been shown.
* `Evaluation.Leads.continues` — all that ever happens to a log is that it goes on.
-/

namespace DeskCalc

/-! ## Writers -/

namespace Writer

/-- As many of the bytes as there is room for. -/
def firstBytes (room : Option Nat) (bytes : ByteArray) : ByteArray :=
  match room with
  | none => bytes
  | some room => bytes.extract 0 room

/-- The bytes that fit are the first ones. -/
theorem extract_fitting (w : Writer) (bytes : ByteArray) :
    bytes.extract 0 (w.fitting bytes) = firstBytes w.room bytes := by
  unfold fitting firstBytes
  cases w.room with
  | none => exact ByteArray.extract_zero_size
  | some room =>
    simp only
    rcases Nat.le_total room bytes.size with hle | hle
    · rw [Nat.min_eq_left hle]
    · -- there is room for all of them
      have hall := ByteArray.extract_zero_max_size (a := bytes) (i := room)
      rw [Nat.max_eq_left hle] at hall
      rw [Nat.min_eq_right hle, hall, ByteArray.extract_zero_size]

/-- What fits is written, and takes its room. -/
theorem snd_write (w : Writer) (text : String) : (w.write text).2 =
    { w with
      written := w.written ++ firstBytes w.room text.toUTF8
      room := w.room.map (· - text.toUTF8.size) } := by
  simp only [write, extract_fitting, mk.injEq, and_true, true_and]
  cases hroom : w.room with
  | none => rfl
  -- what does not fit uses up the room all the same
  | some room =>
    simp only [fitting, hroom, Option.map_some, Option.some.injEq]
    omega

/-- What the first bytes leave of the room is for the bytes behind them. -/
theorem firstBytes_append (room : Option Nat) (bytes more : ByteArray) :
    firstBytes room (bytes ++ more) =
      firstBytes room bytes ++ firstBytes (room.map (· - bytes.size)) more := by
  cases room with
  | none => rfl
  | some room =>
    show (bytes ++ more).extract 0 room = _
    rw [ByteArray.extract_append, Nat.zero_sub]
    rfl

/-- Writing two texts leaves the same as writing both at once. -/
theorem write_append (w : Writer) (text more : String) :
    ((w.write text).2.write more).2 = (w.write (text ++ more)).2 := by
  have hbytes : (text ++ more).toUTF8 = text.toUTF8 ++ more.toUTF8 := String.toByteArray_append
  rw [snd_write, snd_write, snd_write, hbytes, firstBytes_append, ByteArray.append_assoc,
    ByteArray.size_append]
  cases w.room with
  | none => rfl
  | some room => simp [Nat.sub_sub]

/-- Writing nothing leaves a writer as it is. -/
theorem write_empty (w : Writer) : (w.write "").2 = w := by
  obtain ⟨written, room, flushFails⟩ := w
  rw [snd_write]
  cases room with
  | none => simp [firstBytes]
  | some room =>
    have hnone : ByteArray.empty.extract 0 room = .empty :=
      ByteArray.extract_eq_empty_iff.2 (Nat.min_le_right _ _)
    simp [firstBytes, hnone]

end Writer

/-! ## Logs -/

namespace Report

/-- The line in which a program shows a report: who reports what, and near which line. -/
def shown (program : String) (r : Report) : String :=
  program ++ ": " ++ r.message ++ " near line " ++ toString r.line ++ "\n"

/-- The lines of some reports, in order. -/
def allShown (program : String) (rs : List Report) : String :=
  String.join (rs.map (shown program))

/-- The lines of more reports come behind the others. -/
theorem allShown_append (program : String) (rs more : List Report) :
    allShown program (rs ++ more) = allShown program rs ++ allShown program more := by
  rw [allShown, List.map_append, String.join_append]
  rfl

/-- One report is shown in one line. -/
theorem allShown_singleton (program : String) (r : Report) :
    allShown program [r] = r.shown program := by
  simp [allShown, String.join]

end Report

theorem Sink.print_append (sink : Sink) (text more : String) :
    (sink.print text).print more = sink.print (text ++ more) := by
  cases sink with
  | silent => rfl
  | writer w => exact congrArg Sink.writer (w.write_append text more)

theorem Sink.print_empty (sink : Sink) : sink.print "" = sink := by
  cases sink with
  | silent => rfl
  | writer w => exact congrArg Sink.writer w.write_empty

/-- The bytes of a new writer are the first ones of what was shown. -/
theorem Sink.written_print_new (room : Option Nat) (flushFails : Bool) (text : String) :
    ((Sink.writer (.new room flushFails)).print text).written =
      Writer.firstBytes room text.toUTF8 := by
  show ((Writer.new room flushFails).write text).2.written = _
  rw [Writer.snd_write]
  exact ByteArray.empty_append

namespace ErrorLog

variable {log log' log'' : ErrorLog}

/-- A log renders a report as the line in which its program shows it. -/
theorem render_eq (log : ErrorLog) (r : Report) : log.render r ++ "\n" = r.shown log.program := by
  rfl

/-- The second log is the first one with more reports, all of which have been shown. -/
structure Continues (log log' : ErrorLog) : Prop where
  program : log'.program = log.program
  reports : ∃ new, log'.history.toList = log.history.toList ++ new ∧
    log'.sink = log.sink.print (Report.allShown log.program new)

/-- A log of which nothing but the line has changed goes on. -/
theorem Continues.of_eq (hprogram : log'.program = log.program)
    (hhistory : log'.history = log.history) (hsink : log'.sink = log.sink) :
    log.Continues log' := by
  refine ⟨hprogram, [], by rw [hhistory, List.append_nil], ?_⟩
  rw [hsink]
  exact (Sink.print_empty _).symm

theorem Continues.refl (log : ErrorLog) : log.Continues log := .of_eq rfl rfl rfl

/-- What goes on twice goes on with the reports of both. -/
theorem Continues.trans (h : log.Continues log') (h' : log'.Continues log'') :
    log.Continues log'' := by
  obtain ⟨hprogram, new, hnew, hsink⟩ := h
  obtain ⟨hprogram', more, hmore, hsink'⟩ := h'
  refine ⟨hprogram'.trans hprogram, new ++ more, ?_, ?_⟩
  · rw [hmore, hnew, List.append_assoc]
  · rw [hsink', hsink, hprogram, Sink.print_append, Report.allShown_append]

/-- A report is recorded and shown at once. -/
theorem continues_report (problem : Problem) (log : ErrorLog) :
    log.Continues (log.report problem) := by
  refine ⟨rfl, [⟨log.line, problem⟩], by simp [report], ?_⟩
  rw [Report.allShown_singleton, ← render_eq]
  rfl

theorem Continues.isPrefix (h : log.Continues log') :
    log.history.toList <+: log'.history.toList := by
  obtain ⟨new, hnew, -⟩ := h.reports
  exact ⟨new, hnew.symm⟩

/-- What is shown depends on what was recorded alone. -/
theorem Continues.sink_eq {fork : ErrorLog} (h : log.Continues log') (hfork : log.Continues fork)
    (hhistory : log'.history.toList = fork.history.toList) : log'.sink = fork.sink := by
  obtain ⟨new, hnew, hsink⟩ := h.reports
  obtain ⟨new', hnew', hsink'⟩ := hfork.reports
  rw [hnew, hnew'] at hhistory
  rw [hsink, hsink', List.append_cancel_left hhistory]

/-- A new log has shown all its reports, as far as there is room for them. -/
theorem Continues.written {program : String} {room : Option Nat} {flushFails : Bool}
    (h : (new program (.writer (.new room flushFails))).Continues log) :
    log.sink.written =
      Writer.firstBytes room (Report.allShown program log.history.toList).toUTF8 := by
  obtain ⟨-, rs, hrs, hsink⟩ := h
  have hrs : log.history.toList = rs := hrs
  rw [hrs, hsink]
  exact Sink.written_print_new room flushFails _

end ErrorLog

/-! ## Evaluations -/

variable {α : Type} [Arithmetic α]

open ErrorLog

/-- Making a token reports at most. -/
theorem Session.continues_token (l : Lexeme) (s : Session α) :
    s.log.Continues (s.token l).2.log := by
  cases l with
  | newline => exact .refl _
  | mark kind => exact .refl _
  | stray c => exact continues_report _ _
  -- only a numeral without a value is reported
  | number n =>
    cases hv : n.value? with
    | none =>
      simp only [Session.token, hv]
      exact continues_report _ _
    | some v =>
      simp only [Session.token, hv]
      exact .refl _
  | name chars => exact .refl _

/-- Reading a token counts a line and reports at most. -/
theorem TokenStream.continues_scan (t : TokenStream α) (s : Session α) :
    s.log.Continues (t.scan s).2.2.log := by
  -- the line that is counted first is not shown
  have hnext : s.log.Continues (if t.newlinePending then s.nextLine else s).log := by
    split
    · exact .of_eq rfl rfl rfl
    · exact .refl _
  unfold scan
  simp only
  generalize (if t.newlinePending then s.nextLine else s) = r at hnext
  refine hnext.trans ?_
  split
  · exact .refl _
  · split
    · exact Session.continues_token _ _
    · exact .refl _
    · exact continues_report _ _

namespace Evaluation

variable {e e' : Evaluation α}

theorem continues_advance (e : Evaluation α) : e.session.log.Continues e.advance.session.log := by
  obtain ⟨t, s⟩ := e
  unfold advance TokenStream.advance
  cases t.lookahead with
  | some token => exact .refl _
  | none => exact t.continues_scan s

/-- Whatever happens to a log, it goes on. -/
theorem Move.continues (h : Move e e') : e.session.log.Continues e'.session.log := by
  cases h with
  | switch source => exact .of_eq rfl rfl rfl
  -- looking at a token reads it, and so does all that taking it does to the log
  | peek =>
    rw [session_peek]
    exact continues_advance e
  | advance => exact continues_advance e
  | report problem => exact continues_report problem _
  | intern name => exact .refl _
  | assign ha => rw [Session.log_assign ha]; exact .refl _
  | draw => exact .refl _

theorem Leads.continues (h : Leads e e') : e.session.log.Continues e'.session.log := by
  induction h with
  | refl => exact .refl _
  | tail _ move ih => exact ih.trans move.continues

end Evaluation

end DeskCalc
