import DeskCalc.Proofs.Endings
import DeskCalc.Double.Checked

/-!
# Sources that fail

A line that cannot be read ends the input, and so does a source that breaks off. The lines in front
of it are evaluated as they would be alone, nothing of the failing line or behind it is, and one
report is made of the failure, on the line where it happened.

* `Text.ofLines` — the text of some lines; `Text.splitAfter_lines` cuts it up again.
* `LineSource.FailsBehind` — a source that hands out some lines and then fails. Such are bytes with
  a line that is no text (`failsBehind_ofBytes`) and sources that break off (`failsBehind_failing`).
* `Session.CleanEnd` — what it comes to that a source fails.
* `LineSource.FailsBehind.cleanEnd` — every failure of a source is a clean end of the input.
-/

namespace DeskCalc

/-! ## Lines -/

namespace Text

/-- The text of some lines, each of them complete with its line break. -/
def ofLines (ls : List (List Char)) : String := String.ofList (ls.flatMap (· ++ ['\n']))

theorem toList_ofLines (ls : List (List Char)) :
    (ofLines ls).toList = ls.flatMap (· ++ ['\n']) := String.toList_ofList

/-- A line is cut off with its stop. -/
theorem splitAfter_line {β : Type} [DecidableEq β] {stop : β} {xs : List β} (h : stop ∉ xs)
    (more : List β) :
    splitAfter stop (xs ++ stop :: more) = (xs ++ [stop]) :: splitAfter stop more := by
  by_cases hnil : xs = []
  · rw [hnil]
    exact splitAfter_stop stop more
  · rw [splitAfter_append h hnil, splitAfter_stop]

/-- Whole lines are the first pieces of a text. -/
theorem splitAfter_lines {β : Type} [DecidableEq β] {stop : β} {ls : List (List β)}
    (h : ∀ l ∈ ls, stop ∉ l) (more : List β) :
    splitAfter stop (ls.flatMap (· ++ [stop]) ++ more) =
      ls.map (· ++ [stop]) ++ splitAfter stop more := by
  induction ls with
  | nil => rfl
  | cons l ls ih =>
    rw [List.flatMap_cons, List.append_assoc, List.append_assoc, List.singleton_append,
      splitAfter_line (h l List.mem_cons_self), ih fun l' hl' => h l' (List.mem_cons_of_mem l hl')]
    rfl

/-- There are as many line breaks as lines. -/
theorem lineBreaks_ofLines {ls : List (List Char)} (h : ∀ l ∈ ls, '\n' ∉ l) :
    lineBreaks (ofLines ls) = ls.length := by
  rw [lineBreaks, toList_ofLines]
  induction ls with
  | nil => rfl
  | cons l ls ih =>
    -- the line itself has none, and one is put behind it
    have hl : l.count '\n' = 0 := List.count_eq_zero.2 (h l List.mem_cons_self)
    rw [List.flatMap_cons, List.count_append, List.count_append, hl,
      ih fun l' hl' => h l' (List.mem_cons_of_mem l hl')]
    simp only [List.count_singleton_self, List.length_cons]
    omega

/-- The text of whole lines ends in a line break, if there are any. -/
theorem ofLines_complete (ls : List (List Char)) :
    (ofLines ls).toList = [] ∨ (ofLines ls).toList.getLast? = some '\n' := by
  rw [toList_ofLines]
  rcases List.eq_nil_or_concat ls with rfl | ⟨init, l, rfl⟩
  · exact Or.inl rfl
  · right
    simp

end Text

namespace LineSource

/-- The source hands out some lines, each of them complete, and fails where the next one is to be
read. A part of that line may have been read. -/
structure FailsBehind (ls : List (List Char)) (message : String) (source : LineSource) : Prop where
  whole : ∀ l ∈ ls, '\n' ∉ l
  fails : ∃ (behind last : LineSource) (part : List Char),
    behind.read = (.failed part message, last) ∧
      source = { behind with lines := ls.map (fun l => .text (l ++ ['\n'])) ++ behind.lines }

variable {ls : List (List Char)} {message : String} {source : LineSource}

/-- What is left is the text of the lines, and behind it the source fails. -/
theorem FailsBehind.holds (h : source.FailsBehind ls message) : ∃ behind : LineSource,
    behind.Stops (some message) ∧ behind.Holds [] source (Text.ofLines ls).toList := by
  obtain ⟨hwhole, behind, last, part, hread, rfl⟩ := h
  -- cutting the text at its line breaks gives back the lines that the source hands out
  have hsplit : Text.splitAfter '\n' (Text.ofLines ls).toList = ls.map (· ++ ['\n']) := by
    have := Text.splitAfter_lines hwhole []
    rwa [List.append_nil, Text.splitAfter_nil, List.append_nil, ← Text.toList_ofLines] at this
  refine ⟨behind, .failed hread, (Text.ofLines ls).toList, rfl, ?_, Or.inl rfl, ?_⟩
  · rw [hsplit, List.map_map]
    rfl
  · exact (Text.ofLines_complete ls).imp_right Or.inl

/-- Whole lines are complete, and what is left behind them is not. -/
theorem complete_lines {part : List Char} (hpart : '\n' ∉ part) :
    failing.complete (ls.map (· ++ ['\n']) ++ Text.splitAfter '\n' part) =
      (ls.map (· ++ ['\n']), part) := by
  unfold failing.complete
  -- nothing is left behind the lines, or a piece that does not end in a line break
  by_cases hnil : part = []
  · subst hnil
    rw [Text.splitAfter_nil, List.append_nil]
    rcases List.eq_nil_or_concat ls with rfl | ⟨init, l, rfl⟩
    · rfl
    · rw [if_pos (by simp)]
  · have hpiece : Text.splitAfter '\n' part = [part] := by
      have := Text.splitAfter_append hpart hnil []
      rwa [List.append_nil] at this
    have hlast : part.getLast? ≠ some '\n' := fun h => hpart (List.mem_of_getLast? h)
    rw [hpiece, if_neg (by simpa using hlast)]
    simp

/-- A source that breaks off fails behind its last complete line, with what it had of the next. -/
theorem failsBehind_failing (hwhole : ∀ l ∈ ls, '\n' ∉ l) {part : String}
    (hpart : '\n' ∉ part.toList) (message : String) :
    (failing (Text.ofLines ls ++ part) message).FailsBehind ls message := by
  refine ⟨hwhole, ⟨[], .failure part.toList message, true⟩, _, part.toList, rfl, ?_⟩
  -- the lines are handed out, and the part of a line behind them is lost with the failure
  have hcomplete : failing.complete (Text.splitAfter '\n' (Text.ofLines ls ++ part).toList) =
      (ls.map (· ++ ['\n']), part.toList) := by
    rw [String.toList_append, Text.toList_ofLines, Text.splitAfter_lines hwhole,
      complete_lines hpart]
  simp only [failing, hcomplete, List.map_map, List.append_nil]
  rfl

/-- Bytes fail behind the last line in front of one that is no text. -/
theorem failsBehind_ofBytes (hwhole : ∀ l ∈ ls, '\n' ∉ l) {bytes : ByteArray}
    {line : List UInt8} {lines : List (List UInt8)}
    (hlines : Text.splitAfter 10 bytes.data.toList = line :: lines)
    (hline : decodeLine line = .undecodable) :
    (ofBytes ((Text.ofLines ls).toUTF8 ++ bytes)).FailsBehind ls undecodableMessage := by
  refine ⟨hwhole, ⟨.undecodable :: lines.map decodeLine, .clean, false⟩, _, [], rfl, ?_⟩
  -- line by line the bytes are those of the text, and only those of a line break stand for one
  have hencode : (Text.ofLines ls).toUTF8.data.toList =
      (ls.map (List.flatMap String.utf8EncodeChar)).flatMap (· ++ [10]) := by
    rw [data_toUTF8, Text.toList_ofLines, List.flatMap_assoc, List.flatMap_map]
    refine congrArg (List.flatMap · ls) (funext fun l => ?_)
    rw [List.flatMap_append]
    rfl
  have hbytes : ∀ l ∈ ls.map (List.flatMap String.utf8EncodeChar), 10 ∉ l := by
    intro l hl hmem
    obtain ⟨cs, hcs, rfl⟩ := List.mem_map.1 hl
    obtain ⟨c, hc, hmem⟩ := List.mem_flatMap.1 hmem
    exact hwhole cs hcs (mem_utf8EncodeChar_iff.1 hmem ▸ hc)
  have hdecode : ∀ l : List Char,
      decodeLine (l.flatMap String.utf8EncodeChar ++ [10]) = .text (l ++ ['\n']) := by
    intro l
    rw [← decodeLine_encode, List.flatMap_append]
    rfl
  simp only [ofBytes, ByteArray.toList_data_append, hencode, Text.splitAfter_lines hbytes, hlines,
    List.map_append, List.map_cons, List.map_map, hline]
  congr 1
  exact congrArg (· ++ _) (List.map_congr_left fun l _ => hdecode l)

end LineSource

/-! ## The end of the input -/

variable {α : Type} [Arithmetic α]

open Evaluation

/-- What it comes to in a session that a source fails behind some lines. -/
structure Session.CleanEnd (s : Session α) (source : LineSource) (ls : List (List Char))
    (message : String) : Prop where
  /-- A run has the result of a run of the lines, and prints the same. -/
  result (w : Writer) : (s.run source w).1 = (s.run (.ofText (Text.ofLines ls)) w).1
  printed (w : Writer) : (s.run source w).2.1 = (s.run (.ofText (Text.ofLines ls)) w).2.1
  /-- If the run comes to its end, the session has one more report, of the failure and on the line of
  the failure, and is otherwise the same. -/
  ended (w : Writer) : (s.run source w).1 = .ok () →
    (s.run source w).2.2 = (s.run (.ofText (Text.ofLines ls)) w).2.2.report (.input message) ∧
      (s.run source w).2.2.reports = (s.run (.ofText (Text.ofLines ls)) w).2.2.reports ++
        [⟨ls.length + 1, .input message⟩] ∧
      ((s.start source).run w).2.2.stream.exhausted = true
  /-- If printing fails before, nothing else does. -/
  broken (w : Writer) {failure : String} : (s.run source w).1 = .error failure →
    (s.run source w).2.2 = (s.run (.ofText (Text.ofLines ls)) w).2.2
  /-- Whatever was asked before, the tokens are those of the lines and of their end. -/
  answer (calls : List Call) (call : Call) : (((s.start source).asked calls).answer call).1 =
    (((s.start (.ofText (Text.ofLines ls))).asked calls).answer call).1
  /-- The source fails when the calls come to the end of the lines, and not before. -/
  session (calls : List Call) : ((s.start source).asked calls).session =
    if ((s.start source).asked calls).stream.exhausted then
      ((s.start (.ofText (Text.ofLines ls))).asked calls).session.report (.input message)
    else ((s.start (.ofText (Text.ofLines ls))).asked calls).session
  line (calls : List Call) : ((s.start source).asked calls).stream.exhausted = true →
    ((s.start source).asked calls).session.log.line = ls.length + 1
  /-- From then on there is nothing but the end of the input, the source is not asked again, and
  nothing is reported. -/
  behind (e : Evaluation α) : Leads (s.start source) e → e.stream.exhausted = true →
    (∀ calls, ((e.asked calls).answer .get).1.kind = .finish ∧
      ((e.asked calls).answer .next).1.kind = .finish ∧ (e.asked calls).session = e.session ∧
      (e.asked calls).stream.source = e.stream.source ∧
      (e.asked calls).stream.exhausted = true) ∧
    e.statement.1 = none ∧ e.statement.2.session = e.session ∧
      e.statement.2.stream.source = e.stream.source ∧ e.statement.2.stream.exhausted = true

/-- However a source fails, and in whatever session: it is a clean end of the input. -/
theorem LineSource.FailsBehind.cleanEnd {source : LineSource} {ls : List (List Char)}
    {message : String} (h : source.FailsBehind ls message) (s : Session α) :
    s.CleanEnd source ls message := by
  -- the source is the text of the lines with a source behind it that stops there
  obtain ⟨behind, hstops, hsource⟩ := h.holds
  have hcomplete := Text.ofLines_complete ls
  have hbreaks := Text.lineBreaks_ofLines h.whole
  have hrun := fun w => s.run_of_stops w hstops hsource (hcomplete.imp_right Or.inl)
  have hasked := fun calls => s.asked_of_stops calls hstops hsource hcomplete
  constructor
  case result => exact fun w => (hrun w).1
  case printed => exact fun w => (hrun w).2.1
  case ended =>
    intro w hok
    obtain ⟨hresult, -, ⟨-, hline, hsession, hx⟩ | ⟨⟨failure, herror⟩, -⟩⟩ := hrun w
    · refine ⟨hsession, ?_, hx⟩
      rw [hsession, ← hbreaks, ← hline]
      exact reports_report _ (.start .nothing _)
    · rw [hresult, herror] at hok
      cases hok
  case broken =>
    intro w failure herror
    obtain ⟨hresult, -, ⟨hok, -⟩ | ⟨-, hsession⟩⟩ := hrun w
    · rw [hresult, hok] at herror
      cases herror
    · exact hsession
  case answer => exact fun calls => (hasked calls).1
  case session =>
    intro calls
    have hsession := (hasked calls).2
    split at hsession
    · next hx => rw [if_pos hx, hsession.2]
    · next hx => rw [if_neg hx, hsession]
  case line =>
    intro calls hx
    have hsession := (hasked calls).2
    rw [if_pos hx] at hsession
    rw [hsession.2, ← hbreaks]
    exact hsession.1
  case behind =>
    intro e hleads hx
    -- once asked in vain, the input is over, and an input that is over answers with its end
    have hover := hleads.ended hx
    obtain ⟨hadvance, -, hsession, hsource⟩ := hover.advance
    refine ⟨fun calls => ?_, ?_⟩
    · obtain ⟨hasked, hsession, hsource⟩ := hover.asked calls
      have hfinish := hasked.advance.2.1
      exact ⟨hfinish, (congrArg Token.kind (fst_peek _)).trans hfinish, hsession, hsource,
        hasked.exhausted⟩
    · rw [hover.statement]
      exact ⟨rfl, hsession, hsource, hadvance.exhausted⟩

/-- Bytes of which the second line is no text. -/
def LineSource.brokenBytes : LineSource :=
  ofBytes ((Text.ofLines ["x = 2".toList]).toUTF8 ++ ⟨#[120, 255, 10, 49]⟩)

/-- A source that breaks off within its third line. -/
def LineSource.brokenOff : LineSource :=
  failing (Text.ofLines ["1+".toList, ";".toList] ++ "x") "connection reset"

/-- Bytes that are no text behind one line, and a reader that breaks off within a line. -/
theorem LineSource.FailsBehind.cleanEnd_broken :
    brokenBytes.FailsBehind ["x = 2".toList] undecodableMessage ∧
      (Session.new "calc" .silent (Double.draws 0)).CleanEnd brokenBytes ["x = 2".toList]
        undecodableMessage ∧
      brokenOff.FailsBehind ["1+".toList, ";".toList] "connection reset" ∧
      (Session.new "calc" .silent (Double.draws 0)).CleanEnd brokenOff
        ["1+".toList, ";".toList] "connection reset" := by
  have hlines : Text.splitAfter 10 (ByteArray.mk #[120, 255, 10, 49]).data.toList =
      [120, 255, 10] :: [[49]] := rfl
  have hbytes : brokenBytes.FailsBehind ["x = 2".toList] undecodableMessage :=
    failsBehind_ofBytes (by decide) hlines (by decide)
  have hoff : brokenOff.FailsBehind ["1+".toList, ";".toList] "connection reset" :=
    failsBehind_failing (by decide) (by decide) _
  exact ⟨hbytes, hbytes.cleanEnd _, hoff, hoff.cleanEnd _⟩

end DeskCalc
