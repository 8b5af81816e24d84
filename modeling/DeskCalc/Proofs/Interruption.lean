import DeskCalc.Proofs.Concatenation
import DeskCalc.Proofs.Display
import DeskCalc.Proofs.Script

/-!
# Runs that cannot print

A run prints each value as soon as it is known, so a writer that fails stops it between two
statements. What was evaluated up to there stays evaluated, and nothing behind it was read.

* `Writer.Fits`, `behind` — what there is room for, and the writer behind it.
* `Statement.print_eq_writeAll` — it makes no difference that a line is written in pieces.
* `Writer.TakesAll`, `StopsAt` — the writer takes what all statements show, or fails at one of them.
* `Evaluation.run_of_takesAll`, `run_of_stopsAt` — what a run comes to then.
* `Session.run_interrupted` — the same of a text.
-/

namespace DeskCalc

/-! ## Writers with little room -/

namespace Writer

/-- There is room for all of the bytes. -/
def Fits (w : Writer) (bytes : ByteArray) : Prop := ∀ room, w.room = some room → bytes.size ≤ room

/-- The writer behind the bytes, or as many of them as there was room for. -/
def behind (w : Writer) (bytes : ByteArray) : Writer :=
  { w with
    written := w.written ++ firstBytes w.room bytes
    room := w.room.map (· - bytes.size) }

variable {w : Writer} {bytes more : ByteArray}

theorem fits_empty (w : Writer) : w.Fits .empty := fun _ _ => Nat.zero_le _

theorem behind_empty (w : Writer) : w.behind .empty = w :=
  (w.snd_write "").symm.trans w.write_empty

/-- What is written in two parts leaves the writer as when it is written at once. -/
theorem behind_append (w : Writer) (bytes more : ByteArray) :
    (w.behind bytes).behind more = w.behind (bytes ++ more) := by
  simp only [behind, firstBytes_append, ByteArray.append_assoc, ByteArray.size_append]
  cases w.room with
  | none => rfl
  | some room => simp [Nat.sub_sub]

/-- Where there is room for all, all of it is written. -/
theorem firstBytes_of_fits (h : w.Fits bytes) : firstBytes w.room bytes = bytes := by
  unfold firstBytes
  cases hroom : w.room with
  | none => rfl
  | some room =>
    have hall := ByteArray.extract_zero_max_size (a := bytes) (i := room)
    rw [Nat.max_eq_left (h room hroom)] at hall
    exact hall

/-- There is room for two parts if there is for the first, and then for the second. -/
theorem fits_append_iff :
    w.Fits (bytes ++ more) ↔ w.Fits bytes ∧ (w.behind bytes).Fits more := by
  unfold Fits behind
  cases w.room with
  | none => simp
  | some room =>
    simp only [Option.map_some, Option.some.injEq, forall_eq', ByteArray.size_append]
    omega

/-- Writing all that there is room for does not fail, and writing more does. -/
theorem write_of_fits {text : String} (h : w.Fits text.toUTF8) :
    w.write text = (.ok (), w.behind text.toUTF8) := by
  -- all of the text fits, whatever else there is room for
  have hfitting : w.fitting text.toUTF8 = text.toUTF8.size := by
    unfold fitting
    cases hroom : w.room with
    | none => rfl
    | some room => exact Nat.min_eq_right (h room hroom)
  refine Prod.ext ?_ (w.snd_write text)
  exact if_pos hfitting

/-- Writing more than there is room for fails, with what fits written. -/
theorem write_of_not_fits {text : String} (h : ¬ w.Fits text.toUTF8) :
    w.write text = (.error fullMessage, w.behind text.toUTF8) := by
  -- the room is less than the text, so less than the text is written
  have hfitting : w.fitting text.toUTF8 ≠ text.toUTF8.size := by
    unfold Fits at h
    unfold fitting
    cases hroom : w.room with
    | none => simp [hroom] at h
    | some room =>
      simp only [hroom, Option.some.injEq, forall_eq', Nat.not_le] at h
      simp only
      omega
  refine Prod.ext ?_ (w.snd_write text)
  exact if_neg hfitting

/-- Writes pieces of a text one after another, as long as none of them fails. -/
def writeAll (pieces : List String) (w : Writer) : Except String Unit × Writer :=
  match pieces with
  | [] => (.ok (), w)
  | piece :: pieces =>
    match w.write piece with
    | (.ok (), w) => w.writeAll pieces
    | (.error message, w) => (.error message, w)

/-- What does not fit leaves no room. -/
theorem behind_of_not_fits (h : ¬ w.Fits bytes) (more : ByteArray) :
    w.behind (bytes ++ more) = w.behind bytes := by
  unfold Fits at h
  cases hroom : w.room with
  | none => simp [hroom] at h
  | some room =>
    simp only [hroom, Option.some.injEq, forall_eq', Nat.not_le] at h
    -- no room is left behind what did not fit
    have hnone : more.extract 0 (room - bytes.size) = .empty :=
      ByteArray.extract_eq_empty_iff.2 (by omega)
    rw [← behind_append]
    simp only [behind, hroom, firstBytes, Option.map_some, hnone, ByteArray.append_empty, mk.injEq,
      and_true, true_and, Option.some.injEq]
    omega

/-- It makes no difference that a text is written in pieces. -/
theorem writeAll_eq (pieces : List String) (w : Writer) :
    w.writeAll pieces = w.write (String.join pieces) := by
  induction pieces generalizing w with
  | nil =>
    rw [show String.join [] = "" from rfl, write_of_fits (w.fits_empty)]
    exact Prod.ext rfl w.behind_empty.symm
  | cons piece pieces ih =>
    have hjoin : (String.join (piece :: pieces)).toUTF8 =
        piece.toUTF8 ++ (String.join pieces).toUTF8 := by
      rw [String.join_cons]
      exact String.toByteArray_append
    -- the writing fails at the first piece that does not fit, and then has no room left
    by_cases hpiece : w.Fits piece.toUTF8
    · rw [writeAll, write_of_fits hpiece]
      simp only [ih]
      by_cases hpieces : (w.behind piece.toUTF8).Fits (String.join pieces).toUTF8
      · rw [write_of_fits hpieces, write_of_fits (hjoin ▸ fits_append_iff.2 ⟨hpiece, hpieces⟩),
          hjoin, behind_append]
      · have hjoined : ¬ w.Fits (String.join (piece :: pieces)).toUTF8 := by
          rw [hjoin, fits_append_iff]
          exact fun h => hpieces h.2
        rw [write_of_not_fits hpieces, write_of_not_fits hjoined, hjoin, behind_append]
    · have hjoined : ¬ w.Fits (String.join (piece :: pieces)).toUTF8 := by
        rw [hjoin, fits_append_iff]
        exact fun h => hpiece h.1
      rw [writeAll, write_of_not_fits hpiece, write_of_not_fits hjoined, hjoin,
        behind_of_not_fits hpiece]

end Writer

/-! ## Printing statements -/

variable {α : Type} [Arithmetic α]

/-- What the first statement shows is printed first. -/
theorem printed_cons (statement : Statement α) (statements : List (Statement α)) :
    printed .empty (statement :: statements) =
      statement.shown.toUTF8 ++ printed .empty statements := by
  -- what is printed stands behind whatever was there before
  have hbytes (bytes : ByteArray) :
      printed bytes statements = bytes ++ printed .empty statements := by
    induction statements generalizing bytes with
    | nil => exact ByteArray.append_empty.symm
    | cons first rest ih =>
      show printed (bytes ++ first.shown.toUTF8) rest = bytes ++ printed (.empty ++ _) rest
      rw [ih, ih (.empty ++ _), ByteArray.empty_append, ByteArray.append_assoc]
  show printed (.empty ++ statement.shown.toUTF8) statements = _
  rw [hbytes, ByteArray.empty_append]

/-- A value is printed as a tab, its text and a line break, piece by piece, and then it is
flushed. -/
theorem Statement.print_eq_writeAll (value : α) (w : Writer) :
    (Statement.expression value).print w =
      match w.writeAll ["\t", Arithmetic.format value, "\n"] with
      | (.ok (), w) => (w.flush, w)
      | (.error message, w) => (.error message, w) := by
  have hjoin : String.join ["\t", Arithmetic.format value, "\n"] =
      "\t" ++ Arithmetic.format value ++ "\n" := by
    simp [String.join_cons, String.append_assoc]
  rw [Writer.writeAll_eq, hjoin]
  rfl

namespace Writer

variable {w : Writer} {statement : Statement α} {statements : List (Statement α)} {k : Nat}
  {message : String}

/-- The writer takes what the statements show. -/
structure TakesAll (w : Writer) (statements : List (Statement α)) : Prop where
  fits : w.Fits (printed .empty statements)
  flushes : w.flushFails = true → ∀ value, .expression value ∉ statements

/-- The writer takes what the statements in front of the one with the given number show, and fails
at that: there is no room for what it shows, or there is and flushing fails. -/
structure StopsAt (w : Writer) (statements : List (Statement α)) (k : Nat) (message : String) :
    Prop where
  isExpression : ∃ value, statements[k]? = some (.expression value)
  before : w.TakesAll (statements.take k)
  cause : ¬ w.Fits (printed .empty (statements.take (k + 1))) ∧ message = fullMessage ∨
    w.Fits (printed .empty (statements.take (k + 1))) ∧ w.flushFails = true ∧ message = flushMessage

theorem takesAll_nil (w : Writer) : w.TakesAll ([] : List (Statement α)) :=
  ⟨w.fits_empty, fun _ _ => List.not_mem_nil⟩

/-- The writer takes what the first statement shows, and behind that what the others show. -/
theorem takesAll_cons_iff : w.TakesAll (statement :: statements) ↔
    w.TakesAll [statement] ∧ (w.behind statement.shown.toUTF8).TakesAll statements := by
  have hone : printed .empty [statement] = statement.shown.toUTF8 := by
    rw [printed_cons]
    exact ByteArray.append_empty
  have hfits : w.Fits (printed .empty (statement :: statements)) ↔
      w.Fits (printed .empty [statement]) ∧
        (w.behind statement.shown.toUTF8).Fits (printed .empty statements) := by
    rw [hone, printed_cons, fits_append_iff]
  -- room is needed for both parts, and flushing fails for both or for none
  constructor
  · intro h
    obtain ⟨hfirst, hrest⟩ := hfits.1 h.fits
    refine ⟨⟨hfirst, fun hf value hmem => ?_⟩, hrest, fun hf value hmem => ?_⟩
    · exact h.flushes hf value (List.mem_cons.2 (Or.inl (List.mem_singleton.1 hmem)))
    · exact h.flushes hf value (List.mem_cons_of_mem _ hmem)
  · rintro ⟨hfirst, hrest⟩
    refine ⟨hfits.2 ⟨hfirst.fits, hrest.fits⟩, fun hf value hmem => ?_⟩
    rcases List.mem_cons.1 hmem with rfl | hmem
    · exact hfirst.flushes hf value (List.mem_singleton_self _)
    · exact hrest.flushes hf value hmem

/-- There is room for what the statement shows. -/
theorem fits_of_takesAll (h : w.TakesAll [statement]) : w.Fits statement.shown.toUTF8 := by
  have hfits := h.fits
  rw [printed_cons, fits_append_iff] at hfits
  exact hfits.1

/-- What a statement shows is printed if the writer takes it. -/
theorem print_of_takesAll (h : w.TakesAll [statement]) :
    statement.print w = (.ok (), w.behind statement.shown.toUTF8) := by
  cases statement with
  | assignment value => exact Prod.ext rfl w.behind_empty.symm
  | expression value =>
    -- a value is flushed, and the writer takes it, so flushing does not fail
    have hflush : w.flushFails = false := by
      by_contra hf
      exact h.flushes (by simpa using hf) value (List.mem_singleton_self _)
    have hwrite : w.write ("\t" ++ Arithmetic.format value ++ "\n") = _ :=
      write_of_fits (fits_of_takesAll h)
    unfold Statement.print
    simp only [hwrite]
    refine Prod.ext ?_ rfl
    show (w.behind _).flush = .ok ()
    unfold flush
    exact if_neg (by simp [behind, hflush])

/-- Where the writer fails at a statement, so does printing it, and what there was room for is
left. -/
theorem print_of_stopsAt (h : w.StopsAt [statement] 0 message) :
    statement.print w = (.error message, w.behind statement.shown.toUTF8) := by
  obtain ⟨⟨value, hvalue⟩, -, hcause⟩ := h
  cases hvalue
  have hone : printed .empty ([.expression value].take (0 + 1)) =
      (Statement.expression value).shown.toUTF8 := by
    rw [List.take_succ_cons, List.take_zero, printed_cons]
    exact ByteArray.append_empty
  rw [hone] at hcause
  unfold Statement.print
  -- there is no room for it, or there is and flushing fails
  rcases hcause with ⟨hfits, rfl⟩ | ⟨hfits, hflush, rfl⟩
  · have hwrite : w.write ("\t" ++ Arithmetic.format value ++ "\n") = _ := write_of_not_fits hfits
    simp only [hwrite]
    rfl
  · have hwrite : w.write ("\t" ++ Arithmetic.format value ++ "\n") = _ := write_of_fits hfits
    simp only [hwrite]
    refine Prod.ext ?_ rfl
    show (w.behind _).flush = _
    unfold flush
    exact if_pos hflush

/-- The writer fails at a later statement if it takes the first one and fails behind it. -/
theorem stopsAt_succ_iff : w.StopsAt (statement :: statements) (k + 1) message ↔
    w.TakesAll [statement] ∧ (w.behind statement.shown.toUTF8).StopsAt statements k message := by
  -- what fits in front of the first statement is what fits behind it
  have hfits (h : w.TakesAll [statement]) :
      w.Fits (printed .empty ((statement :: statements).take (k + 1 + 1))) ↔
        (w.behind statement.shown.toUTF8).Fits (printed .empty (statements.take (k + 1))) := by
    rw [List.take_succ_cons, printed_cons, fits_append_iff]
    exact and_iff_right (fits_of_takesAll h)
  constructor
  · rintro ⟨hexpression, hbefore, hcause⟩
    rw [List.take_succ_cons, takesAll_cons_iff] at hbefore
    rw [hfits hbefore.1] at hcause
    exact ⟨hbefore.1, hexpression, hbefore.2, hcause⟩
  · rintro ⟨hfirst, hexpression, hbefore, hcause⟩
    refine ⟨hexpression, ?_, ?_⟩
    · rw [List.take_succ_cons]
      exact takesAll_cons_iff.2 ⟨hfirst, hbefore⟩
    · rw [hfits hfirst]
      exact hcause

/-- At the first statement it makes no difference what comes behind. -/
theorem stopsAt_zero_iff : w.StopsAt (statement :: statements) 0 message ↔
    w.StopsAt [statement] 0 message :=
  ⟨fun h => ⟨h.isExpression, h.before, h.cause⟩, fun h => ⟨h.isExpression, h.before, h.cause⟩⟩

/-- A writer that does not take all fails at some statement. -/
theorem exists_stopsAt (h : ¬ w.TakesAll statements) :
    ∃ k message, w.StopsAt statements k message := by
  induction statements generalizing w with
  | nil => exact absurd w.takesAll_nil h
  | cons statement statements ih =>
    by_cases hfirst : w.TakesAll [statement]
    · obtain ⟨k, message, hstops⟩ := ih fun hrest => h (takesAll_cons_iff.2 ⟨hfirst, hrest⟩)
      exact ⟨k + 1, message, stopsAt_succ_iff.2 ⟨hfirst, hstops⟩⟩
    · cases statement with
      | assignment value =>
        -- an assignment shows nothing
        exact absurd ⟨w.fits_empty, by simp⟩ hfirst
      | expression value =>
        have hvalue : ∃ value', (Statement.expression value :: statements)[0]? =
            some (.expression value') := ⟨value, rfl⟩
        by_cases hfits : w.Fits (printed .empty ((.expression value :: statements).take (0 + 1)))
        · have hflush : w.flushFails = true := by
            by_contra hf
            exact hfirst ⟨hfits, fun hf' => absurd hf' hf⟩
          exact ⟨0, _, hvalue, w.takesAll_nil, Or.inr ⟨hfits, hflush, rfl⟩⟩
        · exact ⟨0, _, hvalue, w.takesAll_nil, Or.inl ⟨hfits, rfl⟩⟩

end Writer

/-! ## Runs -/

namespace Evaluation

variable {e : Evaluation α} {w : Writer} {k : Nat} {message : String}

/-- Where the writer takes all, a run prints what the statements show and comes to their end. -/
theorem run_of_takesAll (h : w.TakesAll e.statements.1) :
    e.run w = (.ok (), w.behind (printed .empty e.statements.1), e.statements.2) := by
  induction hn : e.pending using Nat.strongRecOn generalizing e w with
  | _ n ih =>
    -- by induction on what there is to come; each statement prints before the next is read
    cases hs : e.statement.1 with
    | none =>
      rw [run_of_none hs, statements_of_none hs]
      exact Prod.ext rfl (Prod.ext w.behind_empty.symm rfl)
    | some statement =>
      have hlt := pending_statement_of_some hs
      rw [statements_of_some hs] at h ⊢
      obtain ⟨hfirst, hrest⟩ := Writer.takesAll_cons_iff.1 h
      rw [run_of_some hs (Writer.print_of_takesAll hfirst), ih _ (by omega) hrest rfl, printed_cons,
        Writer.behind_append]

/-- Where the writer fails at a statement, a run stops behind that statement. -/
theorem run_of_stopsAt (h : w.StopsAt e.statements.1 k message) :
    e.run w = (.error message, w.behind (printed .empty (e.statements.1.take (k + 1))),
      e.after (k + 1)) := by
  -- by induction on the number of statements that are printed before
  induction k generalizing e w with
  | zero =>
    cases hs : e.statement.1 with
    | none =>
      rw [statements_of_none hs] at h
      obtain ⟨value, hvalue⟩ := h.isExpression
      cases hvalue
    | some statement =>
      rw [statements_of_some hs] at h ⊢
      rw [run_of_failed hs (Writer.print_of_stopsAt (Writer.stopsAt_zero_iff.1 h)),
        List.take_succ_cons, List.take_zero, printed_cons]
      refine Prod.ext rfl (Prod.ext ?_ rfl)
      exact congrArg w.behind ByteArray.append_empty.symm
  | succ k ih =>
    cases hs : e.statement.1 with
    | none =>
      rw [statements_of_none hs] at h
      obtain ⟨value, hvalue⟩ := h.isExpression
      cases hvalue
    | some statement =>
      rw [statements_of_some hs] at h ⊢
      obtain ⟨hfirst, hrest⟩ := Writer.stopsAt_succ_iff.1 h
      rw [run_of_some hs (Writer.print_of_takesAll hfirst), ih hrest, List.take_succ_cons,
        printed_cons, Writer.behind_append]
      rfl

end Evaluation

/-! ## Texts -/

namespace Session

open Evaluation Writer

/-- A run that prints all that evaluating the text gives. -/
structure Completed (s : Session α) (text : String) (w : Writer) : Prop where
  result : (s.run (.ofText text) w).1 = .ok ()
  written : (s.run (.ofText text) w).2.1.written =
    w.written ++ printed .empty (s.evaluate text).1
  session : (s.run (.ofText text) w).2.2 = (s.evaluate text).2

/-- A run that stops at the statement with the given number, where the writer fails. -/
structure Interrupted (s : Session α) (text : String) (w : Writer) (k : Nat) (message : String) :
    Prop where
  stops : w.StopsAt (s.evaluate text).1 k message
  result : (s.run (.ofText text) w).1 = .error message
  /-- What the statements up to that one show is written as far as there is room for it. -/
  written : (s.run (.ofText text) w).2.1.written =
    w.written ++ firstBytes w.room (printed .empty ((s.evaluate text).1.take (k + 1)))
  /-- Nothing has happened but that so many statements were evaluated. -/
  evaluation : ((s.start (.ofText text)).run w).2.2 = (s.start (.ofText text)).after (k + 1)
  session : (s.run (.ofText text) w).2.2 = ((s.start (.ofText text)).after (k + 1)).session
  /-- Of the lexemes of the text, those up to the end of that statement were read. -/
  read : ∃ done left, lexemes 1 text.toList = done ++ left ∧
    stretches done = (stretches (lexemes 1 text.toList)).take (k + 1) ∧
    (left = [] ∨ ∀ l ∈ done.getLast?, l.1.ends = true) ∧
    ((s.start (.ofText text)).after (k + 1)).Ready ∧
    ((s.start (.ofText text)).after (k + 1)).script = left

/-- Output failures stop a run between two statements: it comes to what evaluating the text comes
to if the writer takes all that is to be printed, and otherwise to what its statements come to up to
the first one at which the writer fails. -/
theorem run_interrupted (s : Session α) (text : String) (w : Writer) :
    (w.TakesAll (s.evaluate text).1 → s.Completed text w) ∧
      (¬ w.TakesAll (s.evaluate text).1 → ∃ k message, s.Interrupted text w k message) := by
  constructor
  · intro h
    have hrun := run_of_takesAll (e := s.start (.ofText text)) h
    have hwritten : (w.behind (printed .empty (s.evaluate text).1)).written =
        w.written ++ printed .empty (s.evaluate text).1 :=
      congrArg (w.written ++ ·) (firstBytes_of_fits h.fits)
    refine ⟨?_, ?_, ?_⟩
    · rw [run, hrun]
    · rw [run, hrun]
      exact hwritten
    · rw [run, hrun]
      rfl
  -- the number of the statement says how far the run got, and the script what it has read
  · intro h
    obtain ⟨k, message, hstops⟩ := exists_stopsAt h
    have hrun := run_of_stopsAt (e := s.start (.ofText text)) hstops
    have hready : (s.start (.ofText text)).Ready := ready_start _ _
    obtain ⟨done, hdone⟩ := hready.exists_done (k + 1)
    have hscript : (s.start (.ofText text)).script = lexemes 1 text.toList :=
      script_start_ofText text s.resetLine
    refine ⟨k, message, hstops, ?_, ?_, ?_, ?_, done, _, ?_, ?_, hdone.ends, hready.after _, rfl⟩
    · rw [run, hrun]
    · rw [run, hrun]
      rfl
    · rw [hrun]
    · rw [run, hrun]
    · rw [← hscript, hdone.script]
    · rw [hdone.stretches_done, hscript]

end Session

end DeskCalc
