import DeskCalc.Proofs.Lines
import DeskCalc.Proofs.Runs

/-!
# What is left of a text

A text is read line by line, but that does not show in its tokens: they are those that come up when
the whole text is gone through at once. All that matters of a stream is what is left of the text.

* `LineSource.Holds`, `TokenStream.Holds` — a text is left, part of it in the line being read and
  the rest of it in lines to come. There may be a source behind the text.
* `LineSource.Holds.next` — the next lexeme is the first one of the text that is left.
* `Evaluation.reading` — the session that the next token is read in.
* `Evaluation.Holds.advance_of_some`, `advance_of_none` — the next token, by the text that is left.
* `Evaluation.lastLine` — the line on which the text is going to end; taking tokens does not change
  it.
-/

namespace DeskCalc

/-! ## Lines of a text -/

namespace Text

variable {β : Type} [DecidableEq β] {stop : β} {xs piece : List β} {pieces : List (List β)}

theorem eq_nil_of_splitAfter (h : splitAfter stop xs = []) : xs = [] := by
  rw [← flatten_splitAfter stop xs, h]
  rfl

/-- Behind the first piece are the pieces of the rest. -/
theorem splitAfter_eq_cons (h : splitAfter stop xs = piece :: pieces) :
    ∃ more, xs = piece ++ more ∧ splitAfter stop more = pieces ∧
      (piece.getLast? = some stop ∨ more = []) := by
  induction xs generalizing piece pieces with
  | nil => cases h
  | cons x xs ih =>
    by_cases hx : x = stop
    · subst hx
      rw [splitAfter_stop] at h
      cases h
      exact ⟨xs, rfl, rfl, Or.inl rfl⟩
    · rw [splitAfter_cons hx] at h
      -- the element belongs to the first piece of the rest, if there is one
      cases hs : splitAfter stop xs with
      | nil =>
        rw [hs] at h
        cases h
        rw [eq_nil_of_splitAfter hs]
        exact ⟨[], rfl, rfl, Or.inr rfl⟩
      | cons first rest =>
        rw [hs] at h
        cases h
        obtain ⟨more, rfl, hmore, hlast⟩ := ih hs
        refine ⟨more, rfl, hmore, hlast.imp_left fun hlast => ?_⟩
        rw [List.getLast?_cons, hlast]
        rfl

end Text

/-! ## Sources -/

namespace LineSource

variable {behind s : LineSource} {rest cs : List Char}

/-- What is left of the line being read and of the lines to come is a text, and behind it there is
another source. The text is a number of whole lines, unless that source is at its end. -/
def Holds (behind : LineSource) (rest : List Char) (s : LineSource) (cs : List Char) : Prop :=
  ∃ more, cs = rest ++ more ∧
    s = { behind with lines := (Text.splitAfter '\n' more).map .text ++ behind.lines } ∧
    (rest = [] ∨ rest.getLast? = some '\n' ∨ more = [] ∧ behind.Drained) ∧
    (more = [] ∨ more.getLast? = some '\n' ∨ behind.Drained)

/-- A source that hands out nothing. -/
def nothing : LineSource := ⟨[], .clean, true⟩

theorem drained_nothing : nothing.Drained := ⟨rfl, rfl⟩

theorem holds_ofText (text : String) : nothing.Holds [] (ofText text) text.toList := by
  refine ⟨text.toList, rfl, ?_, Or.inl rfl, Or.inr (Or.inr drained_nothing)⟩
  simp [ofText, nothing]

/-- Where no text is left, the source behind it is. -/
theorem Holds.of_nil (h : behind.Holds [] s []) : s = behind := by
  obtain ⟨more, hcs, rfl, -, -⟩ := h
  rw [List.nil_append] at hcs
  rw [← hcs]
  rfl

theorem Drained.read (h : s.Drained) : s.read = (.finished, s) := by
  simp [LineSource.read, h.1, h.2]

/-- Where a line has no lexeme left, it is up to what is read next. -/
theorem next_of_read {r : Reading} {s' : LineSource} (hl : Lexeme.next? rest = none)
    (hread : s.read = (r, s')) : LineSource.next rest s = match r with
      | .line chars => LineSource.next chars s'
      | .finished => (.finished, s')
      | .failed _ message => (.failed message, s') := by
  rw [LineSource.next, hl]
  simp only
  -- only the case of what was read is left of each
  split
  · next h => cases h.symm.trans hread; rfl
  · next h => cases h.symm.trans hread; rfl
  · next h => cases h.symm.trans hread; rfl

theorem Drained.next (h : s.Drained) (hl : Lexeme.next? rest = none) :
    LineSource.next rest s = (.finished, s) :=
  next_of_read hl h.read

/-- The lexeme at the front of a line is at the front of the text. -/
theorem Holds.next_of_rest (h : behind.Holds rest s cs) {l : Lexeme} {rest' : List Char}
    (hl : Lexeme.next? rest = some (l, rest')) :
    ∃ cs', Lexeme.next? cs = some (l, cs') ∧ behind.Holds rest' s cs' := by
  obtain ⟨more, rfl, rfl, hrest, hmore⟩ := h
  rcases hrest with rfl | hlast | ⟨rfl, hdrained⟩
  · cases hl
  · refine ⟨rest' ++ more, ?_, more, rfl, rfl, ?_, hmore⟩
    · -- the line break at the end of the line keeps the lexeme from going on
      obtain ⟨init, rfl⟩ := List.getLast?_eq_some_iff.1 hlast
      rw [Lexeme.next?_append_break (Or.inl rfl)] at hl
      rw [List.append_assoc, List.singleton_append, Lexeme.next?_append_break (Or.inl rfl)]
      cases hi : Lexeme.next? init with
      | none =>
        rw [hi, Lexeme.next?_newline] at hl
        cases hl
        rw [Lexeme.next?_newline]
        rfl
      | some r =>
        rw [hi] at hl
        cases hl
        simp
    · obtain ⟨l', rest'', hl', hend⟩ := Lexeme.next?_of_getLast? hlast
      rw [hl] at hl'
      cases hl'
      rcases hend with hend | ⟨rfl, -⟩
      · exact Or.inr (Or.inl hend)
      · exact Or.inl rfl
  · refine ⟨rest', by rwa [List.append_nil], [], by rw [List.append_nil], rfl, ?_, hmore⟩
    exact Or.inr (Or.inr ⟨rfl, hdrained⟩)

/-- Where a line of the text is read, it holds the front of the text. -/
theorem Holds.read (h : behind.Holds [] s cs) (hne : cs ≠ []) :
    ∃ chars s', s.read = (.line chars, s') ∧ behind.Holds chars s' cs ∧
      s'.lines.length < s.lines.length := by
  obtain ⟨more, rfl, rfl, -, hmore⟩ := h
  cases hpieces : Text.splitAfter '\n' cs with
  | nil => exact absurd (Text.eq_nil_of_splitAfter hpieces) hne
  | cons piece pieces =>
    -- the line that is read is the first piece, and the text goes on with the others
    obtain ⟨more', rfl, rfl, hlast⟩ := Text.splitAfter_eq_cons hpieces
    refine ⟨piece, _, rfl, ⟨more', rfl, rfl, ?_, ?_⟩, by simp⟩
    · rcases hlast with hlast | rfl
      · exact Or.inr (Or.inl hlast)
      · rcases hmore with hnil | hend | hdrained
        · exact absurd hnil hne
        · rw [List.append_nil] at hend
          exact Or.inr (Or.inl hend)
        · exact Or.inr (Or.inr ⟨rfl, hdrained⟩)
    · rcases hmore with hnil | hend | hdrained
      · exact absurd hnil hne
      · rcases List.eq_nil_or_concat more' with rfl | ⟨init, c, rfl⟩
        · exact Or.inl rfl
        · rw [List.concat_eq_append, ← List.append_assoc, List.getLast?_concat] at hend
          refine Or.inr (Or.inl ?_)
          rw [List.concat_eq_append, List.getLast?_concat, hend]
      · exact Or.inr (Or.inr hdrained)

/-- The next lexeme is the first one of the text that is left. Where there is none in it, it is up
to the source behind the text. -/
theorem Holds.next (h : behind.Holds rest s cs) :
    (∃ l cs' rest' s', Lexeme.next? cs = some (l, cs') ∧
      LineSource.next rest s = (.lexeme l rest', s') ∧ behind.Holds rest' s' cs') ∨
    Lexeme.next? cs = none ∧ LineSource.next rest s = LineSource.next [] behind := by
  induction hn : s.lines.length using Nat.strongRecOn generalizing rest s with
  | _ n ih =>
    -- by induction on the lines to come: where a line has no lexeme, the next one is read
    cases hl : Lexeme.next? rest with
    | some r =>
      obtain ⟨l, rest'⟩ := r
      obtain ⟨cs', hcs, h'⟩ := h.next_of_rest hl
      refine Or.inl ⟨l, cs', rest', s, hcs, ?_, h'⟩
      rw [LineSource.next, hl]
    | none =>
      have hcases := h
      obtain ⟨more, hcs, hs, hrest, -⟩ := hcases
      rcases hrest with rfl | hlast | ⟨rfl, hdrained⟩
      · by_cases hnil : cs = []
        · subst hnil
          exact Or.inr ⟨rfl, by rw [h.of_nil]⟩
        · obtain ⟨chars, s', hread, h', hlt⟩ := h.read hnil
          have hnext : LineSource.next [] s = LineSource.next chars s' := next_of_read hl hread
          rw [hnext]
          exact ih _ (by omega) h' rfl
      · obtain ⟨l, rest', hl', -⟩ := Lexeme.next?_of_getLast? hlast
        rw [hl] at hl'
        cases hl'
      · -- the rest of the last line is blank
        have hs : s = behind := hs
        subst hs
        rw [List.append_nil] at hcs
        rw [hcs, hdrained.next hl, hdrained.next rfl]
        exact Or.inr ⟨hl, rfl⟩

end LineSource

/-! ## Streams -/

variable {α : Type}

/-- A text is left of the stream. -/
structure TokenStream.Holds (behind : LineSource) (t : TokenStream α) (cs : List Char) : Prop where
  ready : t.lookahead = none
  source : behind.Holds t.rest t.source cs
  /-- At its end, the source is not asked any more. -/
  exhausted : t.exhausted = true → cs = [] ∧ behind.Drained

namespace Evaluation

/-- A text is left of the input. -/
def Holds (behind : LineSource) (e : Evaluation α) (cs : List Char) : Prop :=
  e.stream.Holds behind cs

/-- The session that the next token is read in: a line break that was taken is counted now. -/
def reading (e : Evaluation α) : Session α :=
  if e.stream.newlinePending then e.session.nextLine else e.session

/-- An evaluation of a text has all of it left. -/
theorem holds_start (text : String) (session : Session α) :
    (start (.ofText text) session).Holds .nothing text.toList :=
  ⟨rfl, LineSource.holds_ofText text, fun h => by cases h⟩

/-- Without a line break to be counted, the next token is read in the same session. -/
theorem reading_of_not_pending {e : Evaluation α} (h : e.stream.newlinePending = false) :
    e.reading = e.session := by
  rw [reading, h]
  rfl

/-- Counting a line changes nothing but the line. -/
theorem eq_of_reading (e : Evaluation α) : e.reading.table = e.session.table ∧
    e.reading.draws = e.session.draws ∧ e.reading.log.history = e.session.log.history := by
  unfold reading
  split
  · exact ⟨rfl, rfl, rfl⟩
  · exact ⟨rfl, rfl, rfl⟩

variable [Arithmetic α] {behind : LineSource} {e : Evaluation α} {cs : List Char}

/-- Where no token was looked at ahead, taking one reads it. -/
theorem Ready.advance_eq (h : e.Ready) {token : Token α} {t : TokenStream α}
    {s : Session α} (hscan : e.stream.scan e.session = (token, t, s)) :
    e.advance = ⟨{ t with current := token }, s⟩ := by
  obtain ⟨t', s'⟩ := e
  simp only [Ready] at h
  simp only at hscan
  simp only [Evaluation.advance, TokenStream.advance, h, hscan]

/-! What is read next: nothing more behind the end that was met, a lexeme, or an end of the source. -/

/-- Behind the end that was met, the end is read again. -/
theorem scan_at_end (hx : e.stream.exhausted = true) : e.stream.scan e.session =
    (.bare .finish e.reading.log.line, { e.stream with newlinePending := false }, e.reading) := by
  simp only [TokenStream.scan, hx]
  rfl

/-- A lexeme is made a token, and a line break is still to be counted. -/
theorem scan_of_lexeme {l : Lexeme} {rest : List Char} {source : LineSource}
    (hx : e.stream.exhausted = false)
    (hnext : LineSource.next e.stream.rest e.stream.source = (.lexeme l rest, source)) :
    e.stream.scan e.session = ((e.reading.token l).1,
      { e.stream with source, rest, newlinePending := decide (l = .newline) },
      (e.reading.token l).2) := by
  simp only [TokenStream.scan, hx, hnext]
  rfl

/-- At the end of the source the input ends. -/
theorem scan_of_finished {source : LineSource} (hx : e.stream.exhausted = false)
    (hnext : LineSource.next e.stream.rest e.stream.source = (.finished, source)) :
    e.stream.scan e.session = (.bare .finish e.reading.log.line,
      { e.stream with source, rest := [], exhausted := true, newlinePending := false },
      e.reading) := by
  simp only [TokenStream.scan, hx, hnext]
  rfl

/-- A source that fails is reported once, and the input ends there. -/
theorem scan_of_failed {source : LineSource} {message : String} (hx : e.stream.exhausted = false)
    (hnext : LineSource.next e.stream.rest e.stream.source = (.failed message, source)) :
    e.stream.scan e.session = (.bare .finish e.reading.log.line,
      { e.stream with source, rest := [], exhausted := true, newlinePending := false },
      e.reading.report (.input message)) := by
  simp only [TokenStream.scan, hx, hnext]
  rfl

/-- The next token is that of the first lexeme of the text. -/
theorem Holds.advance_of_some (h : e.Holds behind cs) {l : Lexeme} {cs' : List Char}
    (hl : Lexeme.next? cs = some (l, cs')) :
    e.advance.current = (e.reading.token l).1 ∧ e.advance.session = (e.reading.token l).2 ∧
      e.advance.Holds behind cs' ∧ e.advance.stream.newlinePending = decide (l = .newline) := by
  obtain ⟨hready, hsource, hexhausted⟩ := h
  -- a source that was found at its end has no text left
  have hx : e.stream.exhausted = false := by
    rw [← Bool.not_eq_true]
    intro hx
    obtain ⟨rfl, -⟩ := hexhausted hx
    cases hl
  rcases hsource.next with ⟨l', cs'', rest', s', hl', hnext, hholds⟩ | ⟨hnone, -⟩
  · rw [hl] at hl'
    cases hl'
    rw [Ready.advance_eq hready (scan_of_lexeme hx hnext)]
    exact ⟨rfl, rfl, ⟨hready, hholds, fun hx' => by rw [hx] at hx'; cases hx'⟩, rfl⟩
  · rw [hl] at hnone
    cases hnone

/-- In front of the end of the text, the input does not end. -/
theorem Holds.kind_ne_finish (h : e.Holds behind cs) {l : Lexeme} {cs' : List Char}
    (hl : Lexeme.next? cs = some (l, cs')) : e.advance.current.kind ≠ .finish := by
  rw [(h.advance_of_some hl).1]
  -- the source finds the lexeme that the text has next
  rcases h.source.next with ⟨l', cs'', rest', s', hl', hnext, -⟩ | ⟨hnone, -⟩
  · rw [hl] at hl'
    cases hl'
    exact kind_token_ne_finish hnext _
  · rw [hl] at hnone
    cases hnone

/-- Where no lexeme is left, the input is at its end. -/
theorem Holds.advance_of_none (h : e.Holds behind cs) (hdrained : behind.Drained)
    (hl : Lexeme.next? cs = none) :
    e.advance.current = .bare .finish e.reading.log.line ∧ e.advance.session = e.reading ∧
      e.advance.Holds behind [] ∧ e.advance.stream.newlinePending = false := by
  obtain ⟨hready, hsource, hexhausted⟩ := h
  cases hx : e.stream.exhausted with
  | true =>
    -- the source has said before that it is at its end, and is not asked again
    obtain ⟨rfl, -⟩ := hexhausted hx
    rw [Ready.advance_eq hready (scan_at_end hx)]
    exact ⟨rfl, rfl, ⟨hready, hsource, fun _ => ⟨rfl, hdrained⟩⟩, rfl⟩
  | false =>
    rcases hsource.next with ⟨l, cs', rest', s', hl', -, -⟩ | ⟨-, hnext⟩
    · rw [hl] at hl'
      cases hl'
    · rw [hdrained.next rfl] at hnext
      rw [Ready.advance_eq hready (scan_of_finished hx hnext)]
      exact ⟨rfl, rfl, ⟨hready, ⟨[], rfl, rfl, Or.inl rfl, Or.inl rfl⟩, fun _ => ⟨rfl, hdrained⟩⟩,
        rfl⟩

/-! ## The last line -/

/-- The line on which the text ends that is left. -/
def lastLine (e : Evaluation α) (cs : List Char) : Nat := e.reading.log.line + cs.count '\n'

omit [Arithmetic α] in
/-- A line break that was taken counts one line. -/
theorem reading_of_pending {b : Bool} (h : e.stream.newlinePending = b) :
    e.reading.log.line = e.session.log.line + if b then 1 else 0 := by
  rw [reading, h]
  cases b <;> rfl

/-- Making a token does not change the line. -/
theorem line_token (l : Lexeme) (s : Session α) : (s.token l).2.log.line = s.log.line := by
  cases l with
  | newline => rfl
  | mark kind => rfl
  | stray c => rfl
  | number n => cases hv : n.value? <;> simp [Session.token, hv, Session.report]
  | name chars => rfl

/-- Taking a token does not change where the text ends. -/
theorem Holds.lastLine_of_some (h : e.Holds behind cs) {l : Lexeme} {cs' : List Char}
    (hl : Lexeme.next? cs = some (l, cs')) : e.advance.lastLine cs' = e.lastLine cs := by
  obtain ⟨-, hsession, -, hpending⟩ := h.advance_of_some hl
  rw [lastLine, lastLine, reading_of_pending hpending, hsession, line_token,
    Lexeme.count_of_next? hl]
  simp only [decide_eq_true_eq]
  omega

/-- At the end of the input, the text has ended on the line that was counted. -/
theorem Holds.line_of_none (h : e.Holds behind cs) (hdrained : behind.Drained)
    (hl : Lexeme.next? cs = none) : e.advance.session.log.line = e.lastLine cs := by
  rw [(h.advance_of_none hdrained hl).2.1, lastLine, Lexeme.count_of_next?_none hl]
  rfl

end Evaluation

end DeskCalc
