import DeskCalc.Proofs.Calls
import DeskCalc.Proofs.Moves

/-!
# Inputs that have ended

An input ends when its source is asked for more in vain. From then on it gives nothing but its end,
whatever is asked of it; its source is left alone, and nothing happens to the session.

* `Evaluation.Over` — an input that has ended.
* `Evaluation.Over.asked`, `Over.statement` — no call and no statement changes anything.
* `Evaluation.Leads.ended` — every input is over from the moment it has asked its source in vain.
-/

namespace DeskCalc

variable {α : Type} [Arithmetic α]

namespace Evaluation

variable {e e' : Evaluation α}

/-- The source has been asked for more in vain, and that is known to whoever asks. -/
structure Over (e : Evaluation α) : Prop where
  exhausted : e.stream.exhausted = true
  not_pending : e.stream.newlinePending = false
  lookahead : ∀ token, e.stream.lookahead = some token → token.kind = .finish

/-- Looking at the next token does to the source what taking it would do. -/
theorem source_peek (e : Evaluation α) :
    e.peek.2.stream.source = e.advance.stream.source ∧
      e.peek.2.stream.exhausted = e.advance.stream.exhausted := by
  obtain ⟨t, s⟩ := e
  unfold peek TokenStream.peek advance TokenStream.advance
  cases t.lookahead <;> exact ⟨rfl, rfl⟩

/-- An exhausted source is not asked again. -/
theorem scan_of_exhausted {t : TokenStream α} (hx : t.exhausted = true)
    (hpending : t.newlinePending = false) (s : Session α) :
    t.scan s = (.bare .finish s.log.line, t, s) := by
  obtain ⟨source, rest, current, lookahead, exhausted, newlinePending⟩ := t
  simp only at hx hpending
  subst hx hpending
  rfl

/-- Behind the end there is the end again, and nothing else happens. -/
theorem Over.advance (h : e.Over) : e.advance.Over ∧ e.advance.current.kind = .finish ∧
    e.advance.session = e.session ∧ e.advance.stream.source = e.stream.source := by
  obtain ⟨t, s⟩ := e
  obtain ⟨hx, hpending, hfinish⟩ := h
  unfold Evaluation.advance TokenStream.advance
  cases hl : t.lookahead with
  | some token =>
    exact ⟨⟨hx, hpending, fun token h => by cases h⟩, hfinish token hl, rfl, rfl⟩
  | none =>
    rw [scan_of_exhausted hx hpending]
    exact ⟨⟨hx, hpending, hfinish⟩, rfl, rfl, rfl⟩

/-- Behind the end, looking ahead finds the end. -/
theorem Over.peek (h : e.Over) : e.peek.2.Over := by
  obtain ⟨t, s⟩ := e
  obtain ⟨hx, hpending, hfinish⟩ := h
  unfold Evaluation.peek TokenStream.peek
  cases hl : t.lookahead with
  | some token => exact ⟨hx, hpending, hfinish⟩
  | none =>
    simp only [scan_of_exhausted hx hpending]
    refine ⟨hx, hpending, fun token htoken => ?_⟩
    cases htoken
    rfl

theorem Over.current_advance (h : e.Over) (hready : e.Ready) :
    e.advance.current = .bare .finish e.session.log.line := by
  rw [Ready.advance_eq hready (scan_of_exhausted h.exhausted h.not_pending e.session)]
  rfl

/-- Whatever is asked of an input that has ended, it gives its end, and nothing changes. -/
theorem Over.asked (h : e.Over) (calls : List Call) : (e.asked calls).Over ∧
    (e.asked calls).session = e.session ∧ (e.asked calls).stream.source = e.stream.source := by
  -- by induction on the calls, each of which leaves an input that is over
  induction calls generalizing e with
  | nil => exact ⟨h, rfl, rfl⟩
  | cons call calls ih =>
    show ((e.answer call).2.asked calls).Over ∧ ((e.answer call).2.asked calls).session = _ ∧
      ((e.answer call).2.asked calls).stream.source = _
    have hadvance := h.advance
    cases call with
    | next =>
      have hpeek := h.peek
      obtain ⟨hover, hsession, hsource⟩ := ih hpeek
      refine ⟨hover, hsession.trans ?_, hsource.trans ?_⟩
      · exact (session_peek e).trans hadvance.2.2.1
      · exact (source_peek e).1.trans hadvance.2.2.2
    | get =>
      obtain ⟨hover, hsession, hsource⟩ := ih hadvance.1
      exact ⟨hover, hsession.trans hadvance.2.2.1, hsource.trans hadvance.2.2.2⟩
    | current => exact ih h

/-- There is no statement any more. -/
theorem Over.statement (h : e.Over) : e.statement = (none, e.advance) := by
  have hfinish := h.advance.2.1
  have hto : e.toStatement = e.advance := toStatement_of_ne (by simp [hfinish])
  rw [statement_of_finish (by rw [hto]; exact hfinish), hto]

/-- Where the source is asked in vain, the token is the end of the input. -/
theorem finish_scan {t : TokenStream α} {s : Session α} (hx : (t.scan s).2.1.exhausted = true) :
    (t.scan s).1.kind = .finish ∧ (t.scan s).2.1.newlinePending = false := by
  unfold TokenStream.scan at hx ⊢
  simp only at hx ⊢
  -- it had been asked in vain before, or is asked now and has no lexeme
  by_cases hold : t.exhausted = true
  · rw [if_pos hold]
    exact ⟨rfl, rfl⟩
  · rw [if_neg hold] at hx ⊢
    generalize LineSource.next t.rest t.source = r at hx ⊢
    obtain ⟨found, source⟩ := r
    cases found with
    | lexeme l rest => exact absurd hx hold
    | finished => exact ⟨rfl, rfl⟩
    | failed message => exact ⟨rfl, rfl⟩

/-- Whatever happens, an input that has asked its source in vain is over. -/
theorem Move.ended (h : Move e e') (hover : e.stream.exhausted = true → e.Over)
    (hx : e'.stream.exhausted = true) : e'.Over := by
  -- moves that do not touch the stream leave the input as it was
  have hkeep : ∀ e' : Evaluation α,
      e'.stream = e.stream → e'.stream.exhausted = true → e'.Over := by
    intro e' hstream hx
    rw [hstream] at hx
    obtain ⟨-, hpending, hfinish⟩ := hover hx
    exact ⟨hstream ▸ hx, hstream ▸ hpending, hstream ▸ hfinish⟩
  cases h with
  | switch source => cases hx
  | peek =>
    obtain ⟨t, s⟩ := e
    unfold Evaluation.peek TokenStream.peek at hx ⊢
    cases hl : t.lookahead with
    | some token =>
      simp only [hl] at hx
      exact hover hx
    | none =>
      simp only [hl] at hx
      -- looking ahead was in vain, so the lookahead is the end
      obtain ⟨hfinish, hpending⟩ := finish_scan hx
      refine ⟨hx, hpending, fun token htoken => ?_⟩
      cases htoken
      exact hfinish
  | advance =>
    obtain ⟨t, s⟩ := e
    unfold Evaluation.advance TokenStream.advance at hx ⊢
    cases hl : t.lookahead with
    | some token =>
      simp only [hl] at hx
      exact ⟨hx, (hover hx).not_pending, fun token h => by cases h⟩
    | none =>
      simp only [hl] at hx
      -- scanning leaves no lookahead behind
      refine ⟨hx, (finish_scan hx).2, fun token htoken => ?_⟩
      have hnone : (t.scan s).2.1.lookahead = none := by rw [TokenStream.lookahead_scan, hl]
      cases hnone.symm.trans htoken
  | report problem => exact hkeep _ rfl hx
  | intern name => exact hkeep _ rfl hx
  | assign ha => exact hkeep _ rfl hx
  | draw => exact hkeep _ rfl hx

/-- An input that has asked its source in vain stays over. -/
theorem Leads.ended {source : LineSource} {s : Session α} (h : Leads (.start source s) e)
    (hx : e.stream.exhausted = true) : e.Over := by
  induction h with
  | refl => cases hx
  | tail _ move ih => exact move.ended ih hx

end Evaluation

end DeskCalc
