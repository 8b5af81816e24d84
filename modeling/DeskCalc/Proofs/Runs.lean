import DeskCalc.Proofs.Boundaries

/-!
# The runs of a source

A source that is read without being evaluated is a list of tokens. Between the tokens that end
statements stand the runs that statements are made of.

* `runsBetween`, `runs` — the maximal runs between the stops of a list; those of tokens that end no
  statement. Everything about them follows from `runsBetween_append_cons`.
* `Evaluation.remaining` — the tokens behind the current one. They are a function of the view
  (`tokens_congr`).
* `tokens_toStatement`, `tokens_skip` — how looking for a statement and skipping it go along the
  tokens.
* `Ready.advance_of_finish` — at the end of the input nothing happens any more.
-/

namespace DeskCalc

variable {α : Type}

/-! ## Runs of a list -/

section

variable {β : Type} {p : β → Bool} {xs : List β}

/-- The maximal runs of elements that are no stops. -/
def runsBetween (p : β → Bool) (xs : List β) : List (List β) :=
  (xs.splitOnP p).filter fun run => !run.isEmpty

/-- A stop stands between the runs in front of it and those behind it. -/
theorem runsBetween_append_cons {y : β} (hy : p y = true) (xs xs' : List β) :
    runsBetween p (xs ++ y :: xs') = runsBetween p xs ++ runsBetween p xs' := by
  rw [runsBetween, List.splitOnP_append_cons xs xs' hy, List.filter_append]
  rfl

/-- Stops alone have no runs between them. -/
theorem runsBetween_of_forall (h : ∀ x ∈ xs, p x = true) : runsBetween p xs = [] := by
  induction xs with
  | nil => simp [runsBetween]
  | cons x xs ih =>
    have hxs := runsBetween_append_cons (h x List.mem_cons_self) [] xs
    rw [List.nil_append] at hxs
    rw [hxs, ih fun x' hx' => h x' (List.mem_cons_of_mem x hx')]
    simp [runsBetween]

/-- Where there are no runs, there are only stops. -/
theorem forall_of_runsBetween (h : runsBetween p xs = []) : ∀ x ∈ xs, p x = true := by
  induction xs with
  | nil => simp
  | cons x xs ih =>
    cases hk : p x with
    | true =>
      have hxs := runsBetween_append_cons hk [] xs
      rw [List.nil_append, h] at hxs
      intro x' hx'
      rcases List.mem_cons.1 hx' with rfl | hx'
      · exact hk
      · exact ih (List.append_eq_nil_iff.1 hxs.symm).2 x' hx'
    | false =>
      -- the first piece holds `x`, so it is a run
      obtain ⟨piece, pieces, hpieces⟩ := List.exists_cons_of_ne_nil
        (List.splitOnP_ne_nil p xs)
      rw [runsBetween, List.splitOnP_cons_eq_if_modifyHead, hk, hpieces] at h
      simp at h

theorem runsBetween_of_forall_not (hne : xs ≠ []) (h : ∀ x ∈ xs, p x = false) :
    runsBetween p xs = [xs] := by
  rw [runsBetween, List.splitOnP_eq_singleton h]
  simp [hne]

/-- The first run of a list, found behind stops. -/
theorem runsBetween_append_run {blanks run : List β} (hblanks : ∀ x ∈ blanks, p x = true)
    (hne : run ≠ []) (hrun : ∀ x ∈ run, p x = false) :
    runsBetween p (blanks ++ run) = [run] := by
  -- the last of the stops parts the run from the others, between which there is nothing
  rcases List.eq_nil_or_concat blanks with rfl | ⟨init, blank, rfl⟩
  · exact runsBetween_of_forall_not hne hrun
  · rw [List.concat_eq_append, List.append_assoc, List.singleton_append,
      runsBetween_append_cons (hblanks blank (by simp)), runsBetween_of_forall_not hne hrun,
      runsBetween_of_forall fun x hx => hblanks x (by simp [hx])]
    rfl

end

/-! ## Runs of tokens -/

/-- The maximal runs of tokens that end no statement. -/
def runs (ts : List (Token α)) : List (List (Token α)) :=
  (ts.splitOnP fun t => t.kind.endsStatement).filter fun run => !run.isEmpty

@[simp] theorem runs_nil : runs ([] : List (Token α)) = [] := by simp [runs]

/-- The end of a statement stands between the runs in front of it and those behind it. -/
theorem runs_append_stop {stop : Token α} (hstop : stop.kind.endsStatement = true)
    (ts ts' : List (Token α)) : runs (ts ++ stop :: ts') = runs ts ++ runs ts' :=
  runsBetween_append_cons (p := fun t : Token α => t.kind.endsStatement) hstop ts ts'

theorem runs_of_forall_ends {ts : List (Token α)} (h : ∀ t ∈ ts, t.kind.endsStatement = true) :
    runs ts = [] :=
  runsBetween_of_forall h

theorem forall_ends_of_runs {ts : List (Token α)} (h : runs ts = []) :
    ∀ t ∈ ts, t.kind.endsStatement = true :=
  forall_of_runsBetween h

/-- The first run of a list of tokens, found between what ends statements. -/
theorem runs_blanks_append {blanks run ts : List (Token α)} {stop : Token α}
    (hblanks : ∀ t ∈ blanks, t.kind.endsStatement = true) (hne : run ≠ [])
    (hrun : ∀ t ∈ run, t.kind.endsStatement = false) (hstop : stop.kind.endsStatement = true) :
    runs (blanks ++ run ++ stop :: ts) = run :: runs ts := by
  rw [runs_append_stop hstop]
  exact congrArg (· ++ runs ts) (runsBetween_append_run hblanks hne hrun)

namespace Evaluation

variable [Arithmetic α]

/-! ## The tokens behind the current one -/

/-- The tokens behind the current one, up to the end of the input. -/
def remaining (e : Evaluation α) : List (Token α) × Evaluation α :=
  if e.current.kind = .finish then ([], e) else e.tokens

theorem remaining_of_finish {e : Evaluation α} (h : e.current.kind = .finish) :
    e.remaining = ([], e) := by
  rw [remaining, if_pos h]

theorem remaining_of_ne {e : Evaluation α} (h : e.current.kind ≠ .finish) :
    e.remaining = e.tokens := by
  rw [remaining, if_neg h]

/-- The tokens are the next one and those behind it. -/
theorem tokens_eq (e : Evaluation α) :
    e.tokens = (e.advance.current :: e.advance.remaining.1, e.advance.remaining.2) := by
  rw [tokens]
  split
  · next hk => rw [remaining_of_finish hk]
  · next hk => rw [remaining_of_ne hk]

/-- The tokens to come are a function of the view, and so is the view behind them. -/
theorem tokens_congr {e e' : Evaluation α} (h : e.view = e'.view) :
    e.tokens.1 = e'.tokens.1 ∧ e.tokens.2.view = e'.tokens.2.view := by
  -- the induction follows the reading of the first evaluation; the second one has the same view at
  -- each token
  fun_induction tokens e generalizing e' with
  | case1 e hk =>
    have hview := view_advance h
    have hcurrent := current_of_view hview
    rw [tokens_eq e', remaining_of_finish (by rwa [← hcurrent]), hcurrent]
    exact ⟨rfl, hview⟩
  | case2 e hk rest last hrest ih =>
    have hview := view_advance h
    have hcurrent := current_of_view hview
    obtain ⟨htokens, hlast⟩ := ih hview
    rw [tokens_eq e', remaining_of_ne (by rwa [← hcurrent]), ← hcurrent, ← htokens, hrest]
    rw [hrest] at hlast
    exact ⟨rfl, hlast⟩

/-! ## Statements along the tokens -/

/-- Looking for a statement passes over ends of statements only. -/
theorem tokens_toStatement (e : Evaluation α) :
    ∃ blanks : List (Token α), (∀ t ∈ blanks, t.kind.endsStatement = true) ∧
      e.toStatement = Evaluation.advance^[blanks.length + 1] e ∧
      e.tokens.1 = blanks ++ e.toStatement.current :: e.toStatement.remaining.1 ∧
      e.tokens.2 = e.toStatement.remaining.2 := by
  -- by the separators that are passed over
  fun_induction toStatement e with
  | case1 e hk ih =>
    obtain ⟨blanks, hblanks, hadvance, hfirst, hsecond⟩ := ih
    have hne : e.advance.current.kind ≠ .finish := by rw [hk]; decide
    refine ⟨e.advance.current :: blanks, ?_, ?_, ?_, ?_⟩
    · intro t ht
      rcases List.mem_cons.1 ht with rfl | ht
      · rw [hk]
        rfl
      · exact hblanks t ht
    · rw [hadvance]
      rfl
    · rw [tokens_eq, remaining_of_ne hne, hfirst]
      rfl
    · rw [tokens_eq, remaining_of_ne hne, hsecond]
  | case2 e hk => exact ⟨[], by simp, rfl, by rw [tokens_eq]; rfl, by rw [tokens_eq]⟩

/-- Skipping goes along the run ahead, up to the end of the statement. -/
theorem tokens_skip (e : Evaluation α) :
    ∃ run : List (Token α), (∀ t ∈ run, t.kind.endsStatement = false) ∧
      run.map Token.content = e.upcoming ∧ e.skip = Evaluation.advance^[run.length] e ∧
      e.current :: e.remaining.1 = run ++ e.skip.current :: e.skip.remaining.1 ∧
      e.remaining.2 = e.skip.remaining.2 := by
  -- by the tokens that are passed over
  fun_induction skip e with
  | case1 e hk => exact ⟨[], by simp, (upcoming_of_endsStatement hk).symm, rfl, rfl, rfl⟩
  | case2 e hk ih =>
    have hk : e.current.kind.endsStatement = false := by simpa using hk
    obtain ⟨run, hrun, hup, hadvance, hfirst, hsecond⟩ := ih
    have hne : e.current.kind ≠ .finish := by
      intro hfinish
      rw [hfinish] at hk
      cases hk
    refine ⟨e.current :: run, ?_, ?_, ?_, ?_, ?_⟩
    · intro t ht
      rcases List.mem_cons.1 ht with rfl | ht
      · exact hk
      · exact hrun t ht
    · rw [upcoming_of_not_endsStatement hk, List.map_cons, hup]
    · rw [hadvance]
      rfl
    · rw [remaining_of_ne hne, tokens_eq, hfirst]
      rfl
    · rw [remaining_of_ne hne, tokens_eq, hsecond]

/-! ## The end of the input -/

omit [Arithmetic α] in
/-- No character is the end of the input. -/
theorem ofChar?_ne_finish (c : Char) : TokenKind.ofChar? c ≠ some .finish := by
  unfold TokenKind.ofChar?
  split <;> simp

/-- No lexeme stands for the end of the input. -/
theorem kind_token_ne_finish {l : Lexeme} {rest rest' : List Char} {source source' : LineSource}
    (h : LineSource.next rest source = (.lexeme l rest', source')) (s : Session α) :
    (s.token l).1.kind ≠ .finish := by
  cases l with
  | newline => simp [Session.token, Token.bare]
  | stray c => simp [Session.token, Token.bare]
  | number n =>
    cases hv : n.value? with
    | none => simp [Session.token, hv, Token.bare]
    | some v => simp [Session.token, hv]
  | name chars => exact ne_of_isName (TokenKind.isName_ofArity? _) rfl
  -- a mark has a character, and none is that of the end
  | mark kind =>
    obtain ⟨c, hc⟩ := LineSource.exists_of_next_mark h
    intro hk
    have hk : kind = .finish := hk
    exact ofChar?_ne_finish c (hk ▸ hc)

/-- At the end of the input nothing happens any more. -/
theorem Ready.advance_of_finish {e : Evaluation α} (h : e.Ready)
    (hk : e.advance.current.kind = .finish) : e.advance.advance = e.advance := by
  obtain ⟨t, s⟩ := e
  simp only [Ready] at h
  unfold Evaluation.advance TokenStream.advance at hk ⊢
  simp only [h, current] at hk ⊢
  unfold TokenStream.scan at hk ⊢
  simp only at hk ⊢
  generalize (if t.newlinePending then s.nextLine else s) = r at hk ⊢
  -- the end was met before, or it is met now and remembered
  by_cases hx : t.exhausted = true
  · simp [hx, h]
  · simp only [hx, if_false, Bool.false_eq_true] at hk ⊢
    split at hk
    · next hn => exact absurd hk (kind_token_ne_finish hn r)
    · next => simp [h]
    · next =>
      simp [h]
      rfl

end Evaluation

end DeskCalc
