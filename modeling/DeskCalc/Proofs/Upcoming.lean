import DeskCalc.Proofs.View

/-!
# The tokens of a statement

Between two ends of statements lies a run of tokens. This module says what the run ahead of an
evaluation is, and that no production changes it but by taking tokens off its front.

* `Coherent` — a token brings along what its kind calls for: a number its value, a name its place in
  the table, with the kind that the face at that place asks for.
* `Evaluation.Settled` — the state in which productions work: nothing was looked at beyond the
  current token, and that is coherent. Taking a token settles an evaluation (`settled_advance`), and
  productions keep it so (`Reaches.settled`).
* `Evaluation.upcoming` — the run from the current token on.
* `Reaches.skip_view` — whatever a production does, the rest of its statement ends in the same view
  as if the tokens had just been skipped.
* `Reaches.exists_iterate` — a production moves along the run by some number of tokens.
-/

namespace DeskCalc

variable {α : Type}

/-- What a token says apart from the line it was read on. -/
abbrev Content (α : Type) := TokenKind × Payload α

/-- What is left of a token when its line is forgotten. -/
def Token.content (t : Token α) : Content α := (t.kind, t.payload)

/-- A token without payload. -/
abbrev Content.mark (kind : TokenKind) : Content α := (kind, .none)

/-! ## Coherent tokens -/

/-- The token brings along what its kind calls for, in a table with the given faces. -/
inductive Coherent (faces : List (String × Option Nat)) : Content α → Prop where
  | number (value : α) : Coherent faces (.number, .number value)
  | name {index : Nat} {name : String} {arity? : Option Nat}
      (hface : faces[index]? = some (name, arity?)) :
      Coherent faces (.ofArity? arity?, .symbol index)
  | mark {kind : TokenKind} (hnumber : kind ≠ .number) (hname : kind.isName = false) :
      Coherent faces (.mark kind)

/-- New names do not make a token less coherent: the old ones keep their places. -/
theorem Coherent.mono {faces faces' : List (String × Option Nat)} {c : Content α}
    (h : Coherent faces c) (hpre : faces <+: faces') : Coherent faces' c := by
  cases h with
  | number value => exact .number value
  | name hface =>
    obtain ⟨more, rfl⟩ := hpre
    have hlt := (List.getElem?_eq_some_iff.1 hface).1
    exact .name ((List.getElem?_append_left hlt).trans hface)
  | mark hnumber hname => exact .mark hnumber hname

/-- A token of the kind of a name has a place, and the place is in the table. -/
theorem Coherent.exists_symbol {faces : List (String × Option Nat)} {t : Token α}
    (h : Coherent faces t.content) (hname : t.kind.isName = true) :
    ∃ index, t.symbol? = some index ∧ index < faces.length := by
  obtain ⟨kind, payload, line⟩ := t
  cases h with
  | number => simp [TokenKind.isName, TokenKind.arity?] at hname
  | name hface => exact ⟨_, rfl, (List.getElem?_eq_some_iff.1 hface).1⟩
  | mark _ hname' => simp [hname'] at hname

/-- No character by itself is a number or a name. -/
theorem TokenKind.ofChar?_ne_number {c : Char} {kind : TokenKind} (h : ofChar? c = some kind) :
    kind ≠ .number ∧ kind.isName = false := by
  unfold ofChar? at h
  split at h <;> simp_all [isName, arity?] <;> subst h <;> decide

namespace Session

theorem faces_report (problem : Problem) (s : Session α) :
    (s.report problem).table.faces = s.table.faces := rfl

/-- Interning adds a face at most, behind the others. -/
theorem faces_intern (name : String) (s : Session α) :
    s.table.faces <+: (s.intern name).2.table.faces := by
  show s.table.faces <+: (s.table.intern name).2.faces
  rw [SymbolTable.faces_intern]
  split
  · exact List.prefix_rfl
  · exact List.prefix_append _ _

/-- Behind interning a name, its face is found at its place. -/
theorem face_intern (name : String) (s : Session α) :
    ∃ arity?, (s.intern name).2.table.faces[(s.intern name).1]? = some (name, arity?) := by
  show ∃ arity?, (s.table.intern name).2.faces[(s.table.intern name).1]? = some (name, arity?)
  rw [SymbolTable.faces_intern, SymbolTable.fst_intern]
  -- a new name is at the end; one that is there already was found by its face
  cases hi : s.table.indexOf? name with
  | none => exact ⟨none, by simp [← SymbolTable.length_faces]⟩
  | some index =>
    rw [SymbolTable.indexOf?_eq_findIdx?, List.findIdx?_eq_some_iff_getElem] at hi
    obtain ⟨hlt, hname, -⟩ := hi
    exact ⟨s.table.faces[index].2, by simp [hlt, ← eq_of_beq hname]⟩

variable [Arithmetic α]

/-- Only a name does anything to the table, and that is to be given a place. -/
theorem faces_token (l : Lexeme) (s : Session α) :
    s.table.faces <+: (s.token l).2.table.faces := by
  cases l with
  | newline => exact List.prefix_rfl
  | mark kind => exact List.prefix_rfl
  | stray c => exact List.prefix_rfl
  | number n => cases hv : n.value? <;> simp [token, hv, faces_report]
  | name chars => exact faces_intern _ s

end Session

/-- A mark is one character. -/
theorem Lexeme.exists_of_next?_mark {cs rest : List Char} {kind : TokenKind}
    (h : next? cs = some (.mark kind, rest)) : ∃ c, TokenKind.ofChar? c = some kind := by
  fun_induction next? cs with
  | case1 => simp at h
  | case2 => simp at h
  -- a blank is left out, and the mark stands behind it
  | case3 c cs _ _ ih => exact ih h
  | case4 => simp at h
  | case5 => simp at h
  | case6 c cs =>
    simp only [ofChar, Option.some.injEq, Prod.mk.injEq] at h
    cases hc : TokenKind.ofChar? c with
    | none => simp [hc] at h
    | some kind' => exact ⟨c, by simp_all⟩

/-- So is a mark for which more lines had to be read. -/
theorem LineSource.exists_of_next_mark {rest rest' : List Char} {s s' : LineSource}
    {kind : TokenKind} (h : next rest s = (.lexeme (.mark kind) rest', s')) :
    ∃ c, TokenKind.ofChar? c = some kind := by
  fun_induction next rest s with
  | case1 rest s l rest'' hl =>
    cases h
    exact Lexeme.exists_of_next?_mark hl
  | case2 rest s _ chars s'' _ ih => exact ih h
  | case3 => simp at h
  | case4 => simp at h

namespace TokenStream

variable [Arithmetic α]

/-- Reading a token adds faces and takes none away. -/
theorem faces_scan (t : TokenStream α) (s : Session α) :
    s.table.faces <+: (t.scan s).2.2.table.faces := by
  -- counting a line does not touch the table
  have hnext : (if t.newlinePending then s.nextLine else s).table = s.table := by
    split <;> rfl
  unfold scan
  simp only
  rw [← hnext]
  generalize (if t.newlinePending then s.nextLine else s) = r
  split
  · exact List.prefix_rfl
  · split
    · exact Session.faces_token _ r
    · exact List.prefix_rfl
    · exact List.prefix_rfl

/-- A token off the source is coherent, and leaves a line break to be counted only if it ends a
statement. -/
theorem coherent_scan (t : TokenStream α) (s : Session α) :
    Coherent (t.scan s).2.2.table.faces (t.scan s).1.content ∧
      ((t.scan s).1.kind.endsStatement = false → (t.scan s).2.1.newlinePending = false) := by
  unfold scan
  simp only
  generalize (if t.newlinePending then s.nextLine else s) = r
  have hfinish : ∀ {faces : List (String × Option Nat)},
      Coherent (α := α) faces (.mark .finish) := .mark (by decide) rfl
  split
  · exact ⟨hfinish, fun _ => rfl⟩
  · split
    · next l rest source hn =>
      have hend : ∀ {faces : List (String × Option Nat)},
          Coherent (α := α) faces (.mark .endOfStatement) := .mark (by decide) rfl
      -- what the token brings along is made together with its kind
      cases l with
      | newline => exact ⟨hend, fun h => by simp [Session.token, Token.bare,
          TokenKind.endsStatement] at h⟩
      | mark kind =>
        obtain ⟨c, hc⟩ := LineSource.exists_of_next_mark hn
        obtain ⟨hnumber, hname⟩ := TokenKind.ofChar?_ne_number hc
        exact ⟨.mark hnumber hname, fun _ => rfl⟩
      | stray c => exact ⟨hend, fun _ => rfl⟩
      -- a numeral without a value is reported, and ends the statement
      | number n =>
        refine ⟨?_, fun _ => rfl⟩
        cases hv : n.value? with
        | none =>
          simp only [Session.token, hv]
          exact hend
        | some v =>
          simp only [Session.token, hv]
          exact .number (Arithmetic.ofDecimal v.1 v.2)
      | name chars =>
        refine ⟨?_, fun _ => rfl⟩
        -- the kind is looked up in the table that has a place for the name already
        obtain ⟨arity?, hface⟩ := r.face_intern (String.ofList chars)
        have harity : (((r.intern (String.ofList chars)).2.table.get
            (r.intern (String.ofList chars)).1).toOption.bind Binding.arity?) = arity? := by
          rw [SymbolTable.arity?_get, hface]
          rfl
        simp only [Session.token, Token.content, harity]
        exact .name hface
    · exact ⟨hfinish, fun _ => rfl⟩
    · exact ⟨hfinish, fun _ => rfl⟩

end TokenStream

namespace Evaluation

/-! ## Settled evaluations -/

/-- Nothing was looked at beyond the current token. So it is between two statements. -/
def Ready (e : Evaluation α) : Prop := e.stream.lookahead = none

/-- The state in which productions work. -/
structure Settled (e : Evaluation α) : Prop where
  ready : e.Ready
  newlinePending : e.current.kind.endsStatement = false → e.stream.newlinePending = false
  coherent : Coherent e.session.table.faces e.current.content

/-- Nothing has been looked at before the first token. -/
theorem ready_start (source : LineSource) (session : Session α) : (start source session).Ready :=
  rfl

/-- An input starts as if a statement had just ended. -/
theorem settled_start (source : LineSource) (session : Session α) :
    (start source session).Settled :=
  ⟨rfl, fun hk => (by cases hk), .mark (by decide : TokenKind.endOfStatement ≠ .number) rfl⟩

variable [Arithmetic α]

/-- Taking a token adds faces and takes none away. -/
theorem faces_advance (e : Evaluation α) :
    e.session.table.faces <+: e.advance.session.table.faces := by
  obtain ⟨t, s⟩ := e
  unfold advance TokenStream.advance
  simp only
  cases t.lookahead with
  | some token => exact List.prefix_rfl
  | none => exact t.faces_scan s

/-- Taking a token settles an evaluation, whatever came before. -/
theorem Ready.settled_advance {e : Evaluation α} (h : e.Ready) : e.advance.Settled := by
  obtain ⟨t, s⟩ := e
  simp only [Ready] at h
  obtain ⟨hcoherent, hnewline⟩ := t.coherent_scan s
  constructor
  · simp [Ready, advance, TokenStream.advance, h]
  · simpa [advance, TokenStream.advance, h, current] using hnewline
  · simpa [advance, TokenStream.advance, h, current] using hcoherent

theorem Settled.advance {e : Evaluation α} (h : e.Settled) : e.advance.Settled :=
  h.ready.settled_advance

omit [Arithmetic α] in
/-- A settled evaluation whose current token is a name knows the place of the name. -/
theorem Settled.exists_symbol {e : Evaluation α} (h : e.Settled)
    (hname : e.current.kind.isName = true) :
    ∃ index, e.current.symbol? = some index ∧ index < e.session.table.size := by
  obtain ⟨index, hindex, hlt⟩ := h.coherent.exists_symbol hname
  exact ⟨index, hindex, by rwa [SymbolTable.length_faces] at hlt⟩

/-- A move takes the next token, or it does not show in the view. All that productions do to what is
to come follows from this. -/
theorem view_of_step {e e' : Evaluation α} (h : Step e e') :
    e'.view = e.view ∨ e.current.kind.endsStatement = false ∧ e' = e.advance := by
  cases h with
  | advance _ hk => exact .inr ⟨hk, rfl⟩
  | report problem _ hp =>
    exact .inl (by simp [view, report,
      Session.view_report _ _ (Problem.ofReading_of_ofEvaluation hp)])
  | assign ha => exact .inl (by simp [view, Session.view_assign ha])
  | draw => exact .inl rfl

omit [Arithmetic α] in
/-- Being settled is a matter of the view. -/
theorem Settled.of_view {e e' : Evaluation α} (h : e.Settled) (hv : e'.view = e.view) :
    e'.Settled := by
  have hstream : e'.stream = e.stream := congrArg View.stream hv
  have hfaces : e'.session.table.faces = e.session.table.faces :=
    congrArg (fun v => v.session.faces) hv
  constructor
  · simpa [Ready, hstream] using h.ready
  · simpa [current, hstream] using h.newlinePending
  · simpa [current, hstream, hfaces] using h.coherent

/-- Productions keep an evaluation settled. -/
theorem Reaches.settled {e e' : Evaluation α} (h : Reaches e e') (hs : e.Settled) :
    e'.Settled := by
  induction h with
  | refl => exact hs
  | tail _ step ih =>
    -- either kind of move keeps it
    rcases view_of_step step with hv | ⟨_, rfl⟩
    · exact ih.of_view hv
    · exact ih.advance

/-- What productions read adds faces and takes none away. -/
theorem Reaches.faces {e e' : Evaluation α} (h : Reaches e e') :
    e.session.table.faces <+: e'.session.table.faces := by
  induction h with
  | refl => exact List.prefix_rfl
  | tail _ step ih =>
    rcases view_of_step step with hv | ⟨_, rfl⟩
    · have hfaces := congrArg (fun v => v.session.faces) hv
      simp only [view, Session.view] at hfaces
      rwa [hfaces]
    · exact ih.trans (faces_advance _)

/-- Places in the table stay valid. -/
theorem Reaches.size_le {e e' : Evaluation α} (h : Reaches e e') :
    e.session.table.size ≤ e'.session.table.size := by
  have := h.faces.length_le
  rwa [SymbolTable.length_faces, SymbolTable.length_faces] at this

/-! ## The run of tokens ahead -/

/-- The tokens from the current one up to the next end of a statement. -/
def upcoming (e : Evaluation α) : List (Content α) :=
  if _h : e.current.kind.endsStatement = true then []
  else e.current.content :: e.advance.upcoming
termination_by e.ahead
decreasing_by exact ahead_advance_lt (by simpa using _h)

theorem upcoming_of_endsStatement {e : Evaluation α} (h : e.current.kind.endsStatement = true) :
    e.upcoming = [] := by
  rw [upcoming, dif_pos h]

/-- Within a statement, the current token is ahead and so is what is behind it. -/
theorem upcoming_of_not_endsStatement {e : Evaluation α}
    (h : e.current.kind.endsStatement = false) :
    e.upcoming = e.current.content :: e.advance.upcoming := by
  rw [upcoming, dif_neg (by simp [h])]

/-- Nothing is ahead just at the end of a statement. -/
theorem upcoming_eq_nil_iff {e : Evaluation α} :
    e.upcoming = [] ↔ e.current.kind.endsStatement = true := by
  constructor
  · intro h
    by_contra hk
    rw [upcoming_of_not_endsStatement (by simpa using hk)] at h
    simp at h
  · exact upcoming_of_endsStatement

/-- Behind the first token of the run, the rest of it is ahead. -/
theorem of_upcoming_eq_cons {e : Evaluation α} {c : Content α} {cs : List (Content α)}
    (h : e.upcoming = c :: cs) :
    e.current.kind.endsStatement = false ∧ e.current.content = c ∧ e.advance.upcoming = cs := by
  -- at the end of a statement nothing would be ahead
  have hk : e.current.kind.endsStatement = false := by
    by_contra hk
    rw [upcoming_of_endsStatement (by simpa using hk)] at h
    simp at h
  rw [upcoming_of_not_endsStatement hk, List.cons.injEq] at h
  exact ⟨hk, h⟩

/-- The run ahead is a matter of the view. -/
theorem upcoming_congr {e e' : Evaluation α} (h : e.view = e'.view) : e.upcoming = e'.upcoming := by
  fun_induction upcoming e generalizing e' with
  | case1 e hk => rw [upcoming_of_endsStatement (by rwa [← current_of_view h])]
  | case2 e hk ih =>
    have hk' : e'.current.kind.endsStatement = false := by
      simpa [← current_of_view h] using hk
    rw [upcoming_of_not_endsStatement hk', current_of_view h, ih (view_advance h)]

theorem skip_of_endsStatement {e : Evaluation α} (h : e.current.kind.endsStatement = true) :
    e.skip = e := by
  rw [skip, dif_pos h]

/-- A token that was taken does not have to be skipped. -/
theorem skip_advance {e : Evaluation α} (h : e.current.kind.endsStatement = false) :
    e.advance.skip = e.skip := by
  rw [skip.eq_1 e, dif_neg (by simp [h])]

/-- Where skipping leads is a matter of the view. -/
theorem skip_congr {e e' : Evaluation α} (h : e.view = e'.view) : e.skip.view = e'.skip.view := by
  fun_induction skip e generalizing e' with
  | case1 e hk => rw [skip_of_endsStatement (by rwa [← current_of_view h]), h]
  | case2 e hk ih =>
    rw [ih (view_advance h), skip_advance (by simpa [← current_of_view h] using hk)]

/-- Skipping stops at the end of the statement. -/
theorem endsStatement_skip (e : Evaluation α) : e.skip.current.kind.endsStatement = true := by
  fun_induction skip e with
  | case1 e hk => exact hk
  | case2 e hk ih => exact ih

/-- Skipping makes places for names, but moves none. -/
theorem faces_skip (e : Evaluation α) :
    e.session.table.faces <+: e.skip.session.table.faces := by
  fun_induction Evaluation.skip e with
  | case1 e _ => exact List.prefix_rfl
  | case2 e _ ih => exact (faces_advance e).trans ih

/-- A production does not change where the statement ends. -/
theorem Reaches.skip_view {e e' : Evaluation α} (h : Reaches e e') :
    e'.skip.view = e.skip.view := by
  induction h with
  | refl => rfl
  | tail _ step ih =>
    rw [← ih]
    -- the token that a move takes would have been skipped
    rcases view_of_step step with hv | ⟨hk, rfl⟩
    · exact skip_congr hv
    · rw [skip_advance hk]

/-- A production moves along the run, past none but tokens of the run. -/
theorem Reaches.exists_iterate {e e' : Evaluation α} (h : Reaches e e') :
    ∃ n ≤ e.upcoming.length, e'.view = (Evaluation.advance^[n] e).view ∧
      e'.upcoming = e.upcoming.drop n := by
  induction h with
  | refl => exact ⟨0, Nat.zero_le _, rfl, rfl⟩
  | @tail e₁ e₂ _ step ih =>
    obtain ⟨n, hn, hview, hup⟩ := ih
    rcases view_of_step step with hv | ⟨hk, rfl⟩
    · exact ⟨n, hn, hv.trans hview, (upcoming_congr hv).trans hup⟩
    -- the token taken is the next one of the run, so the run was not at its end
    · have hcons := hup.symm.trans (upcoming_of_not_endsStatement hk)
      have hlt : n < e.upcoming.length := by
        by_contra hge
        rw [List.drop_eq_nil_of_le (by omega)] at hcons
        simp at hcons
      refine ⟨n + 1, hlt, ?_, ?_⟩
      · rw [Function.iterate_succ_apply', view_advance hview]
      · rw [← List.drop_drop, hcons]
        rfl

end Evaluation

end DeskCalc
