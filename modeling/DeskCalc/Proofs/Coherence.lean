import DeskCalc.Proofs.Calls
import DeskCalc.Proofs.Reachable
import DeskCalc.Proofs.Syntax.Gaps

/-!
# Tokens agree with the table

The kind of a name is decided when the name is read and used later, when assignments and other names
have changed the table. It is right all the same: whatever happens to a table, a place in it stays
with its name, and a function stays the function it is.

* `SymbolTable.Backs` — a token agrees with a table: a name has its place, its kind says what is
  there, and a number has its value.
* `Evaluation.Occurs` — the evaluations that there can be, between any two elementary moves.
* `Evaluation.Occurs.buffered` — at every point, the current token and the one that was looked at
  agree with the table (`Evaluation.Occurs.backs`).
* `Evaluation.Occurs.settled` — so productions start from settled evaluations only.
-/

namespace DeskCalc

variable {α : Type}

/-! ## Tokens and tables -/

/-- The token agrees with the table. -/
structure SymbolTable.Backs (t : SymbolTable α) (token : Token α) : Prop where
  number : token.kind = .number → ∃ value, token.number? = some value
  /-- The kind of a name is that of a function just when a function is at its place, and then it
  tells how many arguments the function takes. -/
  name : token.kind.isName = true → ∃ index entry,
    token.symbol? = some index ∧ index < t.size ∧ t.entry index = .ok entry ∧
      (token.kind = .name ↔ ∀ f, entry.binding ≠ .builtIn f) ∧
      ∀ n, token.kind.arity? = some n ↔ ∃ f, entry.binding = .builtIn f ∧ f.arity = n

/-- A plain name is what is bound to no function. -/
theorem Binding.kind_eq_name_iff (b : Binding α) :
    TokenKind.ofArity? b.arity? = .name ↔ ∀ f, b ≠ .builtIn f := by
  cases b with
  | builtIn f => rcases f with _ | _ | _ <;> simp [arity?, BuiltIn.arity, TokenKind.ofArity?]
  | undefined => simp [arity?, TokenKind.ofArity?]
  | assigned value => simp [arity?, TokenKind.ofArity?]
  | constant value => simp [arity?, TokenKind.ofArity?]

/-- No function takes more than two arguments, so the kind tells their number. -/
theorem Binding.arity?_kind_iff (b : Binding α) (n : Nat) :
    (TokenKind.ofArity? b.arity?).arity? = some n ↔ ∃ f, b = .builtIn f ∧ f.arity = n := by
  cases b with
  | builtIn f => rcases f with _ | _ | _ <;> simp [arity?, BuiltIn.arity, TokenKind.ofArity?,
      TokenKind.arity?]
  | undefined => simp [arity?, TokenKind.ofArity?, TokenKind.arity?]
  | assigned value => simp [arity?, TokenKind.ofArity?, TokenKind.arity?]
  | constant value => simp [arity?, TokenKind.ofArity?, TokenKind.arity?]

/-- A token that is coherent with the faces of a table agrees with the table. -/
theorem Coherent.backs {t : SymbolTable α} {token : Token α}
    (h : Coherent t.faces token.content) : t.Backs token := by
  obtain ⟨kind, payload, line⟩ := token
  cases h with
  | number value =>
    exact ⟨fun _ => ⟨value, rfl⟩,
      fun hname => by simp [TokenKind.isName, TokenKind.arity?] at hname⟩
  -- the face at the place of the name is that of an entry, whose binding decides the kind
  | @name index name arity? hface =>
    obtain ⟨binding, hentry, rfl⟩ := SymbolTable.exists_entry_of_face hface
    refine ⟨fun hnumber => ?_, fun _ => ⟨index, ⟨name, binding⟩, rfl, ?_, hentry,
      binding.kind_eq_name_iff, binding.arity?_kind_iff⟩⟩
    · have hname := TokenKind.isName_ofArity? binding.arity?
      rw [show TokenKind.ofArity? binding.arity? = .number from hnumber] at hname
      cases hname
    · rw [← SymbolTable.length_faces]
      exact (List.getElem?_eq_some_iff.1 hface).1
  | mark hnumber hname =>
    exact ⟨fun h => absurd h hnumber, fun h => by simp [hname] at h⟩

namespace Evaluation

variable [Arithmetic α]

/-! ## The points of an evaluation -/

/-- The evaluations that there can be: they start with a table that there can be and go on by
elementary moves, in any order. -/
inductive Occurs : Evaluation α → Prop
  | start (source : LineSource) {session : Session α} :
    session.table.Reachable → Occurs (start source session)
  | switch (source : LineSource) {e : Evaluation α} : Occurs e → Occurs (e.switch source)
  | peek {e : Evaluation α} : Occurs e → Occurs e.peek.2
  | advance {e : Evaluation α} : Occurs e → Occurs e.advance
  | report (problem : Problem) {e : Evaluation α} : Occurs e → Occurs (e.report problem)
  | intern (name : String) {e : Evaluation α} :
    Occurs e → Occurs { e with session := (e.session.intern name).2 }
  | assign {e : Evaluation α} {index : Nat} {value : α} {session : Session α} :
    e.session.assign index value = .ok session → Occurs e → Occurs { e with session }
  | draw {e : Evaluation α} : Occurs e →
    Occurs { e with session := { e.session with draws := e.session.draws.next.2 } }

/-- What holds at every point: the tokens that were read agree with the table, and a line break is
still to be counted only if it was read last. -/
structure Buffered (e : Evaluation α) : Prop where
  current : Coherent e.session.table.faces e.current.content
  lookahead : ∀ token, e.stream.lookahead = some token →
    Coherent e.session.table.faces token.content
  newlinePending : (e.stream.lookahead.getD e.current).kind.endsStatement = false →
    e.stream.newlinePending = false
  table : e.session.table.Reachable

/-- A change of the session that adds names at most. -/
theorem Buffered.of_session {e : Evaluation α} (h : e.Buffered) {s : Session α}
    (hfaces : e.session.table.faces <+: s.table.faces) (htable : s.table.Reachable) :
    Buffered { e with session := s } where
  current := h.current.mono hfaces
  lookahead token htoken := (h.lookahead token htoken).mono hfaces
  newlinePending := h.newlinePending
  table := htable

theorem table_peek {e : Evaluation α} (h : e.session.table.Reachable) :
    e.peek.2.session.table.Reachable := by
  rw [session_peek]
  exact table_reads e.reads_advance h

/-- What was looked at agrees with the table, and so does what was there before. -/
theorem Buffered.peek {e : Evaluation α} (h : e.Buffered) : e.peek.2.Buffered := by
  have htable := table_peek h.table
  have hcurrent := e.current_peek
  have hfaces : e.session.table.faces <+: e.peek.2.session.table.faces := by
    rw [session_peek]
    exact e.faces_advance
  obtain ⟨t, s⟩ := e
  cases hl : t.lookahead with
  -- a token that was looked at already is looked at again
  | some token =>
    have hpeek : (Evaluation.mk t s).peek.2 = ⟨t, s⟩ := by
      simp [Evaluation.peek, TokenStream.peek, hl]
    rwa [hpeek]
  | none =>
    obtain ⟨hcoherent, hnewline⟩ := t.coherent_scan s
    have hpeek : (Evaluation.mk t s).peek.2 =
        ⟨{ (t.scan s).2.1 with lookahead := some (t.scan s).1 }, (t.scan s).2.2⟩ := by
      simp [Evaluation.peek, TokenStream.peek, hl]
    rw [hpeek] at htable hcurrent hfaces ⊢
    refine ⟨?_, ?_, hnewline, htable⟩
    · rw [hcurrent]
      exact h.current.mono hfaces
    · rintro token ⟨⟩
      exact hcoherent

/-- Taking a token makes it the current one, which agrees with the table. -/
theorem Buffered.advance {e : Evaluation α} (h : e.Buffered) : e.advance.Buffered := by
  have htable := table_reads e.reads_advance h.table
  obtain ⟨t, s⟩ := e
  cases hl : t.lookahead with
  | some token =>
    -- the token that was looked at becomes the current one
    have hadvance : (Evaluation.mk t s).advance =
        ⟨{ t with current := token, lookahead := none }, s⟩ := by
      simp [Evaluation.advance, TokenStream.advance, hl]
    rw [hadvance]
    refine ⟨h.lookahead token hl, by simp, ?_, h.table⟩
    have hnewline := h.newlinePending
    simp only [hl] at hnewline
    exact hnewline
  | none =>
    have hready : (Evaluation.mk t s).Ready := hl
    obtain ⟨hready', hnewline, hcoherent⟩ := hready.settled_advance
    refine ⟨hcoherent, fun token htoken => ?_, fun hk => hnewline ?_, htable⟩
    · rw [hready'] at htoken
      cases htoken
    · rwa [hready'] at hk

/-- An evaluation starts behind the end of a statement, with nothing looked at. -/
theorem buffered_start (source : LineSource) {session : Session α}
    (h : session.table.Reachable) : (start source session).Buffered where
  current := show Coherent _ (Content.mark .endOfStatement) from .mark (by decide) rfl
  lookahead token htoken := by cases htoken
  newlinePending _ := rfl
  table := h

/-- At every point the tokens that were read agree with the table. -/
theorem Occurs.buffered {e : Evaluation α} (h : Occurs e) : e.Buffered := by
  -- by induction on the moves: none of them takes a face away
  induction h with
  | start source htable => exact buffered_start source htable
  | switch source _ ih => exact buffered_start source ih.table
  | peek _ ih => exact ih.peek
  | advance _ ih => exact ih.advance
  | report problem _ ih => exact ih.of_session List.prefix_rfl ih.table
  | intern name _ ih => exact ih.of_session (Session.faces_intern name _) (ih.table.intern name)
  | @assign e index value session ha _ ih =>
    have hfaces : session.table.faces = e.session.table.faces :=
      congrArg Session.View.faces (Session.view_assign ha)
    exact ih.of_session (hfaces ▸ List.prefix_rfl) ((Step.assign ha).table ih.table)
  | draw _ ih => exact ih.of_session List.prefix_rfl ih.table

/-- At every point, the current token and the one that was looked at agree with the table. -/
theorem Occurs.backs {e : Evaluation α} (h : Occurs e) {token : Token α}
    (htoken : token = e.current ∨ e.stream.lookahead = some token) :
    e.session.table.Backs token := by
  rcases htoken with rfl | htoken
  · exact h.buffered.current.backs
  · exact (h.buffered.lookahead token htoken).backs

/-- Where nothing was looked at, productions can start. -/
theorem Occurs.settled {e : Evaluation α} (h : Occurs e) (hready : e.Ready) : e.Settled where
  ready := hready
  newlinePending hk := by
    have hnewline := h.buffered.newlinePending
    rw [hready] at hnewline
    exact hnewline hk
  coherent := h.buffered.current

/-! ## Productions and statements go through such points -/

theorem Occurs.of_step {e e' : Evaluation α} (h : Occurs e) (hstep : Step e e') : Occurs e' := by
  cases hstep with
  | advance => exact h.advance
  | report problem => exact h.report problem
  | assign ha => exact h.assign ha
  | draw => exact h.draw

/-- A production is made of moves. -/
theorem Occurs.of_reaches {e e' : Evaluation α} (h : Occurs e) (hreaches : Reaches e e') :
    Occurs e' := by
  induction hreaches with
  | refl => exact h
  | tail _ step ih => exact ih.of_step step

theorem Occurs.toStatement {e : Evaluation α} (h : Occurs e) : Occurs e.toStatement := by
  fun_induction Evaluation.toStatement e with
  | case1 e _ ih => exact ih h.advance
  | case2 e _ => exact h.advance

theorem Occurs.skip {e : Evaluation α} (h : Occurs e) : Occurs e.skip := by
  fun_induction Evaluation.skip e with
  | case1 e _ => exact h
  | case2 e _ ih => exact ih h.advance

/-- The end of a statement is made of moves. -/
theorem Occurs.conclude {e : Evaluation α} (h : Occurs e) (count : Nat) :
    Occurs (e.conclude count) := by
  unfold Evaluation.conclude
  split
  · exact h
  · split
    · exact (h.report _).skip
    · exact h.skip

theorem Occurs.rememberStatement {e : Evaluation α} (h : Occurs e) (statement : Statement α) :
    Occurs (e.rememberStatement statement) := by
  cases statement with
  | assignment value => exact h
  | expression value => exact (h.intern SymbolTable.last).of_reaches (reaches_assign _ _ _)

/-- Statements are made of elementary moves. -/
theorem Occurs.statement {e : Evaluation α} (h : Occurs e) (hready : e.Ready) :
    Occurs e.statement.2 := by
  by_cases hk : e.toStatement.current.kind = .finish
  · rw [statement_of_finish hk]
    exact h.toStatement
  · rw [statement_of_ne_finish hk]
    have hbody := h.toStatement.of_reaches hready.settled_toStatement.reaches_body
    exact (hbody.conclude _).rememberStatement _

end Evaluation

end DeskCalc
