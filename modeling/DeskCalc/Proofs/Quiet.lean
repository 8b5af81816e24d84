import DeskCalc.Proofs.Acceptance
import DeskCalc.Proofs.Correspondence

/-!
# Texts that change nothing

A text that assigns nothing and draws no random number leaves a session as it was: all names keep
their bindings, but for the last result.

* `Lexeme.Quiet`, `TokenKind.Quiet` — a lexeme or a token of such a text.
* `Evaluation.Quiet` — a quiet text is left to read, so the tokens ahead are quiet
  (`quiet_upcoming`).
* `Tree.keeps_evaluate` — evaluating a tree of quiet tokens leaves the table and the random numbers
  as they are.
* `Evaluation.Quiet.keeps_statements` — so do the statements of a quiet text, but for the last
  result.
-/

namespace DeskCalc

/-- The name of the function that draws random numbers. -/
def SymbolTable.rand : String := "rand"

/-- The token assigns nothing and draws no random number. -/
def TokenKind.Quiet (k : TokenKind) : Prop := k ≠ .equals ∧ k ≠ .nullary

instance : DecidablePred TokenKind.Quiet := fun _ => inferInstanceAs (Decidable (_ ∧ _))

/-- The lexeme assigns nothing and draws no random number. -/
def Lexeme.Quiet (l : Lexeme) : Prop :=
  (∀ kind, l = .mark kind → kind.Quiet) ∧ l.name? ≠ some SymbolTable.rand

/-! ## Texts -/

/-- A mark is in a text only where its character is. -/
theorem Lexes.exists_of_mark {line : Nat} {cs : List Char} {ls : List (Lexeme × Nat)}
    (h : Lexes line cs ls) {l : Lexeme × Nat} (hl : l ∈ ls) {kind : TokenKind}
    (hmark : l.1 = .mark kind) : ∃ c ∈ cs, TokenKind.ofChar? c = some kind := by
  -- by induction on the text's lexemes; each takes its characters off the front
  induction h with
  | nil line => cases hl
  | newline _ ih =>
    rcases List.mem_cons.1 hl with rfl | hl
    · cases hmark
    · exact (ih hl).imp fun _ hc => hc.imp_left (List.mem_cons_of_mem _)
  | blank _ _ _ ih => exact (ih hl).imp fun _ hc => hc.imp_left (List.mem_cons_of_mem _)
  | number _ _ _ ih =>
    rcases List.mem_cons.1 hl with rfl | hl
    · cases hmark
    · exact (ih hl).imp fun _ hc => hc.imp_left (List.mem_append_right _)
  | name _ _ _ _ ih =>
    rcases List.mem_cons.1 hl with rfl | hl
    · cases hmark
    · exact (ih hl).imp fun _ hc => hc.imp_left (List.mem_append_right _)
  | @mark line c kind cs ls hkind _ ih =>
    rcases List.mem_cons.1 hl with rfl | hl
    · cases hmark
      exact ⟨c, List.mem_cons_self, hkind⟩
    · exact (ih hl).imp fun _ hc => hc.imp_left (List.mem_cons_of_mem _)
  | stray _ _ _ _ _ _ _ ih =>
    rcases List.mem_cons.1 hl with rfl | hl
    · cases hmark
    · exact (ih hl).imp fun _ hc => hc.imp_left (List.mem_cons_of_mem _)

/-- A lexeme is quiet in a text without an assignment, unless it draws a random number. -/
theorem quiet_of_mem_lexemes {line : Nat} {cs : List Char} (hequals : '=' ∉ cs)
    {l : Lexeme × Nat} (hl : l ∈ lexemes line cs) (hrand : l.1.name? ≠ some SymbolTable.rand) :
    l.1.Quiet := by
  refine ⟨fun kind hmark => ?_, hrand⟩
  obtain ⟨c, hc, hkind⟩ := (lexes_lexemes line cs).exists_of_mark hl hmark
  constructor
  · rintro rfl
    -- only the character of an assignment makes its mark
    unfold TokenKind.ofChar? at hkind
    split at hkind <;> first | exact hequals hc | cases hkind
  · rintro rfl
    cases (TokenKind.ofChar?_ne_number hkind).2

variable {α : Type} [Arithmetic α]

/-! ## Tokens -/

/-- There is one function without arguments. -/
theorem SymbolTable.Reachable.eq_rand {t : SymbolTable α} (h : t.Reachable) {e : SymbolEntry α}
    (he : e ∈ t.entries) (harity : e.binding.arity? = some 0) : e.name = rand := by
  induction h with
  | empty => simp [SymbolTable.empty] at he
  | standard =>
    simp only [SymbolTable.standard, ofList, standardBindings, constants, functions, List.map_cons,
      List.map_nil, List.cons_append, List.nil_append, List.mem_toArray, List.mem_cons,
      List.not_mem_nil, or_false] at he
    -- one standard name after another
    rcases he with h | h | h | h | h | h | h | h | h | h | h | h | h | h | h | h | h <;> subst h <;>
      first | rfl | simp [Binding.arity?, BuiltIn.arity] at harity
  | intern name _ ih =>
    rcases mem_entries_intern he with hmem | rfl
    · exact ih hmem
    · cases harity
  | assign _ ha ih =>
    rcases mem_entries_assign ha he with hmem | hvalue
    · exact ih hmem
    · rw [hvalue] at harity
      cases harity

/-- A quiet lexeme makes a quiet token, whatever names the table has. -/
theorem Session.quiet_token {s : Session α} (h : s.table.Reachable) {l : Lexeme} (hl : l.Quiet) :
    (s.token l).1.kind.Quiet := by
  cases l with
  | newline => exact (by decide : TokenKind.endOfStatement.Quiet)
  | stray c => exact (by decide : TokenKind.endOfStatement.Quiet)
  | mark kind => exact hl.1 kind rfl
  | number n =>
    cases hv : n.value? with
    | none =>
      simp only [Session.token, hv]
      exact (by decide : TokenKind.endOfStatement.Quiet)
    | some v =>
      simp only [Session.token, hv]
      exact (by decide : TokenKind.number.Quiet)
  | name chars =>
    have hentry := SymbolTable.entry_of_indexOf? (s.table.indexOf?_intern (String.ofList chars))
    have hkind : (s.token (.name chars)).1.kind = .ofArity?
        ((s.table.intern (String.ofList chars)).2.binding (String.ofList chars)).arity? := by
      simp only [Session.token, Session.intern, SymbolTable.get, hentry]
      rfl
    rw [hkind]
    generalize (s.table.intern (String.ofList chars)).2.binding (String.ofList chars) = binding at *
    -- only `rand` takes no arguments, and the lexeme is another name
    have hrand : binding.arity? ≠ some 0 := by
      intro harity
      refine hl.2 (congrArg some ?_)
      unfold SymbolTable.entry at hentry
      split at hentry
      · next e he =>
        cases hentry
        exact (h.intern _).eq_rand (Array.mem_of_getElem? he) harity
      · cases hentry
    unfold TokenKind.ofArity?
    split
    · decide
    · next harity => exact absurd harity hrand
    · decide
    · decide

/-! ## Evaluations -/

namespace Evaluation

/-- A quiet text is left to read. -/
structure Quiet (e : Evaluation α) : Prop where
  text : ∃ cs, e.Holds .nothing cs ∧ EachLexeme Lexeme.Quiet cs
  table : e.session.table.Reachable
  current : e.current.kind.Quiet

variable {e : Evaluation α}

theorem Quiet.ready (h : e.Quiet) : e.Ready := by
  obtain ⟨cs, hcs, -⟩ := h.text
  exact hcs.ready

/-- Behind a quiet token comes a quiet one, or the end. -/
theorem Quiet.advance (h : e.Quiet) : e.advance.Quiet := by
  -- the table is only read into, and the lexemes left are some of the text's
  have htable := table_reads e.reads_advance h.table
  obtain ⟨cs, hcs, heach⟩ := h.text
  cases hl : Lexeme.next? cs with
  | some r =>
    obtain ⟨l, rest⟩ := r
    obtain ⟨hquiet, heach⟩ := heach.of_some hl
    obtain ⟨hcurrent, -, hrest, -⟩ := hcs.advance_of_some hl
    refine ⟨⟨rest, hrest, heach⟩, htable, ?_⟩
    rw [hcurrent]
    exact Session.quiet_token (e.eq_of_reading.1 ▸ h.table) hquiet
  | none =>
    obtain ⟨hcurrent, -, hrest, -⟩ := hcs.advance_of_none LineSource.drained_nothing hl
    refine ⟨⟨[], hrest, eachLexeme_nil _⟩, htable, ?_⟩
    rw [hcurrent]
    exact (by decide : TokenKind.finish.Quiet)

theorem Quiet.toStatement (h : e.Quiet) : e.toStatement.Quiet := by
  fun_induction Evaluation.toStatement e with
  | case1 e _ ih => exact ih h.advance
  | case2 e _ => exact h.advance

theorem Quiet.skip (h : e.Quiet) : e.skip.Quiet := by
  fun_induction Evaluation.skip e with
  | case1 => exact h
  | case2 e _ ih => exact ih h.advance

/-- The tokens of the statement are quiet. -/
theorem Quiet.quiet_upcoming (h : e.Quiet) : ∀ c ∈ e.upcoming, c.1.Quiet := by
  fun_induction Evaluation.upcoming e with
  | case1 e _ => exact fun c hc => absurd hc List.not_mem_nil
  | case2 e _ ih =>
    intro c hc
    rcases List.mem_cons.1 hc with rfl | hc
    · exact h.current
    · exact ih h.advance c hc

end Evaluation

/-! ## Trees -/

namespace Memory

/-- The bindings and the random numbers are as they were. -/
structure Keeps (m m' : Memory α) : Prop where
  table : m'.table = m.table
  draws : m'.draws = m.draws

variable {m m' m'' : Memory α}

omit [Arithmetic α] in
theorem Keeps.refl (m : Memory α) : m.Keeps m := ⟨rfl, rfl⟩

omit [Arithmetic α] in
theorem Keeps.trans (h : m.Keeps m') (h' : m'.Keeps m'') : m.Keeps m'' :=
  ⟨h'.table.trans h.table, h'.draws.trans h.draws⟩

/-- An error of a checked function is only reported. -/
theorem keeps_checked (result : Except MathError α) (m : Memory α) :
    m.Keeps (m.checked result).2 := by
  cases result <;> exact ⟨rfl, rfl⟩

/-- An operator only computes, and may report an error. -/
theorem keeps_operate (op : Operator) (x y : α) (m : Memory α) :
    m.Keeps (m.operate op x y).2 := by
  unfold operate
  split
  · exact .refl m
  · exact .refl m
  · exact .refl m
  · split <;> exact ⟨rfl, rfl⟩
  · split <;> exact ⟨rfl, rfl⟩

/-- Reading a variable changes none. -/
theorem keeps_read (index : Nat) (m : Memory α) : m.Keeps (m.read index).2 := by
  unfold read
  split <;> exact ⟨rfl, rfl⟩

/-- A function with arguments draws no random number. -/
theorem keeps_apply (index : Nat) {arguments : List α} (hne : arguments ≠ []) (m : Memory α) :
    m.Keeps (m.apply index arguments).2 := by
  unfold apply
  split
  · exact ⟨rfl, rfl⟩
  · next binding _ =>
    split
    -- only the function without arguments takes a draw
    · next result draws hcall =>
      have hdraws : draws = m.draws := by
        unfold Binding.call? BuiltIn.call? at hcall
        split at hcall
        · split at hcall
          · exact absurd rfl hne
          · cases hcall; rfl
          · cases hcall; rfl
          · cases hcall
        · cases hcall
      subst hdraws
      exact keeps_checked result m
    · exact ⟨rfl, rfl⟩

/-- An argument list that is not closed is only reported. -/
theorem keeps_finishCall (closed : Bool) (index : Nat) {arguments : List α}
    (hne : arguments ≠ []) (m : Memory α) : m.Keeps (m.finishCall closed index arguments).2 := by
  cases closed with
  | true => exact keeps_apply index hne m
  | false => exact ⟨rfl, rfl⟩

end Memory

open Memory

/-- Evaluating a tree of quiet tokens leaves the table and the random numbers as they are. -/
theorem Tree.keeps_evaluate {l : Level} (t : Tree α l) (h : ∀ c ∈ t.yield, c.1.Quiet)
    (m : Memory α) : m.Keeps (t.evaluate m).2 := by
  -- the trees that assign or draw have a token in their yield that is not quiet
  induction t generalizing m with
  | term t ih => exact ih h m
  | factor f ih => exact ih h m
  | power p ih => exact ih h m
  | primary p ih => exact ih h m
  | sum left op hop right ihl ihr =>
    simp only [yield, List.mem_append, List.mem_cons] at h
    exact ((ihl (fun c hc => h c (Or.inl hc)) m).trans
      (ihr (fun c hc => h c (Or.inr (Or.inr hc))) _)).trans (keeps_operate op _ _ _)
  | product left op hop right ihl ihr =>
    simp only [yield, List.mem_append, List.mem_cons] at h
    exact ((ihl (fun c hc => h c (Or.inl hc)) m).trans
      (ihr (fun c hc => h c (Or.inr (Or.inr hc))) _)).trans (keeps_operate op _ _ _)
  | raise base exponent ihb ihx =>
    simp only [yield, List.mem_append, List.mem_cons] at h
    exact ((ihb (fun c hc => h c (Or.inl hc)) m).trans
      (ihx (fun c hc => h c (Or.inr (Or.inr hc))) _)).trans (keeps_checked _ _)
  | sign negative operand ih => exact ih (fun c hc => h c (List.mem_cons_of_mem _ hc)) m
  | number value => exact .refl m
  | name index => exact keeps_read index m
  | assign kind hkind index right _ =>
    exact absurd rfl (h (.mark .equals) (List.mem_cons_of_mem _ List.mem_cons_self)).1
  | paren inner closed ih =>
    simp only [yield, List.mem_append, List.mem_cons] at h
    have hinner := ih (fun c hc => h c (Or.inr (Or.inl hc))) m
    cases closed with
    | true => exact hinner
    | false => exact hinner.trans ⟨rfl, rfl⟩
  | nullary index closed => exact absurd rfl (h (.nullary, .symbol index) List.mem_cons_self).2
  | unary index x closed ih =>
    simp only [yield, List.mem_append, List.mem_cons] at h
    exact (ih (fun c hc => h c (Or.inr (Or.inr (Or.inl hc)))) m).trans
      (keeps_finishCall closed index (List.cons_ne_nil _ _) _)
  | binary index x y closed ihx ihy =>
    simp only [yield, List.mem_append, List.mem_cons] at h
    exact ((ihx (fun c hc => h c (Or.inr (Or.inr (Or.inl hc)))) m).trans
      (ihy (fun c hc => h c (Or.inr (Or.inr (Or.inr (Or.inr (Or.inl hc)))))) _)).trans
      (keeps_finishCall closed index (List.cons_ne_nil _ _) _)
  | halfBinary index x ih =>
    simp only [yield, List.mem_cons] at h
    exact (ih (fun c hc => h c (Or.inr (Or.inr hc))) m).trans ⟨rfl, rfl⟩
  | function kind hkind index => exact ⟨rfl, rfl⟩
  | missing => exact ⟨rfl, rfl⟩

omit [Arithmetic α] in
/-- The tree of a sentence has its tokens. -/
theorem Sentence.yield_tree (t : Sentence α) : t.tree.yield = t.yield := by
  cases t <;> rfl

/-! ## Statements -/

/-- All names but the last result keep their bindings, and no random number was drawn. -/
structure Session.Keeps (s s' : Session α) : Prop where
  binding : ∀ name, name ≠ SymbolTable.last → s'.table.binding name = s.table.binding name
  draws : s'.draws = s.draws

omit [Arithmetic α] in
theorem Session.Keeps.trans {s s' s'' : Session α} (h : s.Keeps s') (h' : s'.Keeps s'') :
    s.Keeps s'' :=
  ⟨fun name hname => (h'.binding name hname).trans (h.binding name hname),
    h'.draws.trans h.draws⟩

namespace Evaluation

variable {e : Evaluation α}

omit [Arithmetic α] in
/-- Reading leaves all bindings as they are. -/
theorem binding_reads {m m' : Memory α} (h : m.Reads m') (name : String) :
    m'.table.binding name = m.table.binding name := by
  obtain ⟨names, hnames⟩ := h.table
  rw [hnames]
  clear hnames
  generalize m.table = t
  induction names generalizing t with
  | nil => rfl
  | cons other names ih =>
    rw [List.foldl_cons, ih, SymbolTable.binding_intern]

omit [Arithmetic α] in
theorem keeps_of_reads {e e' : Evaluation α} (h : e.memory.Reads e'.memory) :
    e.session.Keeps e'.session :=
  ⟨fun name _ => binding_reads h name, h.draws⟩

/-- The end of a statement reports and skips tokens. -/
theorem keeps_conclude (count : Nat) (e : Evaluation α) :
    e.session.Keeps (e.conclude count).session := by
  unfold conclude
  split
  · exact ⟨fun _ _ => rfl, rfl⟩
  · split
    -- reporting what is left over and passing over it both leave the bindings alone
    · have hreport (problem : Problem) : e.session.Keeps (e.report problem).session :=
        ⟨fun _ _ => rfl, rfl⟩
      exact (hreport _).trans (keeps_of_reads (reads_skip (e.report _)))
    · exact keeps_of_reads (reads_skip e)

/-- Remembering a result binds `last` and no other name. -/
theorem keeps_rememberStatement (statement : Statement α) (ht : e.session.table.Reachable) :
    e.session.Keeps (e.rememberStatement statement).session := by
  cases statement with
  | assignment value => exact ⟨fun _ _ => rfl, rfl⟩
  | expression value =>
    obtain ⟨t, hremember, hbinding⟩ := table_remember ht value
    rw [rememberStatement, hremember]
    exact ⟨fun name hname => (hbinding name).trans (if_neg hname), rfl⟩

/-- The body of a quiet statement leaves the session as it was. -/
theorem Quiet.keeps_body (h : e.Quiet) (hs : e.Settled) : e.session.Keeps e.body.2.session := by
  obtain ⟨t, rest, hup, hfits⟩ := Sentence.exists_fits hs.proper_upcoming
  have hquiet : ∀ c ∈ t.tree.yield, c.1.Quiet := by
    rw [t.yield_tree]
    intro c hc
    exact h.quiet_upcoming c (hup ▸ List.mem_append_left _ hc)
  have hkeeps := t.tree.keeps_evaluate hquiet e.skip.memory
  have hend : e.body.2.skip.memory = (t.tree.evaluate e.skip.memory).2 := by
    rw [t.body_eq_follow hs hup hfits]
    exact congrArg Prod.snd (t.atEnd_follow hs hup hfits)
  rw [← hend] at hkeeps
  -- the body and its tree differ in what was read, and that makes no difference
  have hread := keeps_of_reads (reads_skip e)
  have hread' := keeps_of_reads (reads_skip e.body.2)
  constructor
  · intro name hname
    rw [← hread'.binding name hname, ← hread.binding name hname]
    exact congrArg (SymbolTable.binding · name) hkeeps.table
  · rw [← hread'.draws, ← hread.draws]
    exact hkeeps.draws

/-- A statement of a quiet text keeps the session, and what is left is quiet. -/
theorem Quiet.keeps_statement (h : e.Quiet) :
    e.session.Keeps e.statement.2.session ∧ e.statement.2.Quiet := by
  have hs := h.ready.settled_toStatement
  have hto := keeps_of_reads e.reads_toStatement
  by_cases hk : e.toStatement.current.kind = .finish
  · rw [statement_of_finish hk]
    exact ⟨hto, h.toStatement⟩
  · have hbody := hs.reaches_body.table h.toStatement.table
    have hconclude := table_conclude e.toStatement.session.errorCount hbody
    have hkeeps := ((hto.trans (h.toStatement.keeps_body hs)).trans
      (keeps_conclude e.toStatement.session.errorCount _)).trans
      (keeps_rememberStatement e.toStatement.body.1 hconclude)
    -- the stream is the one behind skipping, whatever the statement does to the session
    have hstream := h.ready.read_statement.1
    obtain ⟨⟨cs, hcs, heach⟩, -, hcurrent⟩ := h.toStatement.skip
    have htable := table_rememberStatement e.toStatement.body.1 hconclude
    refine ⟨?_, ⟨cs, ?_, heach⟩, ?_, ?_⟩
    · rw [statement_of_ne_finish hk]
      exact hkeeps
    · rw [Holds, hstream]
      exact hcs
    · rw [statement_of_ne_finish hk]
      exact htable
    · rw [Evaluation.current, hstream]
      exact hcurrent

/-- The statements of a quiet text leave the session as it was, but for the last result. -/
theorem Quiet.keeps_statements (h : e.Quiet) : e.session.Keeps e.statements.2.session := by
  induction hn : e.pending using Nat.strongRecOn generalizing e with
  | _ n ih =>
    obtain ⟨hkeeps, hquiet⟩ := h.keeps_statement
    cases hs : e.statement.1 with
    | none =>
      rw [statements_of_none hs]
      exact hkeeps
    | some statement =>
      -- by induction on what there is to come, which a statement takes a part of
      have hlt := pending_statement_of_some hs
      rw [statements_of_some hs]
      exact hkeeps.trans (ih _ (by omega) hquiet rfl)

end Evaluation

end DeskCalc
