import DeskCalc.Proofs.Alike
import DeskCalc.Proofs.Names

/-!
# Sessions with the same bindings

Two sessions may have met names in different orders, so that a name has one place in one table and
another place in the other. As long as they agree on what the names of a text are bound to, and the
same random numbers are to come, reading and evaluating the text does the same in both of them.

* `Draws.Same` — the same random numbers are to come.
* `Session.Corresponds` — two sessions that agree on some names. What happens to both of them keeps
  them so (`Corresponds.report`, `Corresponds.intern`, `Corresponds.token`).
* `SymbolTable.Places` — the places of one name in two tables.
* `Evaluation.Corresponds` — two evaluations of one text in sessions that agree on its names. This
  is a simulation (`simulation_corresponds`).
* `Evaluation.Corresponds.statements` — so the statements are the same, and the sessions still agree
  behind them.
-/

namespace DeskCalc

variable {α : Type}

/-! ## Random numbers -/

/-- The same random numbers are to come. -/
def Draws.Same (d d' : Draws α) : Prop := ∀ n, d.draw (d.taken + n) = d'.draw (d'.taken + n)

theorem Draws.Same.refl (d : Draws α) : d.Same d := fun _ => rfl

/-- The next number is the same, and so are those behind it. -/
theorem Draws.Same.next {d d' : Draws α} (h : d.Same d') :
    d.next.1 = d'.next.1 ∧ d.next.2.Same d'.next.2 := by
  refine ⟨h 0, fun n => ?_⟩
  have hshift := h (n + 1)
  simp only [draw_next, taken_next]
  rwa [Nat.add_right_comm, Nat.add_assoc, Nat.add_right_comm d'.taken, Nat.add_assoc]

variable [Arithmetic α]

/-- A function gives the same result, or none, where the same random numbers are to come. -/
theorem Draws.Same.call? {d d' : Draws α} (h : d.Same d') (binding : Binding α)
    (arguments : List α) :
    binding.call? arguments d = none ∧ binding.call? arguments d' = none ∨
      ∃ result r r', binding.call? arguments d = some (result, r) ∧
        binding.call? arguments d' = some (result, r') ∧ r.Same r' := by
  cases binding with
  | undefined => exact Or.inl ⟨rfl, rfl⟩
  | assigned value => exact Or.inl ⟨rfl, rfl⟩
  | constant value => exact Or.inl ⟨rfl, rfl⟩
  -- only the function without arguments draws, and it draws the same number on both sides
  | builtIn f =>
    unfold Binding.call? BuiltIn.call?
    simp only
    split
    · exact Or.inr ⟨_, _, _, rfl, by rw [h.next.1], h.next.2⟩
    · exact Or.inr ⟨_, _, _, rfl, rfl, h⟩
    · exact Or.inr ⟨_, _, _, rfl, rfl, h⟩
    · exact Or.inl ⟨rfl, rfl⟩

/-! ## Sessions -/

/-- The places of a name in two tables. -/
def SymbolTable.Places (names : String → Prop) (t t' : SymbolTable α) (index index' : Nat) : Prop :=
  ∃ name, names name ∧ t.indexOf? name = some index ∧ t'.indexOf? name = some index'

omit [Arithmetic α] in
/-- Places stay what they are while the tables grow. -/
theorem SymbolTable.Places.mono {names : String → Prop} {t t' u u' : SymbolTable α}
    {index index' : Nat} (h : Places names t t' index index') (hfaces : t.faces <+: u.faces)
    (hfaces' : t'.faces <+: u'.faces) : Places names u u' index index' := by
  obtain ⟨name, hname, hindex, hindex'⟩ := h
  exact ⟨name, hname, indexOf?_of_prefix hindex hfaces, indexOf?_of_prefix hindex' hfaces'⟩

/-- Two tokens that are the same, as far as they are names by the places of the name. -/
structure Token.Corresponds (names : String → Prop) (t t' : SymbolTable α)
    (token token' : Token α) : Prop where
  kind : token.kind = token'.kind
  number : token.number? = token'.number?
  symbol : ∀ index index', token.symbol? = some index → token'.symbol? = some index' →
    t.Places names t' index index'

/-- Two sessions that agree on the bindings of the given names. Both had reports to start with, and
since then they have reported the same. -/
structure Session.Corresponds (names : String → Prop) (rs rs' : List Report) (s s' : Session α) :
    Prop where
  reachable : s.table.Reachable
  reachable' : s'.table.Reachable
  binding : ∀ name, names name → s.table.binding name = s'.table.binding name
  draws : s.draws.Same s'.draws
  line : s.log.line = s'.log.line
  reports : ∃ new, s.log.history.toList = rs ++ new ∧ s'.log.history.toList = rs' ++ new

variable {names : String → Prop} {rs rs' : List Report}

namespace Session

variable {s s' : Session α}

theorem Corresponds.report (h : Corresponds names rs rs' s s') (problem : Problem) :
    Corresponds names rs rs' (s.report problem) (s'.report problem) := by
  obtain ⟨new, hnew, hnew'⟩ := h.reports
  refine { h with reports := ⟨new ++ [⟨s.log.line, problem⟩], ?_, ?_⟩ }
  · simp [Session.report, ErrorLog.report, hnew]
  · simp [Session.report, ErrorLog.report, hnew', h.line]

theorem Corresponds.nextLine (h : Corresponds names rs rs' s s') :
    Corresponds names rs rs' s.nextLine s'.nextLine :=
  { h with line := congrArg (· + 1) h.line }

theorem Corresponds.withDraws (h : Corresponds names rs rs' s s') {d d' : Draws α}
    (hd : d.Same d') :
    Corresponds names rs rs' { s with draws := d } { s' with draws := d' } :=
  { h with draws := hd }

/-- The tables may change, as long as they still agree on the names. -/
theorem Corresponds.withTables (h : Corresponds names rs rs' s s') {t t' : SymbolTable α}
    (ht : t.Reachable) (ht' : t'.Reachable)
    (hbinding : ∀ name, names name → t.binding name = t'.binding name) :
    Corresponds names rs rs' { s with table := t } { s' with table := t' } :=
  { h with reachable := ht, reachable' := ht', binding := hbinding }

/-- Giving a name its place leaves all bindings as they are. -/
theorem Corresponds.intern (h : Corresponds names rs rs' s s') (name : String) :
    Corresponds names rs rs' (s.intern name).2 (s'.intern name).2 := by
  refine h.withTables (h.reachable.intern name) (h.reachable'.intern name) fun other hother => ?_
  rw [SymbolTable.binding_intern, SymbolTable.binding_intern, h.binding other hother]

/-- Something was reported on one side if and only if it was on the other. -/
theorem Corresponds.errorCount_eq_iff {r r' : Session α} (h : Corresponds names rs rs' s s')
    (hr : Corresponds names rs rs' r r') :
    r.errorCount = s.errorCount ↔ r'.errorCount = s'.errorCount := by
  -- both have made as many reports since the start
  obtain ⟨new, hs, hs'⟩ := h.reports
  obtain ⟨more, hr, hr'⟩ := hr.reports
  have hlength : ∀ s : Session α, s.errorCount = s.log.history.toList.length :=
    fun s => s.log.count_eq
  simp only [hlength, hs, hs', hr, hr', List.length_append]
  omega

omit [Arithmetic α] in
/-- What is no name is the same token in all tables. -/
theorem corresponds_bare (t t' : SymbolTable α) (kind : TokenKind) (line line' : Nat) :
    Token.Corresponds names t t' (.bare kind line) (.bare kind line') :=
  ⟨rfl, rfl, fun _ _ hindex => by cases hindex⟩

/-- The same lexeme makes the same token, but for the place of a name. -/
theorem Corresponds.token (h : Corresponds names rs rs' s s') (l : Lexeme)
    (hname : ∀ name ∈ l.name?, names name) :
    Token.Corresponds names (s.token l).2.table (s'.token l).2.table (s.token l).1 (s'.token l).1 ∧
      Corresponds names rs rs' (s.token l).2 (s'.token l).2 := by
  cases l with
  | newline => exact ⟨corresponds_bare _ _ _ _ _, h⟩
  | mark kind => exact ⟨corresponds_bare _ _ _ _ _, h⟩
  | stray c => exact ⟨corresponds_bare _ _ _ _ _, h.report _⟩
  | number n =>
    cases hv : n.value? with
    | none =>
      simp only [Session.token, hv]
      exact ⟨corresponds_bare _ _ _ _ _, h.report _⟩
    | some v =>
      simp only [Session.token, hv]
      exact ⟨⟨rfl, rfl, fun _ _ hindex => by cases hindex⟩, h⟩
  -- the places may differ, but both bind the name to the same thing, so the kind is the same
  | name chars =>
    have hnames : names (String.ofList chars) := hname _ rfl
    have hintern := h.intern (String.ofList chars)
    have hindex := s.table.indexOf?_intern (String.ofList chars)
    have hindex' := s'.table.indexOf?_intern (String.ofList chars)
    have hkind : (s.intern (String.ofList chars)).2.table.get (s.intern (String.ofList chars)).1 =
        (s'.intern (String.ofList chars)).2.table.get (s'.intern (String.ofList chars)).1 := by
      refine (SymbolTable.get_of_indexOf? hindex).trans (.trans ?_
        (SymbolTable.get_of_indexOf? hindex').symm)
      exact congrArg Except.ok (hintern.binding _ hnames)
    refine ⟨⟨?_, rfl, ?_⟩, hintern⟩
    · simp only [Session.token, hkind]
    · rintro index index' ⟨⟩ ⟨⟩
      exact ⟨String.ofList chars, hnames, hindex, hindex'⟩

end Session

/-! ## Evaluations -/

/-- All lexemes of the text have the property. -/
def EachLexeme (P : Lexeme → Prop) (cs : List Char) : Prop := ∃ line, ∀ l ∈ lexemes line cs, P l.1

/-- The property holds of the first lexeme, and of those behind it. -/
theorem EachLexeme.of_some {P : Lexeme → Prop} {l : Lexeme} {cs rest : List Char}
    (h : EachLexeme P cs) (hl : Lexeme.next? cs = some (l, rest)) : P l ∧ EachLexeme P rest := by
  obtain ⟨line, hall⟩ := h
  rw [lexemes_of_some hl] at hall
  exact ⟨hall _ List.mem_cons_self, _, fun l' hl' => hall l' (List.mem_cons_of_mem _ hl')⟩

theorem EachLexeme.mono {P Q : Lexeme → Prop} {cs : List Char} (h : EachLexeme P cs)
    (hPQ : ∀ l, P l → Q l) : EachLexeme Q cs := by
  obtain ⟨line, hall⟩ := h
  exact ⟨line, fun l hl => hPQ _ (hall l hl)⟩

theorem eachLexeme_nil (P : Lexeme → Prop) : EachLexeme P [] :=
  ⟨0, fun l hl => by rw [lexemes_of_none rfl] at hl; cases hl⟩

namespace Evaluation

/-- Both evaluations have the same text to read, and its names are among the given ones. -/
def NamedText (names : String → Prop) (e e' : Evaluation α) : Prop :=
  ∃ cs, e.Holds .nothing cs ∧ e'.Holds .nothing cs ∧
    EachLexeme (fun l => ∀ name ∈ l.name?, names name) cs

/-- Two evaluations of one text in sessions that agree on its names. -/
structure Corresponds (names : String → Prop) (rs rs' : List Report) (e e' : Evaluation α) :
    Prop where
  settled : e.Settled
  settled' : e'.Settled
  session : e.session.Corresponds names rs rs' e'.session
  token : e.current.Corresponds names e.session.table e'.session.table e'.current
  pending : e.stream.newlinePending = e'.stream.newlinePending
  text : NamedText names e e'

variable {e e' : Evaluation α}

/-- The sessions may change in the same way, as long as names keep their places. -/
theorem Corresponds.act (h : Corresponds names rs rs' e e') {s s' : Session α}
    (hs : s.Corresponds names rs rs' s') (hfaces : e.session.table.faces <+: s.table.faces)
    (hfaces' : e'.session.table.faces <+: s'.table.faces) :
    Corresponds names rs rs' { e with session := s } { e' with session := s' } where
  settled := h.settled.act hfaces
  settled' := h.settled'.act hfaces'
  session := hs
  -- places that go with each other still do where the tables have only grown
  token := ⟨h.token.kind, h.token.number, fun index index' hindex hindex' =>
    (h.token.symbol index index' hindex hindex').mono hfaces hfaces'⟩
  pending := h.pending
  text := h.text

theorem Corresponds.report (h : Corresponds names rs rs' e e') (problem : Problem) :
    Corresponds names rs rs' (e.report problem) (e'.report problem) :=
  h.act (h.session.report problem) List.prefix_rfl List.prefix_rfl

theorem Corresponds.fail (h : Corresponds names rs rs' e e') (problem : Problem) :
    Agree (Corresponds names rs rs') (e.fail problem) (e'.fail problem) :=
  ⟨rfl, h.report problem⟩

/-- The sessions agree also when the pending line break has been counted. -/
theorem Corresponds.reading (h : Corresponds names rs rs' e e') :
    e.reading.Corresponds names rs rs' e'.reading := by
  rw [Evaluation.reading, Evaluation.reading, ← h.pending]
  split
  · exact h.session.nextLine
  · exact h.session

/-- The next token of the text is the same, but for the place of a name. -/
theorem Corresponds.advance (h : Corresponds names rs rs' e e') :
    Corresponds names rs rs' e.advance e'.advance := by
  obtain ⟨cs, hcs, hcs', heach⟩ := h.text
  have hs : e.advance.Settled := Ready.settled_advance hcs.ready
  have hs' : e'.advance.Settled := Ready.settled_advance hcs'.ready
  -- the text is the same, so both read the same lexeme or both have come to the end
  cases hl : Lexeme.next? cs with
  | some r =>
    obtain ⟨l, rest⟩ := r
    obtain ⟨hname, heach⟩ := heach.of_some hl
    obtain ⟨htoken, hsession⟩ := h.reading.token l hname
    obtain ⟨hcurrent, hafter, hrest, hpending⟩ := hcs.advance_of_some hl
    obtain ⟨hcurrent', hafter', hrest', hpending'⟩ := hcs'.advance_of_some hl
    refine ⟨hs, hs', ?_, ?_, hpending.trans hpending'.symm, rest, hrest, hrest', heach⟩
    · rwa [hafter, hafter']
    · rwa [hcurrent, hcurrent', hafter, hafter']
  | none =>
    have hdrained := LineSource.drained_nothing
    obtain ⟨hcurrent, hafter, hrest, hpending⟩ := hcs.advance_of_none hdrained hl
    obtain ⟨hcurrent', hafter', hrest', hpending'⟩ := hcs'.advance_of_none hdrained hl
    refine ⟨hs, hs', ?_, ?_, hpending.trans hpending'.symm, [], hrest, hrest', eachLexeme_nil _⟩
    · rw [hafter, hafter']
      exact h.reading
    · rw [hcurrent, hcurrent']
      exact Session.corresponds_bare _ _ _ _ _

/-! ### Names by their places -/

variable {index index' : Nat}

/-- A variable has the same value at both places of its name. -/
theorem Corresponds.read (h : Corresponds names rs rs' e e')
    (hplaces : e.session.table.Places names e'.session.table index index') :
    Agree (Corresponds names rs rs') (e.read index) (e'.read index') := by
  obtain ⟨name, hname, hindex, hindex'⟩ := hplaces
  unfold Evaluation.read
  rw [SymbolTable.entry_of_indexOf? hindex, SymbolTable.entry_of_indexOf? hindex',
    ← h.session.binding name hname]
  -- the name is bound to the same thing at both places
  cases e.session.table.binding name with
  | undefined => exact h.fail _
  | assigned value => exact ⟨rfl, h⟩
  | constant value => exact ⟨rfl, h⟩
  | builtIn f => exact h.fail _

/-- An assignment to one name succeeds on both sides or on neither. -/
theorem Corresponds.assign (h : Corresponds names rs rs' e e')
    (hplaces : e.session.table.Places names e'.session.table index index') (value : α) :
    Agree (Corresponds names rs rs') (e.assign index value) (e'.assign index' value) := by
  obtain ⟨name, hname, hindex, hindex'⟩ := hplaces
  have hsame := h.session.binding name hname
  unfold Evaluation.assign Session.assign
  -- the name can be assigned in both tables or in none
  rcases SymbolTable.assign_of_indexOf? hindex value with ⟨hmut, t, ht⟩ | ⟨hmut, ht⟩
  · rcases SymbolTable.assign_of_indexOf? hindex' value with ⟨-, t', ht'⟩ | ⟨hmut', -⟩
    · rw [ht, ht']
      refine ⟨rfl, h.act (h.session.withTables (h.session.reachable.assign ht)
        (h.session.reachable'.assign ht') fun other hother => ?_) ?_ ?_⟩
      · rw [SymbolTable.binding_assign hindex ht, SymbolTable.binding_assign hindex' ht',
          h.session.binding other hother]
      · exact SymbolTable.faces_assign ht ▸ List.prefix_rfl
      · exact SymbolTable.faces_assign ht' ▸ List.prefix_rfl
    · rw [← hsame, hmut] at hmut'
      cases hmut'
  · rcases SymbolTable.assign_of_indexOf? hindex' value with ⟨hmut', -⟩ | ⟨-, ht'⟩
    · rw [← hsame, hmut] at hmut'
      cases hmut'
    · rw [ht, ht']
      exact h.fail _

/-- A call at both places of one name has the same result. -/
theorem Corresponds.apply (h : Corresponds names rs rs' e e')
    (hplaces : e.session.table.Places names e'.session.table index index') (arguments : List α) :
    Agree (Corresponds names rs rs') (e.apply index arguments) (e'.apply index' arguments) := by
  obtain ⟨name, hname, hindex, hindex'⟩ := hplaces
  unfold Evaluation.apply
  rw [SymbolTable.get_of_indexOf? hindex, SymbolTable.get_of_indexOf? hindex',
    ← h.session.binding name hname]
  simp only
  -- both call the same function, or neither has one to call
  rcases h.session.draws.call? (e.session.table.binding name) arguments with
    ⟨hnone, hnone'⟩ | ⟨result, r, r', hsome, hsome', hr⟩
  · rw [hnone, hnone']
    exact h.fail _
  · rw [hsome, hsome']
    have hdraws := h.act (h.session.withDraws hr) List.prefix_rfl List.prefix_rfl
    cases result with
    | ok value => exact ⟨rfl, hdraws⟩
    | error error => exact hdraws.fail _

/-- The last result becomes the same on both sides. -/
theorem Corresponds.remember (h : Corresponds names rs rs' e e') (value : α) :
    Corresponds names rs rs' (e.remember value) (e'.remember value) := by
  obtain ⟨t, ht, hbinding⟩ := table_remember h.session.reachable value
  obtain ⟨t', ht', hbinding'⟩ := table_remember h.session.reachable' value
  have hfaces : ∀ e : Evaluation α,
      e.session.table.faces <+: (e.remember value).session.table.faces := fun e =>
    (Session.faces_intern SymbolTable.last e.session).trans
      (reaches_assign (e.session.intern SymbolTable.last).1 value
        { e with session := (e.session.intern SymbolTable.last).2 }).faces
  have hreachable : ∀ e : Evaluation α, e.session.table.Reachable →
      (e.remember value).session.table.Reachable := fun e he =>
    table_rememberStatement (.expression value) he
  have hf := hfaces e
  have hf' := hfaces e'
  have hr := hreachable e h.session.reachable
  have hr' := hreachable e' h.session.reachable'
  rw [ht] at hf hr ⊢
  rw [ht'] at hf' hr' ⊢
  -- `last` may be none of the names, so that only the names agreed upon are compared
  refine h.act (h.session.withTables hr hr' fun name hname => ?_) hf hf'
  rw [hbinding, hbinding', h.session.binding name hname]

/-- Evaluating one text in sessions that agree on its names is a simulation. -/
theorem simulation_corresponds (names : String → Prop) (rs rs' : List Report) :
    Simulation (α := α) (fun e e' => e.session.table.Places names e'.session.table)
      (Corresponds names rs rs') where
  -- each field is what the productions may do, and has its lemma above
  settled h := ⟨h.settled, h.settled'⟩
  kind h := Or.inl h.token.kind
  number h := h.token.number
  symbol h := h.token.symbol _ _
  places h := h.mono
  advance h _ := h.advance
  report problem h := h.report problem
  read hplaces h := h.read hplaces
  assign value hplaces h := h.assign hplaces value
  apply arguments hplaces h := h.apply hplaces arguments
  remember value h := h.remember value
  errorCount h h' := h.session.errorCount_eq_iff h'.session

/-! ### Statements -/

/-- Ends of statements are skipped on both sides. -/
theorem Corresponds.toStatement (h : Corresponds names rs rs' e e') :
    Corresponds names rs rs' e.toStatement e'.toStatement := by
  -- the induction follows the first evaluation; the second one sees tokens of the same kinds
  fun_induction Evaluation.toStatement e generalizing e' with
  | case1 e hk ih =>
    rw [toStatement_of_endOfStatement (h.advance.token.kind.symm.trans hk)]
    exact ih h.advance
  | case2 e hk =>
    rw [toStatement_of_ne (by rwa [← h.advance.token.kind])]
    exact h.advance

/-- More names may be considered, where the sessions agree on them. -/
theorem Corresponds.widen {more : String → Prop} (h : Corresponds names rs rs' e e')
    (hmore : ∀ name, names name → more name)
    (hbinding : ∀ name, more name →
      e.session.table.binding name = e'.session.table.binding name) :
    Corresponds more rs rs' e e' where
  settled := h.settled
  settled' := h.settled'
  -- the tokens and the text name what they named before
  session := { h.session with binding := hbinding }
  token := ⟨h.token.kind, h.token.number, fun index index' hindex hindex' => by
    obtain ⟨name, hname, hplaces⟩ := h.token.symbol index index' hindex hindex'
    exact ⟨name, hmore name hname, hplaces⟩⟩
  pending := h.pending
  text := by
    obtain ⟨cs, hcs, hcs', heach⟩ := h.text
    exact ⟨cs, hcs, hcs', heach.mono fun l hl name hname => hmore name (hl name hname)⟩

/-- Behind an expression the sessions agree on the last result, too. -/
theorem Corresponds.statement_expression (h : Corresponds names rs rs' e e') {value : α}
    (hs : e.statement.1 = some (.expression value)) :
    e'.statement.1 = some (.expression value) ∧
      Corresponds (fun name => names name ∨ name = SymbolTable.last) rs rs'
        e.statement.2 e'.statement.2 := by
  obtain ⟨hne, -⟩ := eq_body_of_statement hs
  obtain ⟨hsame, hend⟩ := (simulation_corresponds names rs rs').statement h.toStatement hne
  have hs' : e'.statement.1 = some (.expression value) := hsame ▸ hs
  refine ⟨hs', hend.widen (fun name => Or.inl) ?_⟩
  -- both have just bound `last` to the value of the expression
  rintro name (hname | rfl)
  · exact hend.session.binding name hname
  · rw [h.settled.ready.binding_last h.session.reachable hs,
      h.settled'.ready.binding_last h.session.reachable' hs']

/-- All statements of the text are the same, and the sessions agree behind them, also on the last
result if some statement is an expression. By induction on how much there is to come. -/
theorem Corresponds.statements (h : Corresponds names rs rs' e e') :
    e.statements.1 = e'.statements.1 ∧
      e.statements.2.session.Corresponds names rs rs' e'.statements.2.session ∧
      ((∃ value, .expression value ∈ e.statements.1) →
        e.statements.2.session.table.binding SymbolTable.last =
          e'.statements.2.session.table.binding SymbolTable.last) := by
  induction hn : e.pending using Nat.strongRecOn generalizing e e' names with
  | _ n ih =>
    have hto := h.toStatement
    by_cases hk : e.toStatement.current.kind = .finish
    · rw [statements_of_finish hk, statements_of_finish (hto.token.kind.symm.trans hk)]
      exact ⟨rfl, hto.session, fun ⟨value, hvalue⟩ => by cases hvalue⟩
    · have hs : e.statement.1 = some e.toStatement.body.1 := by rw [statement_of_ne_finish hk]
      -- a statement takes part of what there is to come, so the induction applies behind it
      have hlt := pending_statement_of_some hs
      cases hbody : e.toStatement.body.1 with
      | assignment value =>
        rw [hbody] at hs
        obtain ⟨hsame, hend⟩ := (simulation_corresponds names rs rs').statement hto hk
        have hs' : e'.statement.1 = some (.assignment value) := hsame ▸ hs
        obtain ⟨hrest, hsession, hlast⟩ := ih _ (by omega) hend rfl
        rw [statements_of_some hs, statements_of_some hs']
        refine ⟨congrArg (_ :: ·) hrest, hsession, fun ⟨value, hvalue⟩ => hlast ⟨value, ?_⟩⟩
        exact (List.mem_cons.1 hvalue).resolve_left (by simp)
      | expression value =>
        -- from here on the last result is among the names that the sessions agree on
        rw [hbody] at hs
        obtain ⟨hs', hend⟩ := h.statement_expression hs
        obtain ⟨hrest, hsession, -⟩ := ih _ (by omega) hend rfl
        rw [statements_of_some hs, statements_of_some hs']
        exact ⟨congrArg (_ :: ·) hrest,
          { hsession with binding := fun name hname => hsession.binding name (Or.inl hname) },
          fun _ => hsession.binding _ (Or.inr rfl)⟩

end Evaluation

end DeskCalc
