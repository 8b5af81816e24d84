import DeskCalc.Proofs.Boundaries

/-!
# Two evaluations side by side

Evaluations that look alike go on alike. What it takes to look alike is up to the relation at hand:
the sources may differ behind the statement, the logs in what they hold already, the tables in the
places that they give to names. This module has the part that all such comparisons share.

* `Simulation` — a relation that every elementary move keeps.
* `Simulation.produce` — then the productions keep it too, and find the same values. This is by
  induction on how much there is to come, with one lemma for each production.
* `Simulation.statement` — and so does a statement from its first token to its end.
-/

namespace DeskCalc

variable {α : Type} [Arithmetic α]

namespace Evaluation

/-- Reading an operand behind the current token makes places for names, but moves none. -/
theorem faces_operand (e : Evaluation α) :
    e.session.table.faces <+: e.advance.expression.2.session.table.faces :=
  (faces_advance e).trans (reaches_expression e.advance).faces

/-- Two outcomes with the same value, and with evaluations that are related. -/
def Agree (R : Evaluation α → Evaluation α → Prop) (r r' : α × Evaluation α) : Prop :=
  r.1 = r'.1 ∧ R r.2 r'.2

end Evaluation

open Evaluation

/-- A relation between evaluations that elementary moves keep, within a statement. `S` relates the
places that the two tables have for the same name; names keep their places. -/
structure Simulation (S : Evaluation α → Evaluation α → Nat → Nat → Prop)
    (R : Evaluation α → Evaluation α → Prop) : Prop where
  settled {e e' : Evaluation α} : R e e' → e.Settled ∧ e'.Settled
  /-- Statements end together, but need not end in the same way. -/
  kind {e e' : Evaluation α} : R e e' → e.current.kind = e'.current.kind ∨
    e.current.kind.endsStatement = true ∧ e'.current.kind.endsStatement = true
  number {e e' : Evaluation α} : R e e' → e.current.number? = e'.current.number?
  symbol {e e' : Evaluation α} {index index' : Nat} : R e e' →
    e.current.symbol? = some index → e'.current.symbol? = some index' → S e e' index index'
  places {e e' f f' : Evaluation α} {index index' : Nat} : S e e' index index' →
    e.session.table.faces <+: f.session.table.faces →
    e'.session.table.faces <+: f'.session.table.faces → S f f' index index'
  advance {e e' : Evaluation α} : R e e' → e.current.kind.endsStatement = false →
    R e.advance e'.advance
  report {e e' : Evaluation α} (problem : Problem) : R e e' →
    R (e.report problem) (e'.report problem)
  read {e e' : Evaluation α} {index index' : Nat} : S e e' index index' → R e e' →
    Agree R (e.read index) (e'.read index')
  assign {e e' : Evaluation α} {index index' : Nat} (value : α) : S e e' index index' → R e e' →
    Agree R (e.assign index value) (e'.assign index' value)
  apply {e e' : Evaluation α} {index index' : Nat} (arguments : List α) : S e e' index index' →
    R e e' → Agree R (e.apply index arguments) (e'.apply index' arguments)
  remember {e e' : Evaluation α} (value : α) : R e e' → R (e.remember value) (e'.remember value)
  /-- Between two states, both report something or none of them does. -/
  errorCount {e e' f f' : Evaluation α} : R e e' → R f f' →
    (f.session.errorCount = e.session.errorCount ↔ f'.session.errorCount = e'.session.errorCount)

namespace Simulation

variable {S : Evaluation α → Evaluation α → Nat → Nat → Prop}
  {R : Evaluation α → Evaluation α → Prop} {e e' : Evaluation α}

/-! ## Elementary operations -/

/-- The kinds of the current tokens are the same, as far as the ends of statements are all alike. -/
theorem kind_congr (h : Simulation S R) (hR : R e e') {β : Type} (f : TokenKind → β)
    (hf : f .finish = f .endOfStatement) : f e.current.kind = f e'.current.kind := by
  rcases h.kind hR with hk | ⟨hk, hk'⟩
  · rw [hk]
  -- there are two kinds of ends, and `f` does not tell them apart
  · have hend : ∀ kind : TokenKind, kind.endsStatement = true → f kind = f .endOfStatement := by
      intro kind hkind
      cases kind <;> simp_all [TokenKind.endsStatement]
    rw [hend _ hk, hend _ hk']

theorem endsStatement (h : Simulation S R) (hR : R e e') :
    e.current.kind.endsStatement = e'.current.kind.endsStatement :=
  h.kind_congr hR TokenKind.endsStatement rfl

/-- Within a statement, the kinds are the same. -/
theorem kind_of_goes_on (h : Simulation S R) (hR : R e e')
    (hk : e.current.kind.endsStatement = false) : e'.current.kind = e.current.kind := by
  rcases h.kind hR with hkind | ⟨hend, -⟩
  · exact hkind.symm
  · rw [hk] at hend
    cases hend

/-- A kind that ends no statement is there in both or in none. -/
theorem kind_eq_iff (h : Simulation S R) (hR : R e e') {kind : TokenKind}
    (hk : kind.endsStatement = false) : e.current.kind = kind ↔ e'.current.kind = kind := by
  have hdecide := h.kind_congr hR (fun k => decide (k = kind)) (by
    cases kind <;> simp_all [TokenKind.endsStatement])
  simpa using hdecide

theorem fail (h : Simulation S R) (problem : Problem) (hR : R e e') :
    Agree R (e.fail problem) (e'.fail problem) :=
  ⟨rfl, h.report problem hR⟩

/-- The result is given, so both succeed or both fail. -/
theorem checked (h : Simulation S R) (result : Except MathError α) (hR : R e e') :
    Agree R (e.checked result) (e'.checked result) := by
  cases result with
  | ok value => exact ⟨rfl, hR⟩
  | error error => exact h.fail _ hR

/-- The operands are given, so both divide by zero or none does. -/
theorem operate (h : Simulation S R) (op : Operator) (left right : α) (hR : R e e') :
    Agree R (e.operate op left right) (e'.operate op left right) := by
  unfold Evaluation.operate
  -- by the operator; a zero divisor is the only thing that fails
  split
  · exact ⟨rfl, hR⟩
  · exact ⟨rfl, hR⟩
  · exact ⟨rfl, hR⟩
  · split
    · exact h.fail _ hR
    · exact ⟨rfl, hR⟩
  · split
    · exact h.fail _ hR
    · exact ⟨rfl, hR⟩

/-- The parenthesis is there in both, or it is missed in both. -/
theorem close (h : Simulation S R) (hR : R e e') : R e.close e'.close := by
  have hiff : e.current.kind = .rightParen ↔ e'.current.kind = .rightParen := h.kind_eq_iff hR rfl
  unfold Evaluation.close
  by_cases hk : e.current.kind = .rightParen
  · rw [if_pos hk, if_pos (hiff.1 hk)]
    exact h.advance hR (by rw [hk]; rfl)
  · rw [if_neg hk, if_neg fun hk' => hk (hiff.2 hk')]
    exact h.report _ hR

/-- A call ends in the same way in both, of functions that have the same name. -/
theorem finishCall (h : Simulation S R) {index index' : Nat} (hS : S e e' index index')
    (arguments : List α) (hR : R e e') :
    Agree R (e.finishCall index arguments) (e'.finishCall index' arguments) := by
  have hiff : e.current.kind = .rightParen ↔ e'.current.kind = .rightParen := h.kind_eq_iff hR rfl
  unfold Evaluation.finishCall
  -- both see the closing parenthesis or neither does
  by_cases hk : e.current.kind = .rightParen
  · rw [if_pos hk, if_pos (hiff.1 hk)]
    exact h.apply arguments (h.places hS (faces_advance e) (faces_advance e'))
      (h.advance hR (by rw [hk]; rfl))
  · rw [if_neg hk, if_neg fun hk' => hk (hiff.2 hk')]
    exact h.fail _ hR

/-! ## Productions -/

/-- The productions agree on evaluations with less than the given amount to come. -/
def Below (R : Evaluation α → Evaluation α → Prop) (n : Nat) : Prop :=
  ∀ {e e' : Evaluation α}, R e e' → e.ahead < n → ∀ l, Agree R (e.produce l) (e'.produce l)

/-- With less to come there is less to agree on. -/
theorem Below.mono {n m : Nat} (h : Below R n) (hle : m ≤ n) : Below R m :=
  fun hR hlt => h hR (Nat.lt_of_lt_of_le hlt hle)

/-- An assignment reads its right side behind the sign, where less is to come. -/
theorem assignment (h : Simulation S R) (hbelow : Below R e.ahead) (hR : R e e')
    {index index' : Nat} (hS : S e e' index index') (hk : e.current.kind = .equals) :
    Agree R (e.assignment index) (e'.assignment index') := by
  have hmove : e.current.kind.endsStatement = false := by rw [hk]; rfl
  -- the right side stands behind the equals sign, so less is to come there
  obtain ⟨hvalue, hright⟩ := hbelow (h.advance hR hmove) (ahead_advance_lt hmove) .expression
  have hvalue : e.advance.expression.1 = e'.advance.expression.1 := hvalue
  unfold Evaluation.assignment
  rw [hvalue]
  exact h.assign _ (h.places hS (faces_operand e) (faces_operand e')) hright

/-- A function with two arguments, of which the comma between them may be missing. -/
theorem call_binary (h : Simulation S R) (hbelow : Below R e.ahead) (hR : R e e')
    {index index' : Nat} (hS : S e e' index index') (hk : e.current.kind = .leftParen) :
    Agree R (e.call .binary index) (e'.call .binary index') := by
  have hmove : e.current.kind.endsStatement = false := by rw [hk]; rfl
  have hk' : e'.current.kind = .leftParen := (h.kind_eq_iff hR rfl).1 hk
  have hlt := ahead_advance_lt hmove
  obtain ⟨hx, hcomma⟩ := hbelow (h.advance hR hmove) hlt .expression
  have hx : e.advance.expression.1 = e'.advance.expression.1 := hx
  have hcomma : R e.advance.expression.2 e'.advance.expression.2 := hcomma
  have hle := (reaches_expression e.advance).ahead_le
  rw [Evaluation.call_binary index hk, Evaluation.call_binary index' hk']
  simp only
  -- the comma is there in both, or in none
  by_cases hc : e.advance.expression.2.current.kind = .comma
  · have hmove' : e.advance.expression.2.current.kind.endsStatement = false := by rw [hc]; rfl
    have hlt' := ahead_advance_lt hmove'
    obtain ⟨hy, hclose⟩ := hbelow (h.advance hcomma hmove') (by omega) .expression
    have hy : e.advance.expression.2.advance.expression.1 =
        e'.advance.expression.2.advance.expression.1 := hy
    rw [if_pos hc, if_pos ((h.kind_eq_iff hcomma rfl).1 hc), hx, hy]
    exact h.finishCall (h.places hS ((faces_operand e).trans (faces_operand _))
      ((faces_operand e').trans (faces_operand _))) _ hclose
  · rw [if_neg hc, if_neg fun hc' => hc ((h.kind_eq_iff hcomma rfl).2 hc')]
    exact h.fail _ hcomma

/-- A call agrees if its arguments do, which come behind the parenthesis. -/
theorem call (h : Simulation S R) (hbelow : Below R e.ahead) (hR : R e e') {index index' : Nat}
    (hS : S e e' index index') {function : TokenKind} (hf : function.arity?.isSome = true) :
    Agree R (e.call function index) (e'.call function index') := by
  -- assigned to, called, or neither
  by_cases hequals : e.current.kind = .equals
  · rw [call_of_equals function index hequals,
      call_of_equals function index' ((h.kind_eq_iff hR rfl).1 hequals)]
    exact h.assignment hbelow hR hS hequals
  by_cases hparen : e.current.kind = .leftParen
  · have hmove : e.current.kind.endsStatement = false := by rw [hparen]; rfl
    have hparen' : e'.current.kind = .leftParen := (h.kind_eq_iff hR rfl).1 hparen
    cases function with
    | nullary =>
      rw [call_nullary index hparen, call_nullary index' hparen']
      exact h.finishCall (h.places hS (faces_advance e) (faces_advance e')) []
        (h.advance hR hmove)
    | unary =>
      -- the argument is read behind two tokens, so there is less to come
      obtain ⟨hx, hclose⟩ := hbelow (h.advance hR hmove) (ahead_advance_lt hmove) .expression
      have hx : e.advance.expression.1 = e'.advance.expression.1 := hx
      rw [call_unary index hparen, call_unary index' hparen', hx]
      exact h.finishCall (h.places hS (faces_operand e) (faces_operand e')) _ hclose
    | binary => exact h.call_binary hbelow hR hS hparen
    | _ => simp [TokenKind.arity?] at hf
  · rw [call_of_other function index hequals hparen,
      call_of_other function index' (fun hk => hequals ((h.kind_eq_iff hR rfl).2 hk))
        (fun hk => hparen ((h.kind_eq_iff hR rfl).2 hk))]
    exact h.fail _ hR

/-- The names at the current tokens, where there are names. -/
theorem exists_symbols (h : Simulation S R) (hR : R e e') (hname : e.current.kind.isName = true) :
    ∃ index index', e.current.symbol? = some index ∧ e'.current.symbol? = some index' ∧
      S e e' index index' := by
  have hk' := h.kind_of_goes_on hR (TokenKind.endsStatement_eq_false_of_isName hname)
  obtain ⟨hs, hs'⟩ := h.settled hR
  obtain ⟨index, hindex, -⟩ := hs.exists_symbol hname
  obtain ⟨index', hindex', -⟩ := hs'.exists_symbol (by rwa [hk'])
  exact ⟨index, index', hindex, hindex', h.symbol hR hindex hindex'⟩

/-- A primary agrees, whatever it is. What is enclosed in it comes behind its first token. -/
theorem primary (h : Simulation S R) (hbelow : Below R e.ahead) (hR : R e e') :
    Agree R e.primary e'.primary := by
  cases hstart : startsPrimary e.current.kind with
  | false =>
    have hstart' := h.kind_congr hR startsPrimary rfl
    rw [primary_of_other hstart, primary_of_other (by rwa [← hstart'])]
    exact h.fail _ hR
  -- it is a name, a number or a parenthesis, and the same in both
  | true =>
    have hmove : e.current.kind.endsStatement = false := by
      cases hk : e.current.kind <;> rw [hk] at hstart <;>
        first | rfl | simp [startsPrimary, TokenKind.isName, TokenKind.arity?] at hstart
    have hk' : e'.current.kind = e.current.kind := h.kind_of_goes_on hR hmove
    have hlt := ahead_advance_lt hmove
    have hnext := h.advance hR hmove
    -- a name, or else a number or a parenthesis
    cases hname : e.current.kind.isName with
    | true =>
      obtain ⟨index, index', hindex, hindex', hS⟩ := h.exists_symbols hR hname
      have hS := h.places hS (faces_advance e) (faces_advance e')
      cases hfunction : e.current.kind.arity?.isSome with
      | true =>
        rw [primary_of_function hfunction, primary_of_function (by rwa [hk']), hindex, hindex', hk']
        exact h.call (hbelow.mono (by omega)) hnext hS hfunction
      | false =>
        have hk : e.current.kind = .name := by simpa [TokenKind.isName, hfunction] using hname
        rw [primary_of_name hk, primary_of_name (by rwa [hk']), hindex, hindex']
        simp only
        by_cases hequals : e.advance.current.kind = .equals
        · rw [if_pos hequals, if_pos ((h.kind_eq_iff hnext rfl).1 hequals)]
          exact h.assignment (hbelow.mono (by omega)) hnext hS hequals
        · rw [if_neg hequals, if_neg fun hk => hequals ((h.kind_eq_iff hnext rfl).2 hk)]
          exact h.read hS hnext
    | false =>
      by_cases hk : e.current.kind = .number
      · rw [primary_of_number hk, primary_of_number (hk'.trans hk), h.number hR]
        exact ⟨rfl, hnext⟩
      · have hk : e.current.kind = .leftParen := by simpa [startsPrimary, hname, hk] using hstart
        obtain ⟨hvalue, hclose⟩ := hbelow hnext hlt .expression
        rw [primary_of_leftParen hk, primary_of_leftParen (hk'.trans hk)]
        exact ⟨hvalue, h.close hclose⟩

/-- A power agrees: its base by the lemma above, its exponent because it stands behind the sign. -/
theorem power (h : Simulation S R) (hbelow : Below R e.ahead) (hR : R e e') :
    Agree R e.power e'.power := by
  obtain ⟨hbase, hcaret⟩ := h.primary hbelow hR
  have hle := (reaches_primary e).ahead_le
  rw [power_eq, power_eq]
  -- behind a caret less is to come, so the exponent agrees by the hypothesis on what is below
  by_cases hk : e.primary.2.current.kind = .caret
  · have hmove : e.primary.2.current.kind.endsStatement = false := by rw [hk]; rfl
    have hlt := ahead_advance_lt hmove
    obtain ⟨hexponent, hend⟩ := hbelow (h.advance hcaret hmove) (by omega) .factor
    have hexponent : e.primary.2.advance.factor.1 = e'.primary.2.advance.factor.1 := hexponent
    rw [if_pos hk, if_pos ((h.kind_eq_iff hcaret rfl).1 hk), hbase]
    simp only [hexponent]
    exact h.checked _ hend
  · rw [if_neg hk, if_neg fun hk' => hk ((h.kind_eq_iff hcaret rfl).2 hk')]
    exact ⟨hbase, hcaret⟩

/-- Each sign is a token, and less is to come behind it. -/
theorem factor (h : Simulation S R) (hbelow : Below R e.ahead) (hR : R e e') :
    Agree R e.factor e'.factor := by
  rw [factor_eq e, factor_eq e']
  -- a minus, a plus, or no sign; both see the same
  by_cases hminus : e.current.kind = .minus
  · have hmove : e.current.kind.endsStatement = false := by rw [hminus]; rfl
    obtain ⟨hvalue, hend⟩ := hbelow (h.advance hR hmove) (ahead_advance_lt hmove) .factor
    have hvalue : e.advance.factor.1 = e'.advance.factor.1 := hvalue
    rw [if_pos hminus, if_pos ((h.kind_eq_iff hR rfl).1 hminus), hvalue]
    exact ⟨rfl, hend⟩
  rw [if_neg hminus, if_neg fun hk' => hminus ((h.kind_eq_iff hR rfl).2 hk')]
  by_cases hplus : e.current.kind = .plus
  · have hmove : e.current.kind.endsStatement = false := by rw [hplus]; rfl
    rw [if_pos hplus, if_pos ((h.kind_eq_iff hR rfl).1 hplus)]
    exact hbelow (h.advance hR hmove) (ahead_advance_lt hmove) .factor
  · rw [if_neg hplus, if_neg fun hk' => hplus ((h.kind_eq_iff hR rfl).2 hk')]
    exact h.power hbelow hR

/-- The loop over the factors agrees. The induction is on what is to come, since each round starts
where the last one ended. -/
theorem termRest (h : Simulation S R) {n : Nat} (hbelow : Below R n) (hR : R e e')
    (hle : e.ahead ≤ n) (left : α) : Agree R (e.termRest left) (e'.termRest left) := by
  induction hn : e.ahead using Nat.strongRecOn generalizing e e' left with
  | _ m ih =>
    -- each operator of the loop is a token taken, so there is less to come behind it
    have hop := h.kind_congr hR Operator.multiplicative? rfl
    rw [termRest_eq, termRest_eq, ← hop]
    cases ho : Operator.multiplicative? e.current.kind with
    | none => exact ⟨rfl, hR⟩
    | some op =>
      have hmove := Operator.endsStatement_of_multiplicative? ho
      have hlt := ahead_advance_lt hmove
      obtain ⟨hright, hnext⟩ := hbelow (h.advance hR hmove) (by omega) .factor
      have hright : e.advance.factor.1 = e'.advance.factor.1 := hright
      have hnext : R e.advance.factor.2 e'.advance.factor.2 := hnext
      obtain ⟨hvalue, hend⟩ := h.operate op left e.advance.factor.1 hnext
      have h₁ := (reaches_factor e.advance).ahead_le
      have h₂ := (reaches_operate op left e.advance.factor.1 e.advance.factor.2).ahead_le
      simp only
      rw [← hright, ← hvalue]
      exact ih _ (by omega) hend (by omega) _ rfl

/-- The loop over the terms agrees, for the same reason. -/
theorem expressionRest (h : Simulation S R) {n : Nat} (hbelow : Below R n) (hR : R e e')
    (hle : e.ahead ≤ n) (left : α) : Agree R (e.expressionRest left) (e'.expressionRest left) := by
  induction hn : e.ahead using Nat.strongRecOn generalizing e e' left with
  | _ m ih =>
    -- as for the factors of a product
    have hop := h.kind_congr hR Operator.additive? rfl
    rw [expressionRest_eq, expressionRest_eq, ← hop]
    cases ho : Operator.additive? e.current.kind with
    | none => exact ⟨rfl, hR⟩
    | some op =>
      have hmove := Operator.endsStatement_of_additive? ho
      have hlt := ahead_advance_lt hmove
      obtain ⟨hright, hnext⟩ := hbelow (h.advance hR hmove) (by omega) .term
      have hright : e.advance.term.1 = e'.advance.term.1 := hright
      have hnext : R e.advance.term.2 e'.advance.term.2 := hnext
      obtain ⟨hvalue, hend⟩ := h.operate op left e.advance.term.1 hnext
      have h₁ := (reaches_term e.advance).ahead_le
      have h₂ := (reaches_operate op left e.advance.term.1 e.advance.term.2).ahead_le
      simp only
      rw [← hright, ← hvalue]
      exact ih _ (by omega) hend (by omega) _ rfl

/-- A product agrees if its first factor and its loop do. -/
theorem term (h : Simulation S R) (hbelow : Below R e.ahead) (hR : R e e') :
    Agree R e.term e'.term := by
  obtain ⟨hleft, hrest⟩ := h.factor hbelow hR
  rw [term_eq, term_eq, hleft]
  exact h.termRest hbelow hrest (reaches_factor e).ahead_le _

/-- A sum agrees if its first term and its loop do. -/
theorem expression (h : Simulation S R) (hbelow : Below R e.ahead) (hR : R e e') :
    Agree R e.expression e'.expression := by
  obtain ⟨hleft, hrest⟩ := h.term hbelow hR
  rw [expression_eq, expression_eq, hleft]
  exact h.expressionRest hbelow hrest (reaches_term e).ahead_le _

/-- The productions agree on however much there is to come. The induction is on that amount, and
inside of it from the tightest level to the loosest. -/
theorem below (h : Simulation S R) (n : Nat) : Below R n := by
  induction n with
  | zero => exact fun _ hlt => absurd hlt (Nat.not_lt_zero _)
  | succ n ih =>
    intro e e' hR hlt l
    -- at the same amount to come, a production hands over to a tighter one only
    have hbelow : Below R e.ahead := ih.mono (by omega)
    cases l with
    | expression => exact h.expression hbelow hR
    | term => exact h.term hbelow hR
    | factor => exact h.factor hbelow hR
    | power => exact h.power hbelow hR
    | primary => exact h.primary hbelow hR

/-- The productions of every level find the same values. -/
theorem produce (h : Simulation S R) (hR : R e e') (l : Level) :
    Agree R (e.produce l) (e'.produce l) :=
  h.below (e.ahead + 1) hR (Nat.lt_succ_self _) l

/-! ## Statements -/

/-- Both start an assignment, or none of them does. -/
theorem startsAssignment (h : Simulation S R) (hR : R e e') :
    startsAssignment e.upcoming = startsAssignment e'.upcoming := by
  rw [Bool.eq_iff_iff, startsAssignment_upcoming, startsAssignment_upcoming,
    ← h.kind_congr hR TokenKind.isName rfl]
  refine and_congr_right fun hname => ?_
  have hmove := TokenKind.endsStatement_eq_false_of_isName hname
  exact h.kind_eq_iff (h.advance hR hmove) rfl

/-- The body of a statement agrees, be it an assignment or an expression. -/
theorem body (h : Simulation S R) (hR : R e e') :
    e.body.1 = e'.body.1 ∧ R e.body.2 e'.body.2 := by
  obtain ⟨hs, hs'⟩ := h.settled hR
  have hiff := h.startsAssignment hR
  cases hstart : DeskCalc.startsAssignment e.upcoming with
  | true =>
    -- the name is taken, and the assignment starts at the sign behind it
    obtain ⟨hname, hequals⟩ := e.startsAssignment_upcoming.1 hstart
    obtain ⟨index, index', hindex, hindex', hS⟩ := h.exists_symbols hR hname
    have hS := h.places hS (faces_advance e) (faces_advance e')
    have hnext := h.advance hR (TokenKind.endsStatement_eq_false_of_isName hname)
    obtain ⟨hvalue, hend⟩ := h.assignment (h.below _) hnext hS hequals
    rw [body_of_assignment hstart hindex, body_of_assignment (by rwa [← hiff]) hindex']
    exact ⟨congrArg Statement.assignment hvalue, hend⟩
  | false =>
    obtain ⟨hvalue, hend⟩ := h.expression (h.below _) hR
    rw [body_of_expression hs hstart, body_of_expression hs' (by rwa [← hiff])]
    exact ⟨congrArg Statement.expression hvalue, hend⟩

/-- Skipping leads to related evaluations: both skip the same number of tokens. -/
theorem skip (h : Simulation S R) (hR : R e e') : R e.skip e'.skip := by
  fun_induction Evaluation.skip e generalizing e' with
  | case1 e hk =>
    rw [skip_of_endsStatement (by rwa [← h.endsStatement hR])]
    exact hR
  | case2 e hk ih =>
    have hk : e.current.kind.endsStatement = false := by simpa using hk
    rw [← skip_advance (e := e') (by rw [← h.endsStatement hR, hk])]
    exact ih (h.advance hR hk)

/-- What was reported since the statement started is compared with the count at its start, so it
makes no difference what was reported before. -/
theorem conclude (h : Simulation S R) {f f' : Evaluation α} (hstart : R e e') (hR : R f f') :
    R (f.conclude e.session.errorCount) (f'.conclude e'.session.errorCount) := by
  have hcount := h.errorCount hstart hR
  have hends := h.endsStatement hR
  unfold Evaluation.conclude
  by_cases hk : f.current.kind.endsStatement = true
  · rw [if_pos hk, if_pos (by rwa [← hends])]
    exact hR
  have hk' : ¬f'.current.kind.endsStatement = true := by rwa [← hends]
  rw [if_neg hk, if_neg hk']
  -- what is left over is reported in both or in none
  by_cases hnone : f.session.errorCount = e.session.errorCount
  · rw [if_pos hnone, if_pos (hcount.1 hnone), h.kind_of_goes_on hR (by simpa using hk)]
    exact h.skip (h.report _ hR)
  · rw [if_neg hnone, if_neg fun hnone' => hnone (hcount.2 hnone')]
    exact h.skip hR

/-- From its first token on, a statement is the same, and it ends in related states. -/
theorem statement (h : Simulation S R) (hR : R e.toStatement e'.toStatement)
    (hk : e.toStatement.current.kind ≠ .finish) :
    e.statement.1 = e'.statement.1 ∧ R e.statement.2 e'.statement.2 := by
  have hmove : e.toStatement.current.kind.endsStatement = false := by
    have hne := mt (upcoming_toStatement_eq_nil_iff e).1 hk
    rwa [upcoming_eq_nil_iff, Bool.not_eq_true] at hne
  have hk' : e'.toStatement.current.kind ≠ .finish := by
    rwa [h.kind_of_goes_on hR hmove]
  obtain ⟨hstatement, hend⟩ := h.body hR
  rw [statement_of_ne_finish hk, statement_of_ne_finish hk']
  simp only [hstatement, true_and]
  have hconclude := h.conclude hR hend
  -- an assignment leaves the last result alone
  cases e'.toStatement.body.1 with
  | assignment value => exact hconclude
  | expression value => exact h.remember value hconclude

end Simulation

end DeskCalc
