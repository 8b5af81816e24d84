import DeskCalc.Proofs.Ledger
import DeskCalc.Proofs.PrintedDecimals
import DeskCalc.Proofs.Remainder

/-!
# Printed results read back

What is printed for a finite double is a single literal, perhaps behind a minus. Evaluating it gives
the same double again, signs of zero included, and does nothing but make it the last result.

* `Evaluation.InFrontOf` — an evaluation in a session, with a text on a single line to come.
* `Evaluation.statements_of_expression` — an input that is one expression.
* `Session.ReadsBack` — what becomes of a printed double.
* `Session.readsBack` — that it becomes of every finite double, in every session.
-/

namespace DeskCalc

/-- Assigning adds no name, so it is up to interning. -/
theorem SymbolTable.names_after_intern_assign {α : Type} (name : String) (index : Nat) (value : α)
    (t : SymbolTable α) : (t.after [.intern name, .assign index value]).names =
      if name ∈ t.names then t.names else t.names ++ [name] := by
  rw [names, toList_after]
  exact (Ledger.names_change (.assign index value) _).trans (Ledger.names_change (.intern name) _)

namespace Evaluation

section

variable {α : Type} {e : Evaluation α} {s : Session α} {cs cs' : List Char}

/-! ## A line to come -/

/-- A text is to come, and no line break is behind. -/
structure InFrontOf (e : Evaluation α) (s : Session α) (cs : List Char) : Prop where
  holds : e.Holds .nothing cs
  sameLine : e.stream.newlinePending = false
  session : e.session = s

theorem inFrontOf_start (text : String) (s : Session α) :
    (s.start (.ofText text)).InFrontOf s.resetLine text.toList :=
  ⟨holds_start _ _, rfl, rfl⟩

variable [Arithmetic α]

/-- A lexeme that leaves the session alone is taken off the front. -/
theorem InFrontOf.advance_of_some (h : e.InFrontOf s cs) {l : Lexeme} {token : Token α}
    (hl : Lexeme.next? cs = some (l, cs')) (hne : l ≠ .newline) (ht : s.token l = (token, s)) :
    e.advance.current = token ∧ e.advance.InFrontOf s cs' := by
  obtain ⟨hcurrent, hsession, hholds, hpending⟩ := h.holds.advance_of_some hl
  rw [reading_of_not_pending h.sameLine, h.session, ht] at hcurrent hsession
  exact ⟨hcurrent, hholds, by rw [hpending, decide_eq_false hne], hsession⟩

theorem InFrontOf.advance_of_none (h : e.InFrontOf s cs) (hl : Lexeme.next? cs = none) :
    e.advance.current = .bare .finish s.log.line ∧ e.advance.InFrontOf s [] := by
  obtain ⟨hcurrent, hsession, hholds, hpending⟩ :=
    h.holds.advance_of_none LineSource.drained_nothing hl
  rw [reading_of_not_pending h.sameLine, h.session] at hcurrent hsession
  exact ⟨hcurrent, hholds, hpending, hsession⟩

theorem InFrontOf.advance_minus (h : e.InFrontOf s ('-' :: cs)) :
    e.advance.current = .bare .minus s.log.line ∧ e.advance.InFrontOf s cs :=
  h.advance_of_some (Lexeme.next?_mark rfl cs) (by decide) rfl

/-- A literal that is all there is becomes one number. -/
theorem InFrontOf.advance_number {n : Numeral} (h : e.InFrontOf s n.chars) (hn : n.IsLiteral)
    {m : Nat} {q : Int} (hv : n.value? = some (m, q)) :
    e.advance.current = ⟨.number, .number (Arithmetic.ofDecimal m q), s.log.line⟩ ∧
      e.advance.InFrontOf s [] := by
  obtain ⟨c, cs, hcs, hc⟩ := hn.exists_cons
  have hl := Lexeme.next?_number hc cs
  rw [← hcs, Numeral.split_self hn] at hl
  exact h.advance_of_some hl (by simp) (by simp only [Session.token, hv])

/-! ## An input that is one expression -/

variable {x : α} {e' : Evaluation α}

/-- A factor with nothing behind it is an expression by itself. -/
theorem expression_of_factor (h : e.factor = (x, e')) (hend : e'.current.kind = .finish) :
    e.expression = (x, e') := by
  rw [expression_eq, term_eq, h]
  simp only
  rw [termRest_eq, hend]
  simp only [Operator.multiplicative?]
  rw [expressionRest_eq, hend]
  rfl

/-- Behind the only expression of an input its value is remembered, and nothing else happens. -/
theorem statements_of_expression (hname : e.advance.current.kind.isName = false)
    (hstops : e.advance.current.kind.endsStatement = false)
    (hx : e.advance.expression = (x, e')) (hend : e'.current.kind = .finish)
    (hdone : (e'.remember x).advance.current.kind = .finish) :
    e.statements = ([.expression x], (e'.remember x).advance) := by
  have hfirst : e.toStatement = e.advance :=
    toStatement_of_ne fun h => by rw [h] at hstops; cases hstops
  have hbody : e.advance.body = (.expression x, e') := by simp [body, target, hname, hx]
  -- nothing is left over behind the expression, so it is remembered at once
  have hstatement : e.statement = (some (.expression x), e'.remember x) := by
    rw [statement_of_ne_finish (by rw [hfirst]; intro h; rw [h] at hstops; cases hstops), hfirst,
      hbody]
    simp only [conclude, hend, TokenKind.endsStatement, if_true, rememberStatement]
  have hrest : (e'.remember x).toStatement = (e'.remember x).advance :=
    toStatement_of_ne fun h => by rw [hdone] at h; cases h
  rw [statements_of_some (congrArg Prod.fst hstatement), hstatement]
  simp only
  rw [statements_of_finish (by rw [hrest, hdone]), hrest]

/-- A literal with nothing behind it is a factor by itself. -/
theorem InFrontOf.literal {n : Numeral} (h : e.InFrontOf s n.chars) (hn : n.IsLiteral)
    {m : Nat} {q : Int} (hv : n.value? = some (m, q)) :
    e.advance.current = ⟨.number, .number (Arithmetic.ofDecimal m q), s.log.line⟩ ∧
      e.advance.factor = (Arithmetic.ofDecimal m q, e.advance.advance) ∧
      e.advance.advance.current = .bare .finish s.log.line ∧
      e.advance.advance.InFrontOf s [] := by
  -- the number, and the end behind it
  obtain ⟨hnumber, h₁⟩ := h.advance_number hn hv
  obtain ⟨hfinish, h₂⟩ := h₁.advance_of_none rfl
  have hfactor := factor_of_number (by rw [hnumber]) (by rw [hfinish]; exact TokenKind.noConfusion)
  rw [hnumber] at hfactor
  exact ⟨hnumber, hfactor, hfinish, h₂⟩

/-- What becomes of a literal with a minus in front of it, or without one. -/
structure ReadsSigned (e : Evaluation α) (s : Session α) (negative : Bool) (x : α)
    (e' : Evaluation α) : Prop where
  expression : e.advance.expression = (if negative then -x else x, e')
  finish : e'.current.kind = .finish
  inFrontOf : e'.InFrontOf s []
  isName : e.advance.current.kind.isName = false
  endsStatement : e.advance.current.kind.endsStatement = false
  tokens : e.tokens.1 = (if negative then [.bare .minus s.log.line] else []) ++
    [⟨.number, .number x, s.log.line⟩, .bare .finish s.log.line]

/-- A literal with a minus in front of it or without one is read as a signed number. -/
theorem InFrontOf.readsSigned {n : Numeral} {negative : Bool}
    (h : e.InFrontOf s ((if negative then ['-'] else []) ++ n.chars)) (hn : n.IsLiteral)
    {m : Nat} {q : Int} (hv : n.value? = some (m, q)) :
    ∃ e', e.ReadsSigned s negative (Arithmetic.ofDecimal m q) e' := by
  cases negative with
  | false =>
    obtain ⟨hnumber, hfactor, hfinish, hend⟩ := InFrontOf.literal h hn hv
    have hk : e.advance.current.kind = .number := by rw [hnumber]
    have hk' : e.advance.advance.current.kind = .finish := by rw [hfinish]; rfl
    refine ⟨_, expression_of_factor hfactor hk', hk', hend, by rw [hk]; rfl, by rw [hk]; rfl, ?_⟩
    -- two tokens, the number and the end
    rw [tokens_eq, remaining_of_ne (by rw [hk]; decide), tokens_eq, remaining_of_finish hk',
      hnumber, hfinish]
    rfl
  | true =>
    obtain ⟨hminus, hrest⟩ := InFrontOf.advance_minus h
    obtain ⟨hnumber, hfactor, hfinish, hend⟩ := hrest.literal hn hv
    have hk : e.advance.current.kind = .minus := by rw [hminus]; rfl
    have hk' : e.advance.advance.advance.current.kind = .finish := by rw [hfinish]; rfl
    have hsigned : e.advance.factor = (-Arithmetic.ofDecimal m q, e.advance.advance.advance) := by
      rw [factor_eq, if_pos hk, hfactor]
    refine ⟨_, expression_of_factor hsigned hk', hk', hend, by rw [hk]; rfl, by rw [hk]; rfl, ?_⟩
    -- three tokens, with the minus first
    rw [tokens_eq, remaining_of_ne (by rw [hk]; decide), tokens_eq,
      remaining_of_ne (by rw [hnumber]; exact TokenKind.noConfusion), tokens_eq,
      remaining_of_finish hk', hminus, hnumber, hfinish]
    rfl

/-- Remembering a value gives the last result a place if it has none, and assigns it. -/
theorem remember_eq (h : e.session.table.Reachable) (value : α) :
    e.remember value = { e with session := { e.session with
      table := e.session.table.after
        [.intern SymbolTable.last, .assign (e.session.table.intern SymbolTable.last).1 value] } } ∧
      (e.remember value).session.table.binding SymbolTable.last = .assigned value := by
  obtain ⟨t, ht⟩ := h.assign_last value
  have hafter : e.session.table.after [.intern SymbolTable.last,
      .assign (e.session.table.intern SymbolTable.last).1 value] = t := by
    simp [SymbolTable.after, SymbolTable.change, ht, Except.toOption]
  have hassign : (e.session.intern SymbolTable.last).2.assign
      (e.session.intern SymbolTable.last).1 value = .ok { e.session with table := t } := by
    simp [Session.assign, Session.intern, ht, Except.map]
  -- the assignment succeeds, so there is nothing to report
  have hremember : e.remember value = { e with session := { e.session with table := t } } := by
    unfold remember assign
    simp only [hassign]
  refine ⟨by rw [hremember, hafter], ?_⟩
  rw [hremember, SymbolTable.binding_assign (SymbolTable.indexOf?_intern _ _) ht, if_pos rfl]

end

end Evaluation

namespace Session

open Evaluation

/-- Evaluating what is printed for a double. -/
structure ReadsBack (s : Session Float) (v : Float) : Prop where
  /-- The text is a literal without an exponent, with digits in front of its point, and perhaps a
  minus in front of it. -/
  text : ∃ n : Numeral, n.IsLiteral ∧ n.whole ≠ [] ∧ n.fraction ≠ some [] ∧ n.exponent = none ∧
    (Arithmetic.format v).toList = (if Double.isNegative v then ['-'] else []) ++ n.chars
  /-- The literal is one token, and nothing follows it. -/
  tokens : (s.start (.ofText (Arithmetic.format v))).tokens.1 =
    (if Double.isNegative v then [.bare .minus 1] else []) ++
      [⟨.number, .number v.abs, 1⟩, .bare .finish 1]
  /-- The value is the same double: doubles are equal only if their bits are. -/
  value : (s.evaluate (Arithmetic.format v)).1 = [.expression v]
  /-- Nothing is reported. -/
  log : (s.evaluate (Arithmetic.format v)).2.log = s.resetLine.log
  draws : (s.evaluate (Arithmetic.format v)).2.draws = s.draws
  table : (s.evaluate (Arithmetic.format v)).2.table =
    s.table.after [.intern SymbolTable.last, .assign (s.table.intern SymbolTable.last).1 v]
  last : (s.evaluate (Arithmetic.format v)).2.value? SymbolTable.last = some v
  names : (s.evaluate (Arithmetic.format v)).2.table.names =
    if SymbolTable.last ∈ s.table.names then s.table.names
    else s.table.names ++ [SymbolTable.last]

/-- A text that is a literal, perhaps with a minus in front of it, becomes the last result. -/
theorem evaluate_signedLiteral {α : Type} [Arithmetic α] {s : Session α} (hs : s.table.Reachable)
    {text : String} {negative : Bool} {n : Numeral}
    (htext : text.toList = (if negative then ['-'] else []) ++ n.chars) (hn : n.IsLiteral)
    {m : Nat} {q : Int} (hv : n.value? = some (m, q)) {x : α}
    (hx : (if negative then -Arithmetic.ofDecimal m q else Arithmetic.ofDecimal m q) = x) :
    s.evaluate text = ([.expression x], { s.resetLine with
        table := s.table.after [.intern SymbolTable.last,
          .assign (s.table.intern SymbolTable.last).1 x] }) ∧
      (s.evaluate text).2.table.binding SymbolTable.last = .assigned x := by
  -- the evaluation starts in front of the whole text, which is read as a signed number
  have hstart := inFrontOf_start text s
  rw [htext] at hstart
  obtain ⟨e, h⟩ := hstart.readsSigned hn hv
  have hexpression := h.expression
  rw [hx] at hexpression
  have htable : e.session.table.Reachable := by
    rw [h.inFrontOf.session]
    exact hs
  obtain ⟨hremember, hlast⟩ := remember_eq htable x
  -- remembering does not touch the stream, so the next token is the end as well
  have hend : (e.remember x).InFrontOf (e.remember x).session [] :=
    ⟨by rw [hremember]; exact h.inFrontOf.holds, by rw [hremember]; exact h.inFrontOf.sameLine, rfl⟩
  obtain ⟨hfinish, hdone⟩ := hend.advance_of_none rfl
  have hstatements := statements_of_expression h.isName h.endsStatement hexpression h.finish
    (by rw [hfinish]; rfl)
  have hevaluate : s.evaluate text = ([.expression x], (e.remember x).session) := by
    rw [evaluate, hstatements]
    exact congrArg (Prod.mk _) hdone.session
  refine ⟨?_, by rw [hevaluate]; exact hlast⟩
  rw [hevaluate, hremember, h.inFrontOf.session]
  rfl

/-- What is printed for a finite double reads back as the same double. -/
theorem readsBack {v : Float} (hv : v.isFinite = true) {s : Session Float}
    (hs : s.table.Reachable) : s.ReadsBack v := by
  have hformat := Double.format_eq hv
  have habs := Double.ofDecimal_printed hv
  generalize Double.printed (Double.magnitudeBits v) = p at hformat habs
  -- the decimal is that of the absolute value, and a minus stands for the sign bit
  have hsigned : (if Double.isNegative v then -Double.ofDecimal p.digits (-(p.places : Int))
      else Double.ofDecimal p.digits (-(p.places : Int))) = v := by
    rw [habs]
    exact Double.signed_abs v
  obtain ⟨hevaluate, hlast⟩ :=
    evaluate_signedLiteral hs hformat p.isLiteral_numeral p.value?_numeral hsigned
  have hstart := inFrontOf_start (Double.format v) s
  rw [hformat] at hstart
  obtain ⟨e, hreads⟩ := hstart.readsSigned p.isLiteral_numeral p.value?_numeral
  have htokens := hreads.tokens
  have htable := congrArg (fun r => r.2.table) hevaluate
  obtain ⟨hwhole, hfraction⟩ := p.ne_nil_numeral
  refine ⟨⟨p.numeral, p.isLiteral_numeral, hwhole, hfraction, p.exponent_numeral, hformat⟩, ?_,
    congrArg Prod.fst hevaluate, congrArg (fun r => r.2.log) hevaluate,
    congrArg (fun r => r.2.draws) hevaluate, htable, ?_, ?_⟩
  · rw [← habs]
    exact htokens
  · exact (SymbolTable.value?_eq _ _).trans (congrArg Binding.value? hlast)
  · exact (congrArg SymbolTable.names htable).trans
      (SymbolTable.names_after_intern_assign _ _ _ _)

/-- The negative double nearest to zero: hundreds of zeros stand in front of its only digit. -/
theorem readsBack_leastNegative :
    (Double.ofMagnitude true 1).isFinite = true ∧
      (Session.new "hoc" .silent (Double.draws 0)).table.Reachable ∧
      (Session.new "hoc" .silent (Double.draws 0)).ReadsBack (Double.ofMagnitude true 1) := by
  have hfinite := Double.isFinite_ofMagnitude true (by decide : 1 < Double.infinityBits)
  exact ⟨hfinite, .standard, readsBack hfinite .standard⟩

end Session

end DeskCalc
