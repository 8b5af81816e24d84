import DeskCalc.Proofs.Syntax.Reading

/-!
# Reading along a sentence

A statement looks at the token behind its first one to tell an assignment from an expression. That
makes no difference to what is read afterwards, so the part of a statement in front of its end is
again what a tree says.

* `Evaluation.body_of_assignment`, `body_of_expression` — the body of a statement, without looking
  ahead.
* `Sentence.Fits`, `Sentence.follow` — as for trees.
* `Sentence.body_eq_follow` — where the run ahead starts with the tokens of a sentence that fits,
  the body of the statement follows the sentence.
-/

namespace DeskCalc

variable {α : Type}

/-- Does the run start with a name and the sign of an assignment? -/
def startsAssignment : List (Content α) → Bool
  | c :: c' :: _ => c.1.isName && c'.1 == .equals
  | _ => false

/-- A run of which the tree takes the front starts an assignment just when the tree does. -/
theorem Tree.startsAssignment_yield {l : Level} (t : Tree α l) {rest : List (Content α)}
    (hfits : t.Fits (nextKind rest)) :
    startsAssignment (t.yield ++ rest) = true ↔ t.startsWithAssignment = true := by
  -- by induction on the tree; what starts a tree starts its first part
  induction t generalizing rest with
  | term t ih => exact ih hfits.1
  | factor f ih => exact ih hfits
  | power p ih => exact ih hfits.1
  | primary p ih => exact ih hfits.1
  | sum left op hop right ihl _ =>
    rw [yield, List.append_assoc]
    exact ihl hfits.1
  | product left op hop right ihl _ =>
    rw [yield, List.append_assoc]
    exact ihl hfits.1
  | raise base exponent ihb _ =>
    rw [yield, List.append_assoc]
    exact ihb hfits.1
  | sign negative operand =>
    have hname : (signMark negative).isName = false := by cases negative <;> rfl
    cases hy : operand.yield ++ rest <;>
      simp [yield, startsAssignment, startsWithAssignment, hname, hy]
  | number value =>
    cases rest <;> simp [yield, startsAssignment, startsWithAssignment, TokenKind.isName,
      TokenKind.arity?]
  -- a name that is read fits only where no equals sign follows
  | name index =>
    cases rest with
    | nil => simp [yield, startsAssignment, startsWithAssignment]
    | cons c rest =>
      have hne : c.1 ≠ .equals := hfits
      simp [yield, startsAssignment, startsWithAssignment, hne]
  | assign kind hkind index right =>
    simp [yield, startsAssignment, startsWithAssignment, hkind]
  | paren inner closed =>
    cases hy : inner.yield ++ closing closed ++ rest <;>
      simp_all [yield, startsAssignment, startsWithAssignment, TokenKind.isName, TokenKind.arity?]
  | nullary index closed => simp [yield, startsAssignment, startsWithAssignment]
  | unary index x closed => simp [yield, startsAssignment, startsWithAssignment]
  | binary index x y closed => simp [yield, startsAssignment, startsWithAssignment]
  | halfBinary index x => simp [yield, startsAssignment, startsWithAssignment]
  | function kind hkind index =>
    cases rest with
    | nil => simp [yield, startsAssignment, startsWithAssignment]
    | cons c rest =>
      have hne : c.1 ≠ .equals := hfits.1
      simp [yield, startsAssignment, startsWithAssignment, hne]
  -- where nothing is read, the run starts no primary, and so with no name
  | missing =>
    simp only [yield, List.nil_append, startsWithAssignment, Bool.false_eq_true, iff_false]
    have hstart : Evaluation.startsPrimary (nextKind rest) = false := hfits
    rcases rest with _ | ⟨c, rest⟩
    · simp [startsAssignment]
    · have hname : c.1.isName = false := by
        simp only [nextKind_cons, Evaluation.startsPrimary, Bool.or_eq_false_iff] at hstart
        exact hstart.1.1
      cases rest <;> simp [startsAssignment, hname]

/-- With a token of the given kind behind it, nothing in the sentence would go on with that token,
and what starts with an assignment is one. -/
def Sentence.Fits : Sentence α → TokenKind → Prop
  | .assignment _ _ _ right, k => right.Fits k ∧ Operator.additive? k = none
  | .expression t, k =>
    t.Fits k ∧ Operator.additive? k = none ∧ t.startsWithAssignment = false

variable [Arithmetic α]

/-- Takes the tokens of the sentence and evaluates it on the way. -/
def Sentence.follow (t : Sentence α) (e : Evaluation α) : Statement α × Evaluation α :=
  match t with
  | .assignment _ _ index right =>
    let r := right.follow e.advance.advance
    let r' := r.2.assign index r.1
    (.assignment r'.1, r'.2)
  | .expression t =>
    let r := t.follow e
    (.expression r.1, r.2)

namespace Evaluation

/-! ## Looking ahead makes no difference -/

/-- Productions that start from a name take it first, whether or not the next token was looked
at. -/
theorem expression_peek {e : Evaluation α} (hname : e.current.kind.isName = true) {index : Nat}
    (hsymbol : e.current.symbol? = some index) : e.peek.2.expression = e.expression := by
  -- a primary that starts from a name advances first, which makes up for the looking
  have hprimary : e.peek.2.primary = e.primary := by
    cases hfunction : e.current.kind.arity?.isSome with
    | true =>
      rw [primary_of_function (e := e) hfunction,
        primary_of_function (by rwa [current_peek]), current_peek, advance_peek, hsymbol]
    | false =>
      have hkind : e.current.kind = .name := by simpa [TokenKind.isName, hfunction] using hname
      rw [primary_of_name (e := e) hkind, primary_of_name (by rwa [current_peek]), current_peek,
        advance_peek, hsymbol]
  have hpower : e.peek.2.power = e.power := by rw [power_eq, power_eq, hprimary]
  have hfactor : e.peek.2.factor = e.factor := by
    have hminus : e.current.kind ≠ .minus := ne_of_isName hname rfl
    have hplus : e.current.kind ≠ .plus := ne_of_isName hname rfl
    rw [factor_eq e.peek.2, factor_eq e, current_peek, hpower]
    simp only [hminus, hplus, if_false]
  rw [expression_eq, expression_eq, term_eq, term_eq, hfactor]

/-- The run ahead starts an assignment where a name is current and an equals sign comes next. -/
theorem startsAssignment_upcoming (e : Evaluation α) :
    startsAssignment e.upcoming = true ↔
      e.current.kind.isName = true ∧ e.advance.current.kind = .equals := by
  -- there is an assignment only where the run has two tokens
  cases hk : e.current.kind.endsStatement with
  | true =>
    have hname : e.current.kind.isName = false := by
      by_contra h
      simp [TokenKind.endsStatement_eq_false_of_isName (Bool.not_eq_false _ ▸ h)] at hk
    simp [upcoming_of_endsStatement hk, startsAssignment, hname]
  | false =>
    rw [upcoming_of_not_endsStatement hk]
    cases hk' : e.advance.current.kind.endsStatement with
    | true =>
      have hne : e.advance.current.kind ≠ .equals := by
        intro h
        simp [h, TokenKind.endsStatement] at hk'
      simp [upcoming_of_endsStatement hk', startsAssignment, hne]
    | false =>
      rw [upcoming_of_not_endsStatement hk']
      simp [startsAssignment, Token.content]

/-- The body of a statement that starts an assignment is the assignment. -/
theorem body_of_assignment {e : Evaluation α} (h : startsAssignment e.upcoming = true) {index : Nat}
    (hsymbol : e.current.symbol? = some index) :
    e.body =
      let r := e.advance.assignment index
      (.assignment r.1, r.2) := by
  obtain ⟨hname, hequals⟩ := e.startsAssignment_upcoming.1 h
  -- looking ahead finds the equals sign
  have htarget : e.target = (some index, e.peek.2) := by
    rw [target, if_pos hname]
    simp only [fst_peek, hequals, if_true, hsymbol]
  rw [body, htarget]
  simp only [advance_peek]

/-- The body of any other statement is an expression. -/
theorem body_of_expression {e : Evaluation α} (hs : e.Settled)
    (h : startsAssignment e.upcoming = false) :
    e.body = (.expression e.expression.1, e.expression.2) := by
  cases hname : e.current.kind.isName with
  | false =>
    have htarget : e.target = (none, e) := by rw [target, if_neg (by simp [hname])]
    rw [body, htarget]
  | true =>
    obtain ⟨index, hsymbol, -⟩ := hs.exists_symbol hname
    have hequals : e.advance.current.kind ≠ .equals := by
      intro hk
      rw [e.startsAssignment_upcoming.2 ⟨hname, hk⟩] at h
      simp at h
    -- the name was looked beyond in vain, which the expression does not notice
    have htarget : e.target = (none, e.peek.2) := by
      rw [target, if_pos hname]
      simp only [fst_peek, hequals, if_false]
    rw [body, htarget]
    simp only [expression_peek hname hsymbol]

end Evaluation

open Evaluation

/-- Following a sentence moves to what stands behind its tokens. -/
theorem Sentence.movesTo_follow (t : Sentence α) {e : Evaluation α} {rest : List (Content α)}
    (h : e.upcoming = t.yield ++ rest) (hfits : t.Fits (nextKind rest)) :
    MovesTo e (t.follow e).2 rest := by
  cases t with
  | assignment kind hkind index right =>
    have hr := (movesTo_advance h).advance
    exact (hr.trans (right.movesTo_follow hr.2 hfits.1)).act (reaches_assign _ _ _)
      (view_assign _ _ _)
  | expression t => exact t.movesTo_follow h hfits.1

/-- Where the run ahead starts with the tokens of a sentence that fits, the body of the statement
follows the sentence. -/
theorem Sentence.body_eq_follow (t : Sentence α) {e : Evaluation α} (hs : e.Settled)
    {rest : List (Content α)} (h : e.upcoming = t.yield ++ rest) (hfits : t.Fits (nextKind rest)) :
    e.body = t.follow e := by
  cases t with
  | assignment kind hkind index right =>
    have hstart : startsAssignment e.upcoming = true := by
      rw [h]
      simp [yield, startsAssignment, hkind]
    have hright := (movesTo_advance h).advance
    have hexpression : e.advance.advance.expression = right.follow e.advance.advance :=
      produce_eq_of_proceed (right.produce_eq_follow hs.advance.advance hright.2 hfits.1)
        (right.movesTo_follow hright.2 hfits.1) hfits.2
    rw [body_of_assignment hstart (of_upcoming_eq_symbol h).2, Evaluation.assignment, hexpression]
    rfl
  | expression t =>
    obtain ⟨ht, hstop, hstart⟩ := hfits
    -- otherwise the tree would start with an assignment, which as a sentence it does not
    have hstart' : startsAssignment e.upcoming = false := by
      rw [h, ← Bool.not_eq_true]
      intro hc
      simp [(t.startsAssignment_yield ht).1 hc] at hstart
    have hexpression : e.expression = t.follow e :=
      produce_eq_of_proceed (t.produce_eq_follow hs h ht) (t.movesTo_follow h ht) hstop
    rw [body_of_expression hs hstart', hexpression]
    rfl

end DeskCalc
