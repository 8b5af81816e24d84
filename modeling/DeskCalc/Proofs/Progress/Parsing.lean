import DeskCalc.Proofs.Boundaries
import DeskCalc.Proofs.Progress.CallTree

/-!
# The calls that reading a statement consists of

The productions call each other, and the loops in them call themselves for their next round: for
the next operand of a sum or a product, for the next end of a statement that is passed over, for the
next token that is left over. Whether a production takes its first token itself is up to the caller.

* `ParseCall`, `ParseCall.tree` — the calls, and what each of them does.
* `ParseCall.answer`, `outcome_tree` — what they come to: what the productions and the statement of
  an evaluation are (`Evaluation.produce`, `statement`).
* `ParseCall.Makes`, `makes_of_mem` — which calls a call makes, and at which token.
-/

namespace DeskCalc

variable {α : Type}

/-- The calls that reading a statement consists of. Whoever calls the production of a level says
whether it has to take its first token itself. -/
inductive ParseCall (α : Type) where
  | produce (l : Level) (get : Bool) (e : Evaluation α)
  /-- Goes on with a sum whose value so far is known. -/
  | sum (left : α) (e : Evaluation α)
  /-- Goes on with a product whose value so far is known. -/
  | product (left : α) (e : Evaluation α)
  /-- Reads what follows a name, which is the current token. -/
  | name (token : Token α) (e : Evaluation α)
  /-- Assigns what follows the current `=`. -/
  | assignment (index : Nat) (e : Evaluation α)
  /-- Reads what follows the name of a function, which is the current token. -/
  | call (token : Token α) (e : Evaluation α)
  | statement (e : Evaluation α)
  /-- Passes over ends of statements. -/
  | blanks (e : Evaluation α)
  /-- Passes over what is left of a statement. -/
  | rest (e : Evaluation α)

namespace ParseCall

abbrev Answer : ParseCall α → Type
  | .statement _ => Option (Statement α) × Evaluation α
  | .blanks _ | .rest _ => Evaluation α
  | _ => α × Evaluation α

abbrev ask (c : ParseCall α) : CallTree (ParseCall α) Answer c.Answer := CallTree.ask c

variable [Arithmetic α]

/-- The evaluation at the first token of a production. -/
def enter (get : Bool) (e : Evaluation α) : Evaluation α := if get then e.advance else e

/-- Reads signs and what they stand in front of. -/
def signed (e : Evaluation α) : CallTree (ParseCall α) Answer (α × Evaluation α) :=
  if e.current.kind = .minus then do
    let (value, e₁) ← ask (.produce .factor true e)
    pure (-value, e₁)
  else if e.current.kind = .plus then ask (.produce .factor true e)
  else ask (.produce .power false e)

/-- Reads a number, a name, a call or a parenthesis. -/
def operand (e : Evaluation α) : CallTree (ParseCall α) Answer (α × Evaluation α) :=
  match e.current.kind with
  | .number => pure (e.current.number?.getD Arithmetic.nan, e.advance)
  | .name => ask (.name e.current e)
  | .nullary | .unary | .binary => ask (.call e.current e)
  | .leftParen => do
    let (value, e₁) ← ask (.produce .expression true e)
    pure (value, e₁.close)
  | _ => pure (e.fail .primaryExpected)

/-- Reads the arguments of a function behind the current parenthesis. -/
def arguments (function : TokenKind) (index : Nat) (e : Evaluation α) :
    CallTree (ParseCall α) Answer (α × Evaluation α) :=
  match function with
  | .nullary => pure (e.advance.finishCall index [])
  | .unary => do
    let (x, e₁) ← ask (.produce .expression true e)
    pure (e₁.finishCall index [x])
  | _ => do
    let (x, e₁) ← ask (.produce .expression true e)
    if e₁.current.kind = .comma then do
      let (y, e₂) ← ask (.produce .expression true e₁)
      pure (e₂.finishCall index [x, y])
    else pure (e₁.fail (.expected ","))

/-- Reads the assignment or the expression that starts at the current token. -/
def body (e : Evaluation α) : CallTree (ParseCall α) Answer (Statement α × Evaluation α) :=
  match e.target.1 with
  | some index => do
    let (value, e₁) ← ask (.assignment index e.target.2.advance)
    pure (.assignment value, e₁)
  | none => do
    let (value, e₁) ← ask (.produce .expression false e.target.2)
    pure (.expression value, e₁)

/-- Passes over what is left of a statement, and reports it unless there were other reports. -/
def conclude (reports : Nat) (e : Evaluation α) :
    CallTree (ParseCall α) Answer (Evaluation α) :=
  if e.current.kind.endsStatement then pure e
  else if e.session.errorCount = reports then
    ask (.rest (e.report (.unexpectedToken e.current.kind.text)))
  else ask (.rest e)

/-- What each call does. -/
def tree : Procedures (ParseCall α) Answer
  | .produce .expression get e => do
    let (left, e₁) ← ask (.produce .term get e)
    ask (.sum left e₁)
  | .sum left e =>
    match Operator.additive? e.current.kind with
    | none => pure (left, e)
    | some op => do
      let (right, e₁) ← ask (.produce .term true e)
      ask (.sum (e₁.operate op left right).1 (e₁.operate op left right).2)
  | .produce .term get e => do
    let (left, e₁) ← ask (.produce .factor get e)
    ask (.product left e₁)
  | .product left e =>
    match Operator.multiplicative? e.current.kind with
    | none => pure (left, e)
    | some op => do
      let (right, e₁) ← ask (.produce .factor true e)
      ask (.product (e₁.operate op left right).1 (e₁.operate op left right).2)
  | .produce .factor get e => signed (enter get e)
  | .produce .power get e => do
    let (base, e₁) ← ask (.produce .primary get e)
    if e₁.current.kind = .caret then do
      let (exponent, e₂) ← ask (.produce .factor true e₁)
      pure (e₂.checked (Arithmetic.power base exponent))
    else pure (base, e₁)
  | .produce .primary get e => operand (enter get e)
  | .name token e =>
    match token.symbol? with
    | none => pure (e.fail .primaryExpected)
    | some index =>
      if e.advance.current.kind = .equals then ask (.assignment index e.advance)
      else pure (e.advance.read index)
  | .assignment index e => do
    let (value, e₁) ← ask (.produce .expression true e)
    pure (e₁.assign index value)
  | .call token e =>
    match token.symbol? with
    | none => pure (e.fail .primaryExpected)
    | some index =>
      -- the function may be assigned a value, so the next token is looked at before it is taken
      if e.peek.1.kind = .equals then ask (.assignment index e.peek.2.advance)
      else if e.peek.2.advance.current.kind = .leftParen then
        arguments token.kind index e.peek.2.advance
      else pure (e.peek.2.advance.fail (.expected "("))
  | .statement e => do
    let e₁ ← ask (.blanks e.advance)
    if e₁.current.kind = .finish then pure (none, e₁)
    else do
      let (found, e₂) ← body e₁
      let e₃ ← conclude e₁.session.errorCount e₂
      pure (some found, e₃.rememberStatement found)
  | .blanks e =>
    if e.current.kind = .endOfStatement then ask (.blanks e.advance) else pure e
  | .rest e => if e.current.kind.endsStatement then pure e else ask (.rest e.advance)

/-- What the calls come to. -/
def answer : (c : ParseCall α) → c.Answer
  | .produce l get e => (enter get e).produce l
  | .sum left e => e.expressionRest left
  | .product left e => e.termRest left
  | .name token e =>
    match token.symbol? with
    | none => e.fail .primaryExpected
    | some index =>
      if e.advance.current.kind = .equals then e.advance.assignment index
      else e.advance.read index
  | .assignment index e => e.assignment index
  | .call token e =>
    match token.symbol? with
    | none => e.fail .primaryExpected
    | some index => e.advance.call token.kind index
  | .statement e => e.statement
  | .blanks e => if e.current.kind = .endOfStatement then e.toStatement else e
  | .rest e => e.skip

/-! ## What the calls come to -/

open Evaluation

theorem outcome_signed (e : Evaluation α) : (signed e).outcome answer = e.factor := by
  rw [factor_eq, signed]
  split
  · rfl
  · split <;> rfl

/-- Reading an operand comes to what a primary is. -/
theorem outcome_operand (e : Evaluation α) : (operand e).outcome answer = e.primary := by
  unfold operand
  -- by the kind of the current token, as in the production
  split
  case h_1 hk => rw [primary_of_number hk]; rfl
  case h_2 hk => rw [primary_of_name hk]; rfl
  case h_3 hk | h_4 hk | h_5 hk => rw [primary_of_function (by rw [hk]; rfl)]; rfl
  case h_6 hk => rw [primary_of_leftParen hk]; rfl
  case h_7 =>
    rw [primary_of_other]
    · rfl
    · cases hk : e.current.kind <;> first | rfl | contradiction

/-- Reading the arguments comes to what a call is. -/
theorem outcome_arguments (function : TokenKind) (index : Nat) {e : Evaluation α}
    (h : e.current.kind = .leftParen) :
    (arguments function index e).outcome answer = e.call function index := by
  unfold arguments
  split
  · rw [call_nullary index h]
    rfl
  · rw [call_unary index h]
    rfl
  · -- whatever is not called with none or one takes two arguments
    have hbinary : e.call function index = e.call .binary index := by
      unfold Evaluation.call
      rw [Production.call, Production.call]
      cases function <;> first | rfl | contradiction
    rw [hbinary, call_binary index h]
    show CallTree.outcome answer (if e.advance.expression.2.current.kind = .comma then _ else _) = _
    split
    · next hc => exact (if_pos hc).symm
    · next hc => exact (if_neg hc).symm

theorem outcome_body (e : Evaluation α) : (body e).outcome answer = e.body := by
  unfold body Evaluation.body
  rcases e.target with ⟨_ | index, e₁⟩
  · rfl
  · rfl

theorem outcome_conclude (reports : Nat) (e : Evaluation α) :
    (conclude reports e).outcome answer = e.conclude reports := by
  unfold conclude Evaluation.conclude
  split
  · rfl
  · split <;> rfl

/-- The first token of a statement is found by passing over ends of statements. -/
theorem answer_blanks_advance (e : Evaluation α) : answer (.blanks e.advance) = e.toStatement := by
  show (if _ then _ else _) = _
  split
  · next hk => rw [toStatement_of_endOfStatement hk]
  · next hk => rw [toStatement_of_ne hk]

/-- Each call comes to its answer, if the calls that it makes come to theirs. -/
theorem outcome_tree (c : ParseCall α) : (tree c).outcome answer = c.answer := by
  cases c with
  | produce l get e =>
    cases l with
    | expression => exact (expression_eq _).symm
    | term => exact (term_eq _).symm
    | factor => exact outcome_signed _
    | power =>
      show _ = (enter get e).power
      rw [power_eq]
      show CallTree.outcome answer
        (if (enter get e).primary.2.current.kind = .caret then _ else _) = _
      split
      · rfl
      · rfl
    | primary => exact outcome_operand _
  | sum left e =>
    show _ = e.expressionRest left
    rw [expressionRest_eq, tree]
    cases Operator.additive? e.current.kind <;> rfl
  | product left e =>
    show _ = e.termRest left
    rw [termRest_eq, tree]
    cases Operator.multiplicative? e.current.kind <;> rfl
  | name token e =>
    simp only [tree, answer]
    split
    · rfl
    · split <;> rfl
  | assignment index e => rfl
  -- what was looked at ahead is taken in all cases, so looking makes no difference
  | call token e =>
    simp only [tree, answer, fst_peek, advance_peek]
    split
    · rfl
    · next index _ =>
      split
      · next hk =>
        rw [call_of_equals _ _ hk, ← advance_peek e]
        rfl
      · next hk =>
        split
        · next hl => exact outcome_arguments _ _ hl
        · next hl => exact (call_of_other _ _ hk hl).symm
  | statement e =>
    simp only [tree, CallTree.outcome_bind, CallTree.outcome_ask, answer_blanks_advance]
    show _ = e.statement
    split
    · next hk => exact (statement_of_finish hk).symm
    · next hk =>
      rw [statement_of_ne_finish hk]
      simp only [CallTree.outcome_bind, outcome_body, outcome_conclude, CallTree.outcome_pure]
  | blanks e =>
    simp only [tree, answer]
    split
    · exact answer_blanks_advance e
    · rfl
  | rest e =>
    show _ = e.skip
    simp only [tree]
    split
    · next hk => exact (skip_of_endsStatement hk).symm
    · next hk => exact skip_advance (by simpa using hk)

/-! ## The calls that are made -/

/-- Which calls a call makes, and what is known of them. -/
inductive Makes : ParseCall α → ParseCall α → Prop
  | firstTerm {get : Bool} {e : Evaluation α} :
    Makes (.produce .expression get e) (.produce .term get e)
  | terms {get : Bool} {e : Evaluation α} :
    Makes (.produce .expression get e) (.sum (enter get e).term.1 (enter get e).term.2)
  | nextTerm {left : α} {e : Evaluation α} (h : e.current.kind.endsStatement = false) :
    Makes (.sum left e) (.produce .term true e)
  | moreTerms {left : α} {e : Evaluation α} (op : Operator)
      (h : e.current.kind.endsStatement = false) :
    Makes (.sum left e) (.sum (e.advance.term.2.operate op left e.advance.term.1).1
      (e.advance.term.2.operate op left e.advance.term.1).2)
  | firstFactor {get : Bool} {e : Evaluation α} :
    Makes (.produce .term get e) (.produce .factor get e)
  | factors {get : Bool} {e : Evaluation α} :
    Makes (.produce .term get e) (.product (enter get e).factor.1 (enter get e).factor.2)
  | nextFactor {left : α} {e : Evaluation α} (h : e.current.kind.endsStatement = false) :
    Makes (.product left e) (.produce .factor true e)
  | moreFactors {left : α} {e : Evaluation α} (op : Operator)
      (h : e.current.kind.endsStatement = false) :
    Makes (.product left e) (.product (e.advance.factor.2.operate op left e.advance.factor.1).1
      (e.advance.factor.2.operate op left e.advance.factor.1).2)
  | signed {get : Bool} {e : Evaluation α} (h : (enter get e).current.kind.endsStatement = false) :
    Makes (.produce .factor get e) (.produce .factor true (enter get e))
  | power {get : Bool} {e : Evaluation α} :
    Makes (.produce .factor get e) (.produce .power false (enter get e))
  | base {get : Bool} {e : Evaluation α} :
    Makes (.produce .power get e) (.produce .primary get e)
  | exponent {get : Bool} {e : Evaluation α}
      (h : (enter get e).primary.2.current.kind.endsStatement = false) :
    Makes (.produce .power get e) (.produce .factor true (enter get e).primary.2)
  | name {get : Bool} {e : Evaluation α} (h : (enter get e).current.kind.endsStatement = false) :
    Makes (.produce .primary get e) (.name (enter get e).current (enter get e))
  | call {get : Bool} {e : Evaluation α} (h : (enter get e).current.kind.endsStatement = false) :
    Makes (.produce .primary get e) (.call (enter get e).current (enter get e))
  | parenthesis {get : Bool} {e : Evaluation α}
      (h : (enter get e).current.kind.endsStatement = false) :
    Makes (.produce .primary get e) (.produce .expression true (enter get e))
  | assigned {token : Token α} {e : Evaluation α} (index : Nat)
      (h : e.advance.current.kind = .equals) : Makes (.name token e) (.assignment index e.advance)
  | value {index : Nat} {e : Evaluation α} :
    Makes (.assignment index e) (.produce .expression true e)
  | function {token : Token α} {e : Evaluation α} (index : Nat)
      (h : e.advance.current.kind = .equals) : Makes (.call token e) (.assignment index e.advance)
  | argument {token : Token α} {e : Evaluation α}
      (h : e.advance.current.kind.endsStatement = false) :
    Makes (.call token e) (.produce .expression true e.advance)
  | secondArgument {token : Token α} {e : Evaluation α}
      (h : e.advance.advance.expression.2.current.kind.endsStatement = false) :
    Makes (.call token e) (.produce .expression true e.advance.advance.expression.2)
  | start {e : Evaluation α} : Makes (.statement e) (.blanks e.advance)
  | target {e : Evaluation α} (index : Nat) (h : e.toStatement.advance.current.kind = .equals) :
    Makes (.statement e) (.assignment index e.toStatement.advance)
  | expression {e : Evaluation α} :
    Makes (.statement e) (.produce .expression false e.toStatement.target.2)
  | leftOver {e : Evaluation α} (h : e.toStatement.current.kind ≠ .finish) :
    Makes (.statement e) (.rest e.toStatement.body.2)
  | reported {e : Evaluation α} (problem : Problem) (h : e.toStatement.current.kind ≠ .finish) :
    Makes (.statement e) (.rest (e.toStatement.body.2.report problem))
  | blank {e : Evaluation α} (h : e.current.kind ≠ .finish) : Makes (.blanks e) (.blanks e.advance)
  | skipped {e : Evaluation α} (h : e.current.kind.endsStatement = false) :
    Makes (.rest e) (.rest e.advance)

/-- The calls made behind a sign, or where there is none. -/
theorem makes_signed {get : Bool} {e : Evaluation α} {c : ParseCall α}
    (h : c ∈ (signed (enter get e)).calls answer) : Makes (.produce .factor get e) c := by
  -- a minus, a plus, or no sign
  unfold signed at h
  split at h
  · next hk =>
    obtain rfl : c = .produce .factor true (enter get e) := by simpa using h
    exact .signed (by rw [hk]; rfl)
  split at h
  · next hk =>
    obtain rfl := List.mem_singleton.1 h
    exact .signed (by rw [hk]; rfl)
  · obtain rfl := List.mem_singleton.1 h
    exact .power

/-- The calls made at an operand. -/
theorem makes_operand {get : Bool} {e : Evaluation α} {c : ParseCall α}
    (h : c ∈ (operand (enter get e)).calls answer) : Makes (.produce .primary get e) c := by
  -- a name, a function and a parenthesis make calls; nothing else does
  unfold operand at h
  split at h
  case h_2 hk =>
    obtain rfl := List.mem_singleton.1 h
    exact .name (by rw [hk]; rfl)
  case h_3 hk | h_4 hk | h_5 hk =>
    obtain rfl := List.mem_singleton.1 h
    exact .call (by rw [hk]; rfl)
  case h_6 hk =>
    obtain rfl : c = .produce .expression true (enter get e) := by simpa using h
    exact .parenthesis (by rw [hk]; rfl)
  all_goals simp at h

/-- The calls made behind the parenthesis of a function. -/
theorem makes_arguments {token : Token α} {index : Nat} {e : Evaluation α} {c : ParseCall α}
    (hk : e.advance.current.kind = .leftParen)
    (h : c ∈ (arguments token.kind index e.advance).calls answer) : Makes (.call token e) c := by
  have hends : e.advance.current.kind.endsStatement = false := by rw [hk]; rfl
  unfold arguments at h
  split at h
  · simp at h
  · obtain rfl : c = .produce .expression true e.advance := by simpa using h
    exact .argument hends
  · rcases CallTree.mem_calls_ask_bind.1 h with rfl | h
    · exact .argument hends
    · -- the comma is looked for where the first argument ended
      change c ∈ CallTree.calls answer
        (if e.advance.advance.expression.2.current.kind = .comma then _ else _) at h
      split at h
      · next hcomma =>
        rcases CallTree.mem_calls_ask_bind.1 h with rfl | h
        · exact .secondArgument (by rw [hcomma]; rfl)
        · exact absurd h List.not_mem_nil
      · simp at h

/-- The name that a statement assigns is looked at only, and the sign behind it. -/
theorem advance_target (e : Evaluation α) : e.target.2.advance = e.advance := by
  unfold target
  split
  · exact e.advance_peek
  · rfl

/-- A name is assigned where `=` is behind it. -/
theorem kind_advance_of_target {e : Evaluation α} {index : Nat} (h : e.target.1 = some index) :
    e.advance.current.kind = .equals := by
  unfold target at h
  split at h
  · by_contra hk
    rw [← fst_peek] at hk
    simp [hk] at h
  · simp at h

/-- The calls made for the body of a statement. -/
theorem makes_body {e : Evaluation α} {c : ParseCall α}
    (h : c ∈ (body e.toStatement).calls answer) : Makes (.statement e) c := by
  unfold body at h
  split at h
  -- the target is followed by `=`, which is passed over
  · next index htarget =>
    obtain rfl : c = .assignment index e.toStatement.target.2.advance := by simpa using h
    have hk := kind_advance_of_target htarget
    rw [advance_target]
    exact .target index hk
  · obtain rfl : c = .produce .expression false e.toStatement.target.2 := by simpa using h
    exact .expression

/-- The calls made for what is left of a statement. -/
theorem makes_conclude {e : Evaluation α} (hk : e.toStatement.current.kind ≠ .finish)
    {reports : Nat} {c : ParseCall α}
    (h : c ∈ (conclude reports e.toStatement.body.2).calls answer) : Makes (.statement e) c := by
  -- nothing is left over, or what is left over is passed over, with an error or without
  unfold conclude at h
  split at h
  · simp at h
  split at h
  · obtain rfl := List.mem_singleton.1 h
    exact .reported _ hk
  · obtain rfl := List.mem_singleton.1 h
    exact .leftOver hk

/-- A call makes no other calls than these. -/
theorem makes_of_mem {c c' : ParseCall α} (h : c' ∈ (tree c).calls answer) : Makes c c' := by
  -- case by case, the calls of the tree are read off and named
  cases c with
  | produce l get e =>
    cases l with
    | expression =>
      rcases CallTree.mem_calls_ask_bind.1 h with rfl | h
      · exact .firstTerm
      · obtain rfl := List.mem_singleton.1 h
        exact .terms
    | term =>
      rcases CallTree.mem_calls_ask_bind.1 h with rfl | h
      · exact .firstFactor
      · obtain rfl := List.mem_singleton.1 h
        exact .factors
    | factor => exact makes_signed h
    | power =>
      rcases CallTree.mem_calls_ask_bind.1 h with rfl | h
      · exact .base
      · change c' ∈ CallTree.calls answer
          (if (enter get e).primary.2.current.kind = .caret then _ else _) at h
        split at h
        · next hk =>
          rcases CallTree.mem_calls_ask_bind.1 h with rfl | h
          · exact .exponent (by rw [hk]; rfl)
          · exact absurd h List.not_mem_nil
        · simp at h
    | primary => exact makes_operand h
  | sum left e =>
    simp only [tree] at h
    split at h
    · simp at h
    · next op ho =>
      have hends := Operator.endsStatement_of_additive? ho
      rcases CallTree.mem_calls_ask_bind.1 h with rfl | h
      · exact .nextTerm hends
      · obtain rfl := List.mem_singleton.1 h
        exact .moreTerms op hends
  | product left e =>
    simp only [tree] at h
    split at h
    · simp at h
    · next op ho =>
      have hends := Operator.endsStatement_of_multiplicative? ho
      rcases CallTree.mem_calls_ask_bind.1 h with rfl | h
      · exact .nextFactor hends
      · obtain rfl := List.mem_singleton.1 h
        exact .moreFactors op hends
  | name token e =>
    simp only [tree] at h
    split at h
    · simp at h
    · next index _ =>
      split at h
      · next hk =>
        obtain rfl := List.mem_singleton.1 h
        exact .assigned index hk
      · simp at h
  | assignment index e =>
    obtain rfl : c' = .produce .expression true e := by simpa [tree] using h
    exact .value
  | call token e =>
    simp only [tree, fst_peek, advance_peek] at h
    split at h
    · simp at h
    · next index _ =>
      split at h
      · next hk =>
        obtain rfl := List.mem_singleton.1 h
        rw [advance_peek]
        exact .function index hk
      split at h
      · next hl => exact makes_arguments hl h
      · simp at h
  | statement e =>
    rcases CallTree.mem_calls_ask_bind.1 h with rfl | h
    · exact .start
    -- what is called next depends on the token that passing over ends of statements comes to
    · rw [answer_blanks_advance] at h
      split at h
      · simp at h
      · next hk =>
        simp only [CallTree.calls_bind, CallTree.calls_pure, outcome_body, List.append_nil,
          List.mem_append] at h
        rcases h with h | h
        · exact makes_body h
        · exact makes_conclude hk h
  | blanks e =>
    simp only [tree] at h
    split at h
    · next hk =>
      obtain rfl := List.mem_singleton.1 h
      exact .blank (by rw [hk]; decide)
    · simp at h
  | rest e =>
    simp only [tree] at h
    split at h
    · simp at h
    · next hk =>
      obtain rfl := List.mem_singleton.1 h
      exact .skipped (by simpa using hk)

end ParseCall

end DeskCalc
