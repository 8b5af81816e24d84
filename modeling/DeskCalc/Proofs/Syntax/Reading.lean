import DeskCalc.Proofs.Syntax.Tree

/-!
# Reading along a tree

The productions decide as they go what the tokens mean. Here the tree is given instead, and the
tokens are taken as it says.

* `Tree.follow` — takes the tokens of a tree one by one, and evaluates each part of the tree as soon
  as the token behind it was taken.
* `Tree.Fits` — with a token of the given kind behind it, the tree is what the productions make of
  its tokens: nothing in it would take that token as its own.
* `Tree.movesTo_follow` — following a tree that fits takes the tokens of the tree.
* `Tree.produce_eq_follow` — where the run ahead starts with the tokens of a tree that fits, the
  production of its level follows the tree.
-/

namespace DeskCalc

variable {α : Type}

/-! ## The kind of the next token -/

/-- The kind of the first token of a run; behind the run the statement ends. -/
def nextKind (cs : List (Content α)) : TokenKind := (cs.head?.map Prod.fst).getD .endOfStatement

@[simp] theorem nextKind_nil : nextKind ([] : List (Content α)) = .endOfStatement := rfl

@[simp] theorem nextKind_cons (c : Content α) (cs : List (Content α)) :
    nextKind (c :: cs) = c.1 := rfl

/-- The kind of the token behind something, which may have a closing parenthesis of its own. -/
def behind (closed : Bool) (next : TokenKind) : TokenKind := if closed then .rightParen else next

/-- Behind an open parenthesis comes what follows, behind a closed one its mark. -/
theorem nextKind_closing (closed : Bool) (cs : List (Content α)) :
    nextKind (closing closed ++ cs) = behind closed (nextKind cs) := by
  cases closed <;> rfl

/-- The current token has the next kind, as far as the ends of statements are all alike. -/
theorem Evaluation.nextKind_upcoming [Arithmetic α] {β : Type} (f : TokenKind → β)
    (hf : f .finish = f .endOfStatement) (e : Evaluation α) :
    f (nextKind e.upcoming) = f e.current.kind := by
  cases hk : e.current.kind.endsStatement with
  | false =>
    rw [upcoming_of_not_endsStatement hk]
    rfl
  -- the run is empty, and `f` does not tell the two ends apart
  | true =>
    rw [upcoming_of_endsStatement hk, nextKind_nil]
    cases hkind : e.current.kind <;> simp_all [TokenKind.endsStatement]

/-- Within a statement, the current token has the kind that is next in the run. -/
theorem Evaluation.nextKind_upcoming_eq_iff [Arithmetic α] (e : Evaluation α) (kind : TokenKind)
    (hk : kind.endsStatement = false) : nextKind e.upcoming = kind ↔ e.current.kind = kind := by
  have h := e.nextKind_upcoming (fun k => decide (k = kind)) (by
    cases kind <;> simp_all [TokenKind.endsStatement])
  simpa using h

/-! ## Trees that fit -/

/-- With a token of the given kind behind it, nothing in the tree would go on with that token. The
operators of the level of the tree itself may still follow. -/
def Tree.Fits : {l : Level} → Tree α l → TokenKind → Prop
  | _, .term t, k => t.Fits k ∧ Operator.multiplicative? k = none
  | _, .sum left op _ right, k =>
    left.Fits op.mark ∧ right.Fits k ∧ Operator.multiplicative? k = none
  | _, .factor f, k => f.Fits k
  | _, .product left op _ right, k => left.Fits op.mark ∧ right.Fits k
  | _, .power p, k => p.Fits k ∧ (p.yield = [] → k ≠ .minus ∧ k ≠ .plus)
  | _, .sign _ operand, k => operand.Fits k
  | _, .primary p, k => p.Fits k ∧ k ≠ .caret
  | _, .raise base exponent, k => base.Fits .caret ∧ exponent.Fits k
  | _, .number _, _ => True
  | _, .name _, k => k ≠ .equals
  | _, .assign _ _ _ right, k => right.Fits k ∧ Operator.additive? k = none
  | _, .paren inner closed, k =>
    inner.Fits (behind closed k) ∧ Operator.additive? (behind closed k) = none ∧
      (closed = false → k ≠ .rightParen)
  | _, .nullary _ closed, k => closed = false → k ≠ .rightParen
  | _, .unary _ x closed, k =>
    x.Fits (behind closed k) ∧ Operator.additive? (behind closed k) = none ∧
      (closed = false → k ≠ .rightParen)
  | _, .binary _ x y closed, k =>
    x.Fits .comma ∧ y.Fits (behind closed k) ∧ Operator.additive? (behind closed k) = none ∧
      (closed = false → k ≠ .rightParen)
  | _, .halfBinary _ x, k => x.Fits k ∧ Operator.additive? k = none ∧ k ≠ .comma
  | _, .function _ _ _, k => k ≠ .equals ∧ k ≠ .leftParen
  | _, .missing, k => Evaluation.startsPrimary k = false

variable [Arithmetic α]

/-- Takes the tokens of the tree and evaluates it on the way. -/
def Tree.follow : {l : Level} → Tree α l → Evaluation α → α × Evaluation α
  | _, .term t, e => t.follow e
  | _, .sum left op _ right, e =>
    let r := left.follow e
    let r' := right.follow r.2.advance
    r'.2.operate op r.1 r'.1
  | _, .factor f, e => f.follow e
  | _, .product left op _ right, e =>
    let r := left.follow e
    let r' := right.follow r.2.advance
    r'.2.operate op r.1 r'.1
  | _, .power p, e => p.follow e
  | _, .sign negative operand, e =>
    let r := operand.follow e.advance
    (if negative then -r.1 else r.1, r.2)
  | _, .primary p, e => p.follow e
  | _, .raise base exponent, e =>
    let r := base.follow e
    let r' := exponent.follow r.2.advance
    r'.2.checked (Arithmetic.power r.1 r'.1)
  | _, .number value, e => (value, e.advance)
  | _, .name index, e => e.advance.read index
  | _, .assign _ _ index right, e =>
    let r := right.follow e.advance.advance
    r.2.assign index r.1
  | _, .paren inner _, e =>
    let r := inner.follow e.advance
    (r.1, r.2.close)
  | _, .nullary index _, e => e.advance.advance.finishCall index []
  | _, .unary index x _, e =>
    let r := x.follow e.advance.advance
    r.2.finishCall index [r.1]
  | _, .binary index x y _, e =>
    let r := x.follow e.advance.advance
    let r' := y.follow r.2.advance
    r'.2.finishCall index [r.1, r'.1]
  | _, .halfBinary _ x, e => (x.follow e.advance.advance).2.fail (.expected ",")
  | _, .function _ _ _, e => e.advance.fail (.expected "(")
  | _, .missing, e => e.fail .primaryExpected

namespace Evaluation

/-! ## Moving along the run -/

/-- A move along the run ahead that leaves the given rest of it. -/
def MovesTo (e e' : Evaluation α) (rest : List (Content α)) : Prop :=
  Reaches e e' ∧ e'.upcoming = rest

theorem movesTo_advance {e : Evaluation α} {c : Content α} {rest : List (Content α)}
    (h : e.upcoming = c :: rest) : MovesTo e e.advance rest :=
  ⟨reaches_advance (of_upcoming_eq_cons h).1, (of_upcoming_eq_cons h).2.2⟩

theorem MovesTo.trans {e e' e'' : Evaluation α} {rest rest' : List (Content α)}
    (h : MovesTo e e' rest) (h' : MovesTo e' e'' rest') : MovesTo e e'' rest' :=
  ⟨h.1.trans h'.1, h'.2⟩

/-- Taking a token after a move. -/
theorem MovesTo.advance {e e' : Evaluation α} {c : Content α} {rest : List (Content α)}
    (h : MovesTo e e' (c :: rest)) : MovesTo e e'.advance rest :=
  h.trans (movesTo_advance h.2)

/-- Evaluating something after a move takes no token. -/
theorem MovesTo.act {e e' e'' : Evaluation α} {rest : List (Content α)} (h : MovesTo e e' rest)
    (hreach : Reaches e' e'') (hview : e''.view = e'.view) : MovesTo e e'' rest :=
  ⟨h.1.trans hreach, (upcoming_congr hview).trans h.2⟩

/-- A closing parenthesis is taken where there is one. -/
theorem close_eq {e : Evaluation α} {closed : Bool} {rest : List (Content α)}
    (h : e.upcoming = closing closed ++ rest)
    (hopen : closed = false → nextKind rest ≠ .rightParen) :
    e.close = if closed then e.advance else e.report (.expected ")") := by
  have hk := e.nextKind_upcoming_eq_iff .rightParen rfl
  rw [h, nextKind_closing] at hk
  unfold close
  cases closed with
  | true => rw [if_pos (hk.1 rfl), if_pos rfl]
  | false => rw [if_neg (fun hc => hopen rfl (hk.2 hc)), if_neg (by simp)]

/-- An argument list is closed where a parenthesis is, and else the call fails. -/
theorem finishCall_eq {e : Evaluation α} {closed : Bool} {rest : List (Content α)}
    (h : e.upcoming = closing closed ++ rest) (hopen : closed = false → nextKind rest ≠ .rightParen)
    (index : Nat) (arguments : List α) :
    e.finishCall index arguments =
      if closed then e.advance.apply index arguments else e.fail (.expected ")") := by
  -- the run ahead tells the current token
  have hk := e.nextKind_upcoming_eq_iff .rightParen rfl
  rw [h, nextKind_closing] at hk
  unfold finishCall
  cases closed with
  | true => rw [if_pos (hk.1 rfl), if_pos rfl]
  | false => rw [if_neg (fun hc => hopen rfl (hk.2 hc)), if_neg (by simp)]

/-- Closing a parenthesis takes its token, if there is one. -/
theorem MovesTo.close {e e' : Evaluation α} {closed : Bool} {rest : List (Content α)}
    (h : MovesTo e e' (closing closed ++ rest))
    (hopen : closed = false → nextKind rest ≠ .rightParen) : MovesTo e e'.close rest := by
  rw [close_eq h.2 hopen]
  cases closed with
  | true => exact h.advance
  | false => exact h.act (reaches_fail (.expected ")") e') (view_fail (.expected ")") e')

/-- Closing an argument list takes its token, if there is one. -/
theorem MovesTo.finishCall {e e' : Evaluation α} {closed : Bool} {rest : List (Content α)}
    (h : MovesTo e e' (closing closed ++ rest))
    (hopen : closed = false → nextKind rest ≠ .rightParen) (index : Nat) (arguments : List α) :
    MovesTo e (e'.finishCall index arguments).2 rest := by
  rw [finishCall_eq h.2 hopen]
  cases closed with
  | true => exact h.advance.act (reaches_apply index arguments _) (view_apply index arguments _)
  | false => exact h.act (reaches_fail (.expected ")") e') (view_fail (.expected ")") e')

end Evaluation

open Evaluation

/-- Following a tree that fits takes the tokens of the tree. -/
theorem Tree.movesTo_follow {l : Level} (t : Tree α l) {e : Evaluation α}
    {rest : List (Content α)} (h : e.upcoming = t.yield ++ rest) (hfits : t.Fits (nextKind rest)) :
    MovesTo e (t.follow e).2 rest := by
  -- by induction on the tree: each part takes its own tokens, and evaluating takes none
  induction t generalizing e rest with
  | term t ih => exact ih h hfits.1
  | factor f ih => exact ih h hfits
  | power p ih => exact ih h hfits.1
  | primary p ih => exact ih h hfits.1
  | sum left op hop right ihl ihr =>
    obtain ⟨hleft, hright, -⟩ := hfits
    simp only [yield, List.append_assoc, List.cons_append] at h
    have hl := ihl h hleft
    have hr := hl.advance.trans (ihr hl.advance.2 hright)
    exact hr.act (reaches_operate _ _ _ _) (view_operate _ _ _ _)
  | product left op hop right ihl ihr =>
    obtain ⟨hleft, hright⟩ := hfits
    simp only [yield, List.append_assoc, List.cons_append] at h
    have hl := ihl h hleft
    have hr := hl.advance.trans (ihr hl.advance.2 hright)
    exact hr.act (reaches_operate _ _ _ _) (view_operate _ _ _ _)
  | raise base exponent ihb ihx =>
    obtain ⟨hbase, hexponent⟩ := hfits
    simp only [yield, List.append_assoc, List.cons_append] at h
    have hb := ihb h hbase
    have hx := hb.advance.trans (ihx hb.advance.2 hexponent)
    exact hx.act (reaches_checked _ _) (view_checked _ _)
  | sign negative operand ih =>
    have hs := movesTo_advance h
    exact hs.trans (ih hs.2 hfits)
  | number value => exact movesTo_advance h
  | name index =>
    exact (movesTo_advance h).act (reaches_read index _) (view_read index _)
  | assign kind hkind index right ih =>
    have hr := (movesTo_advance h).advance
    exact (hr.trans (ih hr.2 hfits.1)).act (reaches_assign _ _ _) (view_assign _ _ _)
  | paren inner closed ih =>
    obtain ⟨hinner, -, hopen⟩ := hfits
    simp only [yield, List.append_assoc, List.cons_append] at h
    have hp := movesTo_advance h
    exact (hp.trans (ih hp.2 (by rwa [nextKind_closing]))).close hopen
  | nullary index closed =>
    exact (movesTo_advance h).advance.finishCall hfits index []
  | unary index x closed ih =>
    obtain ⟨hx, -, hopen⟩ := hfits
    simp only [yield, List.append_assoc, List.cons_append] at h
    have hp := (movesTo_advance h).advance
    exact (hp.trans (ih hp.2 (by rwa [nextKind_closing]))).finishCall hopen _ _
  | binary index x y closed ihx ihy =>
    obtain ⟨hx, hy, -, hopen⟩ := hfits
    simp only [yield, List.append_assoc, List.cons_append] at h
    have hp := (movesTo_advance h).advance
    have hc := (hp.trans (ihx hp.2 hx)).advance
    exact (hc.trans (ihy hc.2 (by rwa [nextKind_closing]))).finishCall hopen _ _
  | halfBinary index x ih =>
    have hp := (movesTo_advance h).advance
    exact (hp.trans (ih hp.2 hfits.1)).act (reaches_fail _ _) (view_fail _ _)
  | function kind hkind index =>
    exact (movesTo_advance h).act (reaches_fail _ _) (view_fail _ _)
  | missing => exact ⟨reaches_fail _ e, (upcoming_congr (view_fail _ e)).trans h⟩

/-! ## Productions follow trees -/

namespace Evaluation

/-- The production of a level. -/
def produce : Level → Evaluation α → α × Evaluation α
  | .expression, e => e.expression
  | .term, e => e.term
  | .factor, e => e.factor
  | .power, e => e.power
  | .primary, e => e.primary

/-- What a production does with a first part of its level: where there are operators that group to
the left, it looks for more of them. -/
def proceed : Level → α × Evaluation α → α × Evaluation α
  | .expression, r => r.2.expressionRest r.1
  | .term, r => r.2.termRest r.1
  | _, r => r

/-- The operators of the level do not go on with the token. -/
def Stops : Level → TokenKind → Prop
  | .expression, k => Operator.additive? k = none
  | .term, k => Operator.multiplicative? k = none
  | _, _ => True

/-- Where the operators of the level do not go on, a production has ended. -/
theorem proceed_eq {l : Level} {r : α × Evaluation α} (h : Stops l (nextKind r.2.upcoming)) :
    proceed l r = r := by
  -- only expressions and terms go on, each with its own operators
  cases l with
  | expression =>
    have hk : Operator.additive? r.2.current.kind = none := by
      rw [← r.2.nextKind_upcoming Operator.additive? rfl]
      exact h
    rw [proceed, expressionRest_eq, hk]
  | term =>
    have hk : Operator.multiplicative? r.2.current.kind = none := by
      rw [← r.2.nextKind_upcoming Operator.multiplicative? rfl]
      exact h
    rw [proceed, termRest_eq, hk]
  | factor => rfl
  | power => rfl
  | primary => rfl

end Evaluation

theorem ne_of_isName {kind kind' : TokenKind} (h : kind.isName = true) (h' : kind'.isName = false) :
    kind ≠ kind' := by
  rintro rfl
  simp [h] at h'

theorem isName_of_arity? {kind : TokenKind} (h : kind.arity?.isSome = true) :
    kind.isName = true := by
  simp [TokenKind.isName, h]

omit [Arithmetic α] in
/-- The tokens of a power do not start with a sign. -/
theorem Tree.nextKind_power (p : Tree α .power) (h : p.yield ≠ []) (rest : List (Content α)) :
    nextKind (p.yield ++ rest) ≠ .minus ∧ nextKind (p.yield ++ rest) ≠ .plus := by
  -- a primary does not, and a power starts with one unless that is missing
  have primary (q : Tree α .primary) (rest : List (Content α)) (hq : q.yield ≠ []) :
      nextKind (q.yield ++ rest) ≠ .minus ∧ nextKind (q.yield ++ rest) ≠ .plus := by
    cases q with
    | number => simp [yield]
    | name => simp [yield]
    | assign kind hkind => exact ⟨ne_of_isName hkind rfl, ne_of_isName hkind rfl⟩
    | paren => simp [yield]
    | nullary => simp [yield]
    | unary => simp [yield]
    | binary => simp [yield]
    | halfBinary => simp [yield]
    | function kind hkind =>
      have hname := isName_of_arity? hkind
      exact ⟨ne_of_isName hname rfl, ne_of_isName hname rfl⟩
    | missing => simp [yield] at hq
  cases p with
  | primary q => exact primary q rest h
  | raise base exponent =>
    simp only [yield, List.append_assoc]
    by_cases hb : base.yield = []
    · simp [hb]
    · exact primary base _ hb

namespace Evaluation

/-- A name at the front of the run, and where its place in the table is. -/
theorem of_upcoming_eq_symbol {e : Evaluation α} {kind : TokenKind} {index : Nat}
    {rest : List (Content α)} (h : e.upcoming = (kind, .symbol index) :: rest) :
    e.current.kind = kind ∧ e.current.symbol? = some index := by
  obtain ⟨-, hcontent, -⟩ := of_upcoming_eq_cons h
  refine ⟨congrArg Prod.fst hcontent, ?_⟩
  rw [Token.symbol?, show e.current.payload = .symbol index from congrArg Prod.snd hcontent]

/-- A token without payload behind the front of the run. -/
theorem kind_advance_of_upcoming {e : Evaluation α} {c : Content α} {kind : TokenKind}
    {rest : List (Content α)} (h : e.upcoming = c :: .mark kind :: rest) :
    e.advance.current.kind = kind :=
  congrArg Prod.fst (of_upcoming_eq_cons (of_upcoming_eq_cons h).2.2).2.1

/-- A function at the front of the run is called. -/
theorem primary_eq_call {e : Evaluation α} {kind : TokenKind} {index : Nat}
    {rest : List (Content α)} (h : e.upcoming = (kind, .symbol index) :: rest)
    (hkind : kind.arity?.isSome = true) : e.primary = e.advance.call kind index := by
  obtain ⟨hk, hsymbol⟩ := of_upcoming_eq_symbol h
  rw [primary_of_function (by rwa [hk]), hsymbol, hk]

/-- Behind a tree that the operators of its level do not go on with, the production is done. -/
theorem produce_eq_of_proceed {l : Level} {e e' : Evaluation α} {r : α × Evaluation α}
    {rest : List (Content α)} (h : e.produce l = proceed l r) (hmoved : MovesTo e' r.2 rest)
    (hstop : Stops l (nextKind rest)) : e.produce l = r :=
  h.trans (proceed_eq (by rwa [hmoved.2]))

end Evaluation

/-- Where the run ahead starts with the tokens of a tree that fits, the production of its level
follows the tree. -/
theorem Tree.produce_eq_follow {l : Level} (t : Tree α l) {e : Evaluation α} (hs : e.Settled)
    {rest : List (Content α)} (h : e.upcoming = t.yield ++ rest) (hfits : t.Fits (nextKind rest)) :
    e.produce l = proceed l (t.follow e) := by
  induction t generalizing e rest with
  | term t ih =>
    have hmoved := t.movesTo_follow h hfits.1
    have hterm : e.term = t.follow e := produce_eq_of_proceed (ih hs h hfits.1) hmoved hfits.2
    show e.expression = (t.follow e).2.expressionRest (t.follow e).1
    rw [expression_eq, hterm]
  | factor f ih =>
    show e.term = (f.follow e).2.termRest (f.follow e).1
    rw [term_eq, show e.factor = f.follow e from ih hs h hfits]
  | power p ih =>
    -- a power starts with no sign, and if it has no tokens, none follows it
    have hsign : nextKind e.upcoming ≠ .minus ∧ nextKind e.upcoming ≠ .plus := by
      rw [h]
      by_cases hnil : p.yield = []
      · simpa [yield, hnil] using hfits.2 hnil
      · exact p.nextKind_power hnil rest
    show e.factor = p.follow e
    rw [factor_eq, if_neg (fun hk => hsign.1 ((e.nextKind_upcoming_eq_iff _ rfl).2 hk)),
      if_neg (fun hk => hsign.2 ((e.nextKind_upcoming_eq_iff _ rfl).2 hk))]
    exact ih hs h hfits.1
  | primary p ih =>
    have hp : e.primary = p.follow e := ih hs h hfits.1
    -- no exponent follows, since the tree fits
    have hcaret := (p.follow e).2.nextKind_upcoming_eq_iff .caret rfl
    rw [(p.movesTo_follow h hfits.1).2] at hcaret
    show e.power = p.follow e
    rw [power_eq, hp, if_neg (fun hk => hfits.2 (hcaret.2 hk))]
  | sum left op hop right ihl ihr =>
    obtain ⟨hleft, hright, hstop⟩ := hfits
    simp only [yield, List.append_assoc, List.cons_append] at h
    have hl := left.movesTo_follow h hleft
    have hr := right.movesTo_follow hl.advance.2 hright
    -- the loop over the terms has come to `op`, with the value of `left` so far
    have hloop : e.expression = (left.follow e).2.expressionRest (left.follow e).1 :=
      ihl hs h hleft
    have hmark : Operator.additive? (left.follow e).2.current.kind = some op := by
      rw [← Evaluation.nextKind_upcoming Operator.additive? rfl, hl.2]
      exact hop
    have hterm : (left.follow e).2.advance.term = right.follow (left.follow e).2.advance :=
      produce_eq_of_proceed (ihr (hl.1.settled hs).advance hl.advance.2 hright) hr hstop
    show e.expression = _
    rw [hloop, expressionRest_eq, hmark]
    simp only [hterm]
    rfl
  | product left op hop right ihl ihr =>
    obtain ⟨hleft, hright⟩ := hfits
    simp only [yield, List.append_assoc, List.cons_append] at h
    have hl := left.movesTo_follow h hleft
    -- the loop over the factors has come to `op`, as for a sum
    have hloop : e.term = (left.follow e).2.termRest (left.follow e).1 := ihl hs h hleft
    have hmark : Operator.multiplicative? (left.follow e).2.current.kind = some op := by
      rw [← Evaluation.nextKind_upcoming Operator.multiplicative? rfl, hl.2]
      exact hop
    have hfactor : (left.follow e).2.advance.factor = right.follow (left.follow e).2.advance :=
      ihr (hl.1.settled hs).advance hl.advance.2 hright
    show e.term = _
    rw [hloop, termRest_eq, hmark]
    simp only [hfactor]
    rfl
  | raise base exponent ihb ihx =>
    obtain ⟨hbase, hexponent⟩ := hfits
    simp only [yield, List.append_assoc, List.cons_append] at h
    have hb := base.movesTo_follow h hbase
    have hp : e.primary = base.follow e := ihb hs h hbase
    have hcaret : (base.follow e).2.current.kind = .caret := by
      rw [← Evaluation.nextKind_upcoming_eq_iff _ _ rfl, hb.2]
      rfl
    have hfactor : (base.follow e).2.advance.factor = exponent.follow (base.follow e).2.advance :=
      ihx (hb.1.settled hs).advance hb.advance.2 hexponent
    show e.power = _
    rw [power_eq, hp, if_pos hcaret]
    simp only [hfactor]
    rfl
  | sign negative operand ih =>
    have hkind : e.current.kind = signMark negative :=
      congrArg Prod.fst (of_upcoming_eq_cons h).2.1
    have hfactor : e.advance.factor = operand.follow e.advance :=
      ih hs.advance (movesTo_advance h).2 hfits
    show e.factor = _
    rw [factor_eq, hkind, hfactor]
    cases negative <;> rfl
  | number value =>
    obtain ⟨-, hcontent, -⟩ := of_upcoming_eq_cons h
    have hkind : e.current.kind = .number := congrArg Prod.fst hcontent
    have hvalue : e.current.number? = some value := by
      rw [Token.number?, show e.current.payload = .number value from congrArg Prod.snd hcontent]
    show e.primary = _
    rw [primary_of_number hkind, hvalue]
    rfl
  | name index =>
    obtain ⟨hkind, hsymbol⟩ := of_upcoming_eq_symbol h
    have hequals := e.advance.nextKind_upcoming_eq_iff .equals rfl
    rw [(movesTo_advance h).2] at hequals
    show e.primary = _
    rw [primary_of_name hkind, hsymbol]
    exact if_neg fun hk => hfits (hequals.2 hk)
  | assign kind hkind index right ih =>
    have hright := (movesTo_advance h).advance
    obtain ⟨hkind', hsymbol⟩ := of_upcoming_eq_symbol h
    have hequals : e.advance.current.kind = .equals := kind_advance_of_upcoming h
    have hexpression : e.advance.advance.expression = right.follow e.advance.advance :=
      produce_eq_of_proceed (ih hs.advance.advance hright.2 hfits.1)
        (right.movesTo_follow hright.2 hfits.1) hfits.2
    have hassign : e.advance.assignment index = (assign kind hkind index right).follow e := by
      rw [assignment, hexpression]
      rfl
    show e.primary = _
    -- the names of functions and other names are read by different branches
    cases hfunction : kind.arity?.isSome with
    | true => exact (primary_eq_call h hfunction).trans ((call_of_equals _ _ hequals).trans hassign)
    | false =>
      have hname : kind = .name := by simpa [TokenKind.isName, hfunction] using hkind
      rw [primary_of_name (hkind'.trans hname), hsymbol]
      exact (if_pos hequals).trans hassign
  | paren inner closed ih =>
    obtain ⟨hinner, hstop, -⟩ := hfits
    simp only [yield, List.append_assoc, List.cons_append] at h
    rw [← nextKind_closing] at hinner hstop
    have hmoved := movesTo_advance h
    have hkind : e.current.kind = .leftParen := congrArg Prod.fst (of_upcoming_eq_cons h).2.1
    have hexpression : e.advance.expression = inner.follow e.advance :=
      produce_eq_of_proceed (ih hs.advance hmoved.2 hinner) (inner.movesTo_follow hmoved.2 hinner)
        hstop
    show e.primary = _
    rw [primary_of_leftParen hkind, hexpression]
    rfl
  | nullary index closed =>
    show e.primary = _
    rw [primary_eq_call h rfl, call_nullary _ (kind_advance_of_upcoming h)]
    rfl
  | unary index x closed ih =>
    obtain ⟨hx, hstop, -⟩ := hfits
    simp only [yield, List.append_assoc, List.cons_append] at h
    rw [← nextKind_closing] at hx hstop
    have hmoved := (movesTo_advance h).advance
    have hexpression : e.advance.advance.expression = x.follow e.advance.advance :=
      produce_eq_of_proceed (ih hs.advance.advance hmoved.2 hx) (x.movesTo_follow hmoved.2 hx)
        hstop
    show e.primary = _
    rw [primary_eq_call h rfl, call_unary _ (kind_advance_of_upcoming h), hexpression]
    rfl
  | binary index x y closed ihx ihy =>
    obtain ⟨hx, hy, hstop, -⟩ := hfits
    simp only [yield, List.append_assoc, List.cons_append] at h
    rw [← nextKind_closing] at hy hstop
    have hmoved := (movesTo_advance h).advance
    have hcomma := x.movesTo_follow hmoved.2 hx
    have hfirst : e.advance.advance.expression = x.follow e.advance.advance :=
      produce_eq_of_proceed (ihx hs.advance.advance hmoved.2 hx) hcomma rfl
    have hkind : (x.follow e.advance.advance).2.current.kind = .comma :=
      congrArg Prod.fst (of_upcoming_eq_cons hcomma.2).2.1
    -- the second argument starts in the state that the first one left
    have hsettled := (hcomma.1.settled hs.advance.advance).advance
    have hsecond : (x.follow e.advance.advance).2.advance.expression =
        y.follow (x.follow e.advance.advance).2.advance :=
      produce_eq_of_proceed (ihy hsettled hcomma.advance.2 hy)
        (y.movesTo_follow hcomma.advance.2 hy) hstop
    show e.primary = _
    rw [primary_eq_call h rfl, call_binary _ (kind_advance_of_upcoming h), hfirst]
    simp only [if_pos hkind, hsecond]
    rfl
  | halfBinary index x ih =>
    obtain ⟨hx, hstop, hcomma⟩ := hfits
    have hmoved := (movesTo_advance h).advance
    have hend := x.movesTo_follow hmoved.2 hx
    have hfirst : e.advance.advance.expression = x.follow e.advance.advance :=
      produce_eq_of_proceed (ih hs.advance.advance hmoved.2 hx) hend hstop
    have hkind := (x.follow e.advance.advance).2.nextKind_upcoming_eq_iff .comma rfl
    rw [hend.2] at hkind
    show e.primary = _
    rw [primary_eq_call h rfl, call_binary _ (kind_advance_of_upcoming h), hfirst]
    exact if_neg fun hk => hcomma (hkind.2 hk)
  | function kind hkind index =>
    -- neither a call nor an assignment follows, since the tree fits
    have hnext := (movesTo_advance h).2
    have hequals := e.advance.nextKind_upcoming_eq_iff .equals rfl
    have hopen := e.advance.nextKind_upcoming_eq_iff .leftParen rfl
    rw [hnext] at hequals hopen
    show e.primary = _
    rw [primary_eq_call h hkind, call_of_other kind index
      (fun hk => hfits.1 (hequals.2 hk)) (fun hk => hfits.2 (hopen.2 hk))]
    rfl
  | missing =>
    show e.primary = _
    refine primary_of_other ?_
    rw [← Evaluation.nextKind_upcoming startsPrimary rfl, h]
    exact hfits

end DeskCalc
