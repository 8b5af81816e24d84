import DeskCalc.Proofs.Progress.Parsing

/-!
# Reading a statement ends

Productions hand over to tighter ones at the same token, give up without taking it, and find the end
of the input as often as they look. So it is neither the input alone nor the grammar alone that makes
reading end: a call is made behind a token that was taken, or by a looser production at the same
token.

* `ParseCall.rank` — counts what is to come first, and then which calls hand over to which;
  `Makes.rank_lt` compares a call with those that it makes.
* `solved_parse` — so every call ends, nested no deeper than what is to come allows (`rank_lt`).
* `Cautious`, `Cautious.of_involves` — a production takes its first token itself only behind a token
  that does not end the statement, in whatever call.
* `Evaluation.Consumes` — the token is consumed then (`consumes_produce`), and so is the operator
  that a round of a sum or a product starts with (`consumes_sum`, `consumes_product`).
-/

namespace DeskCalc

variable {α : Type} [Arithmetic α]

namespace Evaluation

/-! ## What is to come -/

/-- The token that is taken was to come. -/
theorem ahead_advance_le_pending (e : Evaluation α) : e.advance.ahead ≤ e.pending :=
  e.pending_advance

theorem ahead_advance_le (e : Evaluation α) : e.advance.ahead ≤ e.ahead :=
  Nat.le_trans e.pending_advance (Nat.le_add_right _ _)

/-- What was moved on from is not to come any more. -/
theorem ahead_lt_of_reaches {e e' : Evaluation α} (h : e.current.kind.endsStatement = false)
    (hreaches : Reaches e.advance e') : e'.ahead < e.ahead :=
  Nat.lt_of_le_of_lt hreaches.ahead_le (ahead_advance_lt h)

theorem ahead_peek_le (e : Evaluation α) : e.peek.2.ahead ≤ e.ahead := by
  simp only [ahead, current_peek]
  exact Nat.add_le_add_right e.pending_peek_le _

theorem ahead_target_le (e : Evaluation α) : e.target.2.ahead ≤ e.ahead := by
  unfold target
  split
  · exact ahead_peek_le e
  · exact Nat.le_refl _

theorem ahead_toStatement_le (e : Evaluation α) : e.toStatement.ahead ≤ e.ahead :=
  Nat.le_trans e.pending_toStatement (Nat.le_add_right _ _)

theorem ahead_body_le {e : Evaluation α} (h : e.current.kind ≠ .finish) :
    e.body.2.ahead ≤ e.ahead := by
  have hbody := e.pending_body_le
  have hone : (if e.body.2.current.kind = .finish then 0 else 1) ≤ 1 := by split <;> omega
  simp only [ahead, h, if_false]
  omega

/-! ## Tokens that are consumed -/

/-- One evaluation leads to the other by taking the current token, and perhaps more of the tokens up
to the end of the statement. -/
structure Consumes (e e' : Evaluation α) : Prop where
  taken : ∃ n, 0 < n ∧ n ≤ e.upcoming.length ∧ e'.view = (advance^[n] e).view ∧
    e'.upcoming = e.upcoming.drop n
  ahead_lt : e'.ahead < e.ahead

/-- What is moved on from is consumed. -/
theorem consumes_of_reaches {e e' : Evaluation α} (h : e.current.kind.endsStatement = false)
    (hreaches : Reaches e.advance e') : e.Consumes e' := by
  -- the token in front comes in addition to those that were taken behind it
  obtain ⟨n, hn, hview, hup⟩ := hreaches.exists_iterate
  have hcons := upcoming_of_not_endsStatement h
  refine ⟨⟨n + 1, Nat.succ_pos n, ?_, hview, ?_⟩, ahead_lt_of_reaches h hreaches⟩
  · rw [hcons]
    exact Nat.succ_le_succ hn
  · rw [hcons]
    exact hup

/-- The production of a level is made of steps. -/
theorem reaches_produce (l : Level) (e : Evaluation α) : Reaches e (e.produce l).2 := by
  cases l with
  | expression => exact reaches_expression e
  | term => exact reaches_term e
  | factor => exact reaches_factor e
  | power => exact reaches_power e
  | primary => exact reaches_primary e

end Evaluation

namespace ParseCall

open Evaluation

/-! ## Every call leads to calls of lower rank -/

omit [Arithmetic α] in
/-- The evaluation that a call is made in. -/
def input : ParseCall α → Evaluation α
  | .produce _ _ e | .sum _ e | .product _ e | .name _ e | .assignment _ e | .call _ e
  | .statement e | .blanks e | .rest e => e

/-- The tighter the level, the lower its rank. -/
def levelRank : Level → Nat
  | .expression => 6
  | .term => 4
  | .factor => 2
  | .power => 1
  | .primary => 0

/-- A bound for the calls that a call leads to, one inside the other. What is to come counts first,
and for the calls that are made at the same token, which of them may hand over to which. -/
def rank : ParseCall α → Nat
  | .produce l get e => 10 * (enter get e).ahead + levelRank l
  | .sum _ e => 10 * e.ahead + 5
  | .product _ e => 10 * e.ahead + 3
  | .name _ e | .call _ e => 10 * e.advance.ahead + 9
  | .assignment _ e => 10 * e.advance.ahead + 8
  | .statement e => 10 * e.ahead + 9
  | .blanks e | .rest e => 10 * e.ahead

theorem ahead_enter_le (get : Bool) (e : Evaluation α) : (enter get e).ahead ≤ e.ahead := by
  cases get with
  | true => exact ahead_advance_le e
  | false => exact Nat.le_refl _

/-- What is to come bounds the rank of a call. -/
theorem rank_lt (c : ParseCall α) : c.rank < 10 * (c.input.ahead + 1) := by
  cases c with
  | produce l get e =>
    have henter := ahead_enter_le get e
    -- the rank counts what is to come first, and the kind of the call second, which stays below ten
    have hlevel : levelRank l ≤ 6 := by cases l <;> decide
    simp only [rank, input]
    omega
  | name token e | call token e | assignment index e =>
    have hadvance := ahead_advance_le e
    simp only [rank, input]
    omega
  | sum left e | product left e | statement e | blanks e | rest e =>
    simp only [rank, input]
    omega

/-- A call has a higher rank than the calls it makes. -/
theorem Makes.rank_lt {c c' : ParseCall α} (h : Makes c c') : c'.rank < c.rank := by
  -- calls at the same token are ordered by their levels, all others have less to come
  cases h with
  | firstTerm | firstFactor | power | base => exact Nat.add_lt_add_left (by decide) _
  | @terms get e =>
    have hle := (reaches_term (enter get e)).ahead_le
    simp only [rank, levelRank]
    omega
  | @factors get e =>
    have hle := (reaches_factor (enter get e)).ahead_le
    simp only [rank, levelRank]
    omega
  | nextTerm h | nextFactor h =>
    have hlt := ahead_advance_lt h
    simp only [rank, levelRank, enter, if_true]
    omega
  | @moreTerms left e op h =>
    have hlt := ahead_lt_of_reaches h ((reaches_term e.advance).trans
      (reaches_operate op left e.advance.term.1 e.advance.term.2))
    simp only [rank]
    omega
  | @moreFactors left e op h =>
    have hlt := ahead_lt_of_reaches h ((reaches_factor e.advance).trans
      (reaches_operate op left e.advance.factor.1 e.advance.factor.2))
    simp only [rank]
    omega
  | @signed get e h =>
    have hlt := ahead_advance_lt h
    show 10 * (enter get e).advance.ahead + 2 < 10 * (enter get e).ahead + 2
    omega
  | @parenthesis get e h =>
    have hlt := ahead_advance_lt h
    show 10 * (enter get e).advance.ahead + 6 < 10 * (enter get e).ahead
    omega
  | @exponent get e h =>
    have hlt := ahead_advance_lt h
    have hbase := (reaches_primary (enter get e)).ahead_le
    show 10 * (enter get e).primary.2.advance.ahead + 2 < 10 * (enter get e).ahead + 1
    omega
  | name h | call h =>
    have hlt := ahead_advance_lt h
    simp only [rank, levelRank]
    omega
  | @assigned token e | @function token e =>
    have hle := ahead_advance_le e.advance
    simp only [rank]
    omega
  | value =>
    simp only [rank, levelRank, enter, if_true]
    omega
  | @argument token e h =>
    have hle := ahead_advance_le e.advance
    simp only [rank, levelRank, enter, if_true]
    omega
  | @secondArgument token e h =>
    have hlt := ahead_advance_lt h
    have hle := ahead_advance_le e.advance
    have hfirst := (reaches_expression e.advance.advance).ahead_le
    simp only [rank, levelRank, enter, if_true]
    omega
  | @start e =>
    have hle := ahead_advance_le e
    simp only [rank]
    omega
  | @target e =>
    have hle := ahead_toStatement_le e
    have hadvance := ahead_advance_le e.toStatement
    have hadvance' := ahead_advance_le e.toStatement.advance
    simp only [rank]
    omega
  | @expression e =>
    have hle := ahead_toStatement_le e
    have htarget := ahead_target_le e.toStatement
    simp only [rank, levelRank, enter, Bool.false_eq_true, if_false]
    omega
  | @leftOver e h | @reported e _ h =>
    have hle := ahead_toStatement_le e
    have hbody := ahead_body_le h
    show 10 * e.toStatement.body.2.ahead < 10 * e.ahead + 9
    omega
  | @blank e h =>
    have hle := ahead_advance_le_pending e
    simp only [rank, ahead, h, if_false] at *
    omega
  | skipped h =>
    have hlt := ahead_advance_lt h
    simp only [rank]
    omega

/-- Reading a statement comes to what the evaluation of a statement is, and so does each of its
productions. -/
theorem solved_parse : (tree (α := α)).Solved answer (fun _ => True) rank where
  outcome c _ := outcome_tree c
  calls _ _ _ h := ⟨trivial, (makes_of_mem h).rank_lt⟩

/-! ## What is read is consumed -/

/-- A production that takes its first token itself is called at a token that does not end the
statement, and an assignment at its `=`. -/
def Cautious : ParseCall α → Prop
  | .produce _ get e => get = true → e.current.kind.endsStatement = false
  | .assignment _ e => e.current.kind = .equals
  | _ => True

/-- The calls of a cautious call are cautious. -/
theorem Makes.cautious {c c' : ParseCall α} (h : Makes c c') (hc : c.Cautious) : c'.Cautious := by
  cases h with
  | firstTerm | firstFactor | base => exact hc
  | nextTerm h | nextFactor h | signed h | exponent h | parenthesis h | argument h
  | secondArgument h => exact fun _ => h
  | power | expression => exact fun h => absurd h Bool.false_ne_true
  | assigned _ h | function _ h | target _ h => exact h
  -- the right side is read behind the `=`
  | @value index e =>
    have hk : e.current.kind = .equals := hc
    exact fun _ => by rw [hk]; rfl
  | terms | moreTerms | factors | moreFactors | name | call | start | leftOver | reported | blank
  | skipped => trivial

/-- So are all that it leads to. -/
theorem Cautious.of_involves {c c' : ParseCall α} (hc : c.Cautious)
    (h : tree.Involves answer c c') : c'.Cautious :=
  Procedures.Involves.of_calls (fun _ hc _ hmem => (makes_of_mem hmem).cautious hc) hc h

/-- A production that takes its first token itself consumes the current one. -/
theorem consumes_produce (l : Level) {e : Evaluation α}
    (h : e.current.kind.endsStatement = false) : e.Consumes (answer (.produce l true e)).2 :=
  consumes_of_reaches h (reaches_produce l e.advance)

/-- A sum goes on behind an operator. -/
theorem consumes_sum {left left' : α} {e e' : Evaluation α}
    (h : .sum left' e' ∈ (tree (.sum left e)).calls answer) : e.Consumes e' := by
  cases makes_of_mem h with
  | moreTerms op hends =>
    exact consumes_of_reaches hends ((reaches_term e.advance).trans (reaches_operate _ _ _ _))

/-- A product goes on behind an operator. -/
theorem consumes_product {left left' : α} {e e' : Evaluation α}
    (h : .product left' e' ∈ (tree (.product left e)).calls answer) : e.Consumes e' := by
  cases makes_of_mem h with
  | moreFactors op hends =>
    exact consumes_of_reaches hends ((reaches_factor e.advance).trans (reaches_operate _ _ _ _))

end ParseCall

end DeskCalc
