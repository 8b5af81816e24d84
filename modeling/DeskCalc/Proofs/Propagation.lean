import DeskCalc.Proofs.Acceptance
import DeskCalc.Proofs.Names
import DeskCalc.Proofs.NotANumber
import DeskCalc.Proofs.Printing

/-!
# Errors show in the value

Whatever has an error is not a number, and most operations hand on what is not a number. So an error
shows in the value of its statement, unless a power swallows it on the way: zero as an exponent and
one as a base make one of anything.

* `Propagates` — what the operations on numbers do with what is not a number.
* `Tree.unclosed` — the parentheses that are not closed. That is reported, but has no value of its
  own to spoil.
* `Tree.Swallows` — some power in the tree swallows what is not a number.
* `Tree.shows` — a tree has a value that is not a number, or nothing else is reported, or a power
  swallows it.
* `Evaluation.Reachable.shows` — the same of statements.
-/

namespace DeskCalc

/-- What the operations do with what is not a number: they hand it on, but for a power that
swallows it. -/
structure Propagates (α : Type) [Arithmetic α] (isNaN : α → Prop) (swallows : α → α → Prop) :
    Prop where
  nan : isNaN Arithmetic.nan
  neg {x : α} : isNaN x → isNaN (-x)
  add {x y : α} : isNaN x ∨ isNaN y → isNaN (x + y)
  sub {x y : α} : isNaN x ∨ isNaN y → isNaN (x - y)
  mul {x y : α} : isNaN x ∨ isNaN y → isNaN (x * y)
  div {x y : α} : isNaN x ∨ isNaN y → isNaN (x / y)
  mod {x y : α} : isNaN x ∨ isNaN y → isNaN (x % y)
  power {x y value : α} : isNaN x ∨ isNaN y → ¬swallows x y →
    Arithmetic.power x y = .ok value → isNaN value
  unary {f : UnaryFunction} {x value : α} : isNaN x → Arithmetic.unary f x = .ok value → isNaN value
  atan2 {y x value : α} : isNaN y ∨ isNaN x → Arithmetic.atan2 y x = .ok value → isNaN value

variable {α : Type}

/-! ## Unclosed parentheses -/

/-- The number of parentheses in the tree that are not closed, those of calls apart. -/
def Tree.unclosed : {l : Level} → Tree α l → Nat
  | _, .term t => t.unclosed
  | _, .sum left _ _ right => left.unclosed + right.unclosed
  | _, .factor f => f.unclosed
  | _, .product left _ _ right => left.unclosed + right.unclosed
  | _, .power p => p.unclosed
  | _, .sign _ operand => operand.unclosed
  | _, .primary p => p.unclosed
  | _, .raise base exponent => base.unclosed + exponent.unclosed
  | _, .number _ => 0
  | _, .name _ => 0
  | _, .assign _ _ _ right => right.unclosed
  | _, .paren inner closed => inner.unclosed + if closed then 0 else 1
  | _, .nullary _ _ => 0
  | _, .unary _ x _ => x.unclosed
  | _, .binary _ x y _ => x.unclosed + y.unclosed
  | _, .halfBinary _ x => x.unclosed
  | _, .function _ _ _ => 0
  | _, .missing => 0

variable [Arithmetic α]

/-- Where the tree is evaluated, some power in it swallows one of its operands. -/
def Tree.Swallows (swallows : α → α → Prop) : {l : Level} → Tree α l → Memory α → Prop
  | _, .term t, m => t.Swallows swallows m
  | _, .sum left _ _ right, m =>
    left.Swallows swallows m ∨ right.Swallows swallows (left.evaluate m).2
  | _, .factor f, m => f.Swallows swallows m
  | _, .product left _ _ right, m =>
    left.Swallows swallows m ∨ right.Swallows swallows (left.evaluate m).2
  | _, .power p, m => p.Swallows swallows m
  | _, .sign _ operand, m => operand.Swallows swallows m
  | _, .primary p, m => p.Swallows swallows m
  | _, .raise base exponent, m =>
    let r := base.evaluate m
    base.Swallows swallows m ∨ exponent.Swallows swallows r.2 ∨
      swallows r.1 (exponent.evaluate r.2).1
  | _, .number _, _ => False
  | _, .name _, _ => False
  | _, .assign _ _ _ right, m => right.Swallows swallows m
  | _, .paren inner _, m => inner.Swallows swallows m
  | _, .nullary _ _, _ => False
  | _, .unary _ x _, m => x.Swallows swallows m
  | _, .binary _ x y _, m => x.Swallows swallows m ∨ y.Swallows swallows (x.evaluate m).2
  | _, .halfBinary _ x, m => x.Swallows swallows m
  | _, .function _ _ _, _ => False
  | _, .missing, _ => False

/-! ## Operations -/

namespace Memory

variable {isNaN : α → Prop} {swallows : α → α → Prop}

/-- The value is not a number, or there are no other new reports than the given number. -/
def Shows (isNaN : α → Prop) (n : Nat) (m : Memory α) (r : α × Memory α) : Prop :=
  isNaN r.1 ∨ r.2.reports.length = m.reports.length + n

variable (h : Propagates α isNaN swallows)

include h

/-- A checked function gives NaN or fails, and then it is NaN. -/
theorem isNaN_checked {result : Except MathError α} (hresult : ∀ v, result = .ok v → isNaN v)
    (m : Memory α) : isNaN (m.checked result).1 := by
  cases result with
  | ok value => exact hresult value rfl
  | error error => exact h.nan

/-- An error of a checked function shows. -/
theorem shows_checked (result : Except MathError α) (m : Memory α) :
    Shows isNaN 0 m (m.checked result) := by
  cases result with
  | ok value => exact Or.inr rfl
  | error error => exact Or.inl h.nan

/-- An operator hands on what is not a number. -/
theorem isNaN_operate (op : Operator) {x y : α} (hnan : isNaN x ∨ isNaN y) (m : Memory α) :
    isNaN (m.operate op x y).1 := by
  unfold operate
  -- by zero a division fails, and what fails gives what is not a number
  split
  · exact h.add hnan
  · exact h.sub hnan
  · exact h.mul hnan
  · split
    · exact h.nan
    · exact h.div hnan
  · split
    · exact h.nan
    · exact h.mod hnan

/-- A division by zero shows. -/
theorem shows_operate (op : Operator) (x y : α) (m : Memory α) :
    Shows isNaN 0 m (m.operate op x y) := by
  unfold operate
  -- without a division by zero nothing is reported
  split
  · exact Or.inr rfl
  · exact Or.inr rfl
  · exact Or.inr rfl
  · split
    · exact Or.inl h.nan
    · exact Or.inr rfl
  · split
    · exact Or.inl h.nan
    · exact Or.inr rfl

/-- A name without a value shows. -/
theorem shows_read (index : Nat) (m : Memory α) : Shows isNaN 0 m (m.read index) := by
  unfold read
  split
  · exact Or.inl h.nan
  · exact Or.inr rfl
  · exact Or.inr rfl
  · exact Or.inl h.nan
  · exact Or.inl h.nan

theorem isNaN_assign (index : Nat) {value : α} (hnan : isNaN value) (m : Memory α) :
    isNaN (m.assign index value).1 := by
  unfold assign
  split
  · exact hnan
  · exact h.nan

theorem shows_assign (index : Nat) (value : α) (m : Memory α) :
    Shows isNaN 0 m (m.assign index value) := by
  unfold assign
  split
  · exact Or.inr rfl
  · exact Or.inl h.nan

/-- A function whose arguments are not all numbers has a value that is no number. -/
theorem isNaN_apply (index : Nat) {arguments : List α} (hnan : ∃ x ∈ arguments, isNaN x)
    (m : Memory α) : isNaN (m.apply index arguments).1 := by
  unfold apply
  split
  · exact h.nan
  · next binding _ =>
    split
    · next result draws hcall =>
      refine isNaN_checked h (fun v hv => ?_) _
      obtain ⟨x, hx, hnan⟩ := hnan
      -- the function without arguments has none that is not a number, so it is none of these
      unfold Binding.call? BuiltIn.call? at hcall
      split at hcall
      · split at hcall
        · cases hx
        · cases hcall
          rw [List.mem_singleton.1 hx] at hnan
          exact h.unary hnan hv
        · next y' x' =>
          cases hcall
          refine h.atan2 ?_ hv
          rcases List.mem_cons.1 hx with rfl | hx
          · exact Or.inl hnan
          · exact Or.inr (List.mem_singleton.1 hx ▸ hnan)
        · cases hcall
      · cases hcall
    · exact h.nan

/-- An error in a call shows. -/
theorem shows_apply (index : Nat) (arguments : List α) (m : Memory α) :
    Shows isNaN 0 m (m.apply index arguments) := by
  unfold apply
  split
  · exact Or.inl h.nan
  · split
    · exact shows_checked h _ _
    · exact Or.inl h.nan

/-- A call hands on what is not a number, also where it is not closed. -/
theorem isNaN_finishCall (closed : Bool) (index : Nat) {arguments : List α}
    (hnan : ∃ x ∈ arguments, isNaN x) (m : Memory α) :
    isNaN (m.finishCall closed index arguments).1 := by
  cases closed with
  | true => exact isNaN_apply h index hnan m
  | false => exact h.nan

/-- A parenthesis that is missing from a call shows. -/
theorem shows_finishCall (closed : Bool) (index : Nat) (arguments : List α) (m : Memory α) :
    Shows isNaN 0 m (m.finishCall closed index arguments) := by
  cases closed with
  | true => exact shows_apply h index arguments m
  | false => exact Or.inl h.nan

end Memory

/-! ## Trees -/

open Memory

variable {isNaN : α → Prop} {swallows : α → α → Prop}

omit [Arithmetic α] in
/-- Something is done with the value of one part of a tree. -/
theorem Memory.shows_after {n : Nat} {m : Memory α} {r : α × Memory α} {result : α × Memory α}
    {S : Prop} (hr : S ∨ Shows isNaN n m r) (hnan : isNaN r.1 → isNaN result.1)
    (hresult : Shows isNaN 0 r.2 result) : S ∨ Shows isNaN n m result := by
  rcases hr with hs | hr | hr
  · exact Or.inl hs
  · exact Or.inr (Or.inl (hnan hr))
  · exact Or.inr (hresult.imp_right fun hcount => by omega)

omit [Arithmetic α] in
/-- Something is done with the values of two parts of a tree. -/
theorem Memory.shows_after_both {n n' : Nat} {m : Memory α} {r r' result : α × Memory α}
    {S S' : Prop} (hr : S ∨ Shows isNaN n m r) (hr' : S' ∨ Shows isNaN n' r.2 r')
    (hnan : isNaN r.1 ∨ isNaN r'.1 → isNaN result.1) (hresult : Shows isNaN 0 r'.2 result) :
    (S ∨ S') ∨ Shows isNaN (n + n') m result := by
  rcases hr with hs | hr | hr
  · exact Or.inl (Or.inl hs)
  · exact Or.inr (Or.inl (hnan (Or.inl hr)))
  -- the first part did not show in its value, so its errors are counted; then the same for the
  -- second
  · rcases hr' with hs | hr' | hr'
    · exact Or.inl (Or.inr hs)
    · exact Or.inr (Or.inl (hnan (Or.inr hr')))
    · exact Or.inr (hresult.imp_right fun hcount => by omega)

/-- The value of a tree is not a number, or nothing is reported but unclosed parentheses, unless
some power in it swallows what is not a number. -/
theorem Tree.shows (h : Propagates α isNaN swallows) {l : Level} (t : Tree α l) (m : Memory α) :
    t.Swallows swallows m ∨ Shows isNaN t.unclosed m (t.evaluate m) := by
  induction t generalizing m with
  | term t ih => exact ih m
  | factor f ih => exact ih m
  | power p ih => exact ih m
  | primary p ih => exact ih m
  | sum left op hop right ihl ihr =>
    exact shows_after_both (ihl m) (ihr _) (fun hnan => isNaN_operate h op hnan _)
      (shows_operate h op _ _ _)
  | product left op hop right ihl ihr =>
    exact shows_after_both (ihl m) (ihr _) (fun hnan => isNaN_operate h op hnan _)
      (shows_operate h op _ _ _)
  | raise base exponent ihb ihx =>
    -- this is the one place where what is not a number may get lost
    by_cases hs : swallows (base.evaluate m).1 (exponent.evaluate (base.evaluate m).2).1
    · exact Or.inl (Or.inr (Or.inr hs))
    · refine (shows_after_both (ihb m) (ihx _)
        (fun hnan => isNaN_checked h (fun v hv => h.power hnan hs hv) _)
        (shows_checked h _ _)).imp_left ?_
      rintro (hb | hx)
      · exact Or.inl hb
      · exact Or.inr (Or.inl hx)
  | sign negative operand ih =>
    refine shows_after (ih m) (fun hnan => ?_) (Or.inr rfl)
    cases negative with
    | true => exact h.neg hnan
    | false => exact hnan
  | number value => exact Or.inr (Or.inr rfl)
  | name index => exact Or.inr (shows_read h index m)
  | assign kind hkind index right ih =>
    exact shows_after (ih m) (fun hnan => isNaN_assign h index hnan _) (shows_assign h index _ _)
  | paren inner closed ih =>
    -- the value is that of what stands inside, closed or not
    refine (ih m).imp_right fun hshows => hshows.imp_right fun hcount => ?_
    cases closed with
    | true => exact hcount
    | false => simp [evaluate, unclosed, report, hcount]; omega
  | nullary index closed => exact Or.inr (shows_finishCall h closed index [] m)
  | unary index x closed ih =>
    exact shows_after (ih m)
      (fun hnan => isNaN_finishCall h closed index ⟨_, List.mem_cons_self, hnan⟩ _)
      (shows_finishCall h closed index _ _)
  | binary index x y closed ihx ihy =>
    refine shows_after_both (ihx m) (ihy _) (fun hnan => ?_) (shows_finishCall h closed index _ _)
    refine isNaN_finishCall h closed index ?_ _
    rcases hnan with hnan | hnan
    · exact ⟨_, List.mem_cons_self, hnan⟩
    · exact ⟨_, List.mem_cons_of_mem _ List.mem_cons_self, hnan⟩
  | halfBinary index x ih => exact Or.inr (Or.inl h.nan)
  | function kind hkind index => exact Or.inr (Or.inl h.nan)
  | missing => exact Or.inr (Or.inl h.nan)

/-! ## Statements -/

open Evaluation

namespace Evaluation

/-- The statement that starts at the current token follows the sentence, up to what may be left over
behind it. -/
def Follows (e : Evaluation α) (t : Sentence α) : Prop :=
  ∃ rest, e.upcoming = t.yield ++ rest ∧ t.Fits (nextKind rest)

/-- Every statement follows some sentence. -/
theorem Settled.exists_follows {e : Evaluation α} (hs : e.Settled) :
    ∃ t : Sentence α, e.Follows t := by
  obtain ⟨t, rest, hup, hfits⟩ := Sentence.exists_fits hs.proper_upcoming
  exact ⟨t, rest, hup, hfits⟩

/-- What the next statement reports of its evaluation. -/
def errors (e : Evaluation α) : List Report :=
  (e.toStatement.since e.statement.2).filter fun r => r.problem.ofEvaluation

variable {e : Evaluation α}

/-- All that a statement reports of its evaluation is reported when its body is evaluated. -/
theorem Reachable.errors_eq (he : e.Reachable) (hne : e.toStatement.current.kind ≠ .finish) :
    e.errors =
      (e.toStatement.since e.toStatement.body.2).filter fun r => r.problem.ofEvaluation := by
  obtain ⟨hready, -, -⟩ := he.ready_intact
  have hbody := hready.settled_toStatement.reaches_body.extends_reports.isPrefix
  have hend := extends_conclude e.toStatement.session.errorCount e.toStatement.body.2
  rw [errors, since, he.reports_statement_eq hne, ← since, since_append hbody hend.isPrefix,
    List.filter_append, List.append_right_eq_self, List.filter_eq_nil_iff]
  intro r hr hevaluation
  -- the end of the statement reports what is no token, or a token that is left over
  rcases of_mem_since hend hr with hreading | hproblem
  · have := Problem.ofReading_of_ofEvaluation hevaluation
    simp [Report.ofReading, Report.kind, this] at hreading
  · simp [hproblem, Problem.ofEvaluation] at hevaluation

/-- Evaluating the sentence that a statement follows makes the reports that the statement makes. -/
theorem Reachable.reports_evaluate (he : e.Reachable)
    (hne : e.toStatement.current.kind ≠ .finish) {t : Sentence α} (ht : e.toStatement.Follows t) :
    (t.tree.evaluate e.toStatement.skip.memory).2.reports =
      e.toStatement.skip.memory.reports ++ e.errors := by
  obtain ⟨hready, -, -⟩ := he.ready_intact
  have hs := hready.settled_toStatement
  obtain ⟨rest, hup, hfits⟩ := ht
  have hbody := hs.reaches_body.extends_reports
  have hend := t.atEnd_follow hs hup hfits
  rw [← t.body_eq_follow hs hup hfits] at hend
  have hmemory : e.toStatement.body.2.skip.memory = _ := congrArg Prod.snd hend
  have hsame : (e.toStatement.since e.toStatement.body.2).filter (fun r => !r.ofReading) =
      (e.toStatement.since e.toStatement.body.2).filter fun r => r.problem.ofEvaluation := by
    refine List.filter_congr fun r hr => ?_
    cases hevaluation : r.problem.ofEvaluation with
    | true => simp [Report.ofReading, Report.kind, Problem.ofReading_of_ofEvaluation hevaluation]
    | false =>
      rcases of_mem_since hbody hr with hreading | hevaluation'
      · simp [hreading]
      · rw [hevaluation] at hevaluation'
        cases hevaluation'
  -- reading the rest of the statement reports nothing of its evaluation
  rw [← hmemory, (reads_skip _).reports, (reads_skip _).reports, (reports_since hbody.isPrefix).2,
    hsame, he.errors_eq hne]

/-- The value of a statement is that of the tree it follows. -/
theorem Reachable.value_body (he : e.Reachable) {t : Sentence α} (ht : e.toStatement.Follows t) :
    e.toStatement.body.1.value = (t.tree.evaluate e.toStatement.skip.memory).1 := by
  obtain ⟨hready, -, -⟩ := he.ready_intact
  have hs := hready.settled_toStatement
  obtain ⟨rest, hup, hfits⟩ := ht
  rw [← t.atEnd_follow hs hup hfits, t.body_eq_follow hs hup hfits]
  rfl

/-- The value of a statement is not a number, or it reports nothing of its evaluation but unclosed
parentheses, unless some power in it swallows what is not a number. -/
theorem Reachable.shows (h : Propagates α isNaN swallows) (he : e.Reachable)
    (hne : e.toStatement.current.kind ≠ .finish) {t : Sentence α} (ht : e.toStatement.Follows t) :
    t.tree.Swallows swallows e.toStatement.skip.memory ∨ isNaN e.toStatement.body.1.value ∨
      e.errors.length = t.tree.unclosed := by
  rw [he.value_body ht]
  refine (t.tree.shows h e.toStatement.skip.memory).imp_right (Or.imp_right fun hcount => ?_)
  rwa [he.reports_evaluate hne ht, List.length_append, Nat.add_left_cancel_iff] at hcount

end Evaluation

end DeskCalc
