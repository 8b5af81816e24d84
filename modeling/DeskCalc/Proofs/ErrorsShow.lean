import DeskCalc.Proofs.Propagation

/-!
# Errors on doubles

A statement on doubles with an error has no number for a value, and shows that, unless a power in it
swallows what is not a number: `(1/0)^0` is one, and reports that zero divides nothing all the same.

* `Double.Over` — the doubles, with the functions of a given library.
* `Double.error_shows` — an error shows in the value, in what is printed and in the last result.
* `Double.error_swallowed` — it need not where a power swallows it.
-/

namespace DeskCalc.Double

open Evaluation

/-- The doubles, with the functions of the given library. -/
def Over (_ : Libm) : Type := Float

variable {lib : Libm}

instance : Arithmetic (Over lib) := lib.arithmetic

namespace Over

def isNaN (x : Over lib) : Bool := Float.isNaN x

/-- The power swallows what is not a number. -/
def Swallows (base exponent : Over lib) : Prop := Double.Swallows base exponent

theorem format_of_isNaN {x : Over lib} (h : x.isNaN = true) : Arithmetic.format x = "nan" :=
  if_pos h

/-- The doubles hand on what is not a number, where the library does. -/
theorem propagates (h : lib.Lawful) :
    Propagates (Over lib) (fun x => x.isNaN = true) Swallows where
  nan := isNaN_nan
  neg := isNaN_neg
  add := isNaN_add
  sub := isNaN_sub
  mul := isNaN_mul
  div := isNaN_div
  mod := isNaN_remainder
  -- a power with an operand that is not a number is not checked
  power {x y value} hnan hswallows hvalue := by
    have hpower : lib.power x y = .ok (lib.pow x y) := Libm.power_eq_ok hnan
    cases hpower.symm.trans hvalue
    exact h.pow _ _ hnan hswallows
  unary {f x value} hnan hvalue := by
    obtain ⟨value', hunary, hnan'⟩ := Libm.unary_of_isNaN h f hnan
    cases hunary.symm.trans hvalue
    exact hnan'
  atan2 {y x value} hnan hvalue := by
    cases hvalue
    exact h.atan2 _ _ hnan

end Over

/-- A statement with an error is not a number, unless some power in it swallows what is not a
number. If it is an expression, that is printed and is the last result. -/
theorem error_shows (hlib : lib.Lawful) {e : Evaluation (Over lib)} (he : e.Reachable)
    {s : Statement (Over lib)} (hs : e.statement.1 = some s) :
    (∃ t : Sentence (Over lib), e.toStatement.Follows t) ∧
      ∀ t : Sentence (Over lib), e.toStatement.Follows t → t.tree.unclosed < e.errors.length →
        ¬t.tree.Swallows Over.Swallows e.toStatement.skip.memory →
        s.value.isNaN = true ∧ ∀ value, s = .expression value →
          s.shown = "\tnan\n" ∧
            e.statement.2.session.value? SymbolTable.last = some value := by
  obtain ⟨hready, -, htable⟩ := he.ready_intact
  obtain ⟨hne, hbody⟩ := eq_body_of_statement hs
  refine ⟨hready.settled_toStatement.exists_follows, fun t ht herrors hswallows => ?_⟩
  have hnan : s.value.isNaN = true := by
    -- a power swallows it, the value is not a number, or all errors are about parentheses
    rcases he.shows (Over.propagates hlib) hne ht with h | h | h
    · exact absurd h hswallows
    · rwa [hbody]
    · omega
  refine ⟨hnan, fun value hvalue => ?_⟩
  subst hvalue
  refine ⟨?_, ?_⟩
  · have hformat : Arithmetic.format value = "nan" := Over.format_of_isNaN hnan
    rw [Statement.shown, hformat]
    rfl
  · rw [Session.value?, SymbolTable.value?_eq, hready.binding_last htable hs]
    rfl

/-! ### Zero divides nothing, and a power need not mind -/

namespace Libm

/-- A library of functions that have no value, but for the powers that are one. -/
def least : Libm where
  log _ := nan
  log10 _ := nan
  exp _ := nan
  sin _ := nan
  cos _ := nan
  atan _ := nan
  atan2 _ _ := nan
  pow x y := if y == 0 || x == 1 then 1 else nan

/-- The library hands on what is not a number, and swallows it where it may. -/
theorem lawful_least : least.Lawful where
  log _ _ := isNaN_nan
  log10 _ _ := isNaN_nan
  exp _ _ := isNaN_nan
  sin _ _ := isNaN_nan
  cos _ _ := isNaN_nan
  atan _ _ := isNaN_nan
  atan2 _ _ _ := isNaN_nan
  pow_zero x y h := by simp [least, h]
  one_pow x y h := by simp [least, h]
  -- an operand that is not a number leaves the power without a value, unless it is swallowed
  pow x y hnan hswallows := by
    have hone : (y == 0 || x == 1) = false := by
      rw [Bool.or_eq_false_iff]
      rcases hnan with h | h
      · refine ⟨?_, not_beq (Or.inl h)⟩
        rw [← Bool.not_eq_true]
        exact fun hy => hswallows (Or.inl ⟨h, hy⟩)
      · refine ⟨not_beq (Or.inl h), ?_⟩
        rw [← Bool.not_eq_true]
        exact fun hx => hswallows (Or.inr ⟨hx, h⟩)
    simp only [least, hone]
    exact isNaN_nan

end Libm

namespace ZeroDivision

variable {α : Type} [Arithmetic α]

def number (m : Nat) : Tree α .factor := .power (.primary (.number (Arithmetic.ofDecimal m 0)))

def quotient : Tree α .expression := .term (.product (.factor (number 1)) .over rfl (number 0))

/-- The quotient to the power zero. -/
def powered : Tree α .expression :=
  .term (.factor (.power (.raise (.paren quotient true) (number 0))))

def input (text : String) : Evaluation (Over .least) :=
  (Session.new "hoc" .silent ⟨fun _ => Arithmetic.nan, 0⟩).start (.ofText text)

theorem reachable_input (text : String) : (input text).Reachable :=
  .start (LineSource.whole_ofText text) .standard

instance : DecidableEq (Over .least) := inferInstanceAs (DecidableEq Float)

/-- The tokens of the text are those of the quotient. -/
theorem upcoming_quotient : (input "1/0\n").toStatement.upcoming = quotient.yield := by
  decide +kernel

theorem upcoming_powered : (input "(1/0)^0\n").toStatement.upcoming = powered.yield := by
  decide +kernel

/-- The number written as zero is zero. -/
theorem isZero_zero : Arithmetic.isZero (Arithmetic.ofDecimal 0 0 : Over .least) = true := by
  show (ofDecimal 0 0 == 0) = true
  decide

/-- Evaluating the quotient reports that zero divides nothing. -/
theorem evaluate_quotient (m : Memory (Over .least)) :
    quotient.evaluate m = m.fail .divideByZero := by
  simp [quotient, number, Tree.evaluate, Memory.operate, isZero_zero]

/-- What is not a number to the power zero is one. -/
theorem power_zero : Arithmetic.power (Arithmetic.nan : Over .least) (Arithmetic.ofDecimal 0 0) =
    .ok (1 : Float) := by
  have hzero : (ofDecimal 0 0 == 0) = true := isZero_zero
  show Libm.least.power nan (ofDecimal 0 0) = .ok 1
  rw [Libm.power_eq_ok (Or.inl isNaN_nan)]
  simp [Libm.least, hzero]

/-- The power is one, although its base was reported. -/
theorem evaluate_powered (m : Memory (Over .least)) :
    powered.evaluate m = ((1 : Float), m.report .divideByZero) := by
  simp only [powered, number, Tree.evaluate, evaluate_quotient, Memory.fail, power_zero,
    Memory.checked, if_true]
  rfl

theorem follows_quotient : (input "1/0\n").toStatement.Follows (.expression quotient) := by
  refine ⟨[], ?_, ?_⟩
  · rw [List.append_nil]
    exact upcoming_quotient
  · simp [Sentence.Fits, quotient, number, Tree.Fits, Tree.startsWithAssignment, Tree.yield,
      Operator.additive?, Operator.multiplicative?, Operator.mark]

theorem follows_powered : (input "(1/0)^0\n").toStatement.Follows (.expression powered) := by
  refine ⟨[], ?_, ?_⟩
  · rw [List.append_nil]
    exact upcoming_powered
  · simp [Sentence.Fits, powered, quotient, number, Tree.Fits, Tree.startsWithAssignment,
      Tree.yield, Operator.additive?, Operator.multiplicative?, Operator.mark, behind]

/-- A statement that follows a tree has the value of the tree, and the errors that evaluating the
tree reports. -/
theorem exists_memory {text : String} {t : Tree (Over .least) .expression}
    (h : (input text).toStatement.Follows (.expression t)) (hne : t.yield ≠ []) :
    ∃ m, (input text).statement.1 = some (.expression (t.evaluate m).1) ∧
      (t.evaluate m).2.reports = m.reports ++ (input text).errors := by
  have hreach := reachable_input text
  have hs := hreach.ready_intact.1.settled_toStatement
  obtain ⟨rest, hup, hfits⟩ := h
  -- the tree has tokens, so there is a statement
  have hk : (input text).toStatement.current.kind ≠ .finish := by
    intro hk
    rw [(input text).upcoming_toStatement_eq_nil_iff.2 hk] at hup
    exact hne (List.append_eq_nil_iff.1 hup.symm).1
  refine ⟨(input text).toStatement.skip.memory, ?_, hreach.reports_evaluate hk ⟨rest, hup, hfits⟩⟩
  rw [statement_of_ne_finish hk, (Sentence.expression t).body_eq_follow hs hup hfits,
    ← t.atEnd_follow hs hup hfits.1]
  rfl

end ZeroDivision

open ZeroDivision

/-- A quotient by zero is one error, is printed as no number and is the last result. -/
theorem error_shows_quotient :
    Libm.least.Lawful ∧ (input "1/0\n").Reachable ∧
      (input "1/0\n").errors.map (·.problem) = [.divideByZero] ∧
      ∃ value, (input "1/0\n").statement.1 = some (.expression value) ∧ value.isNaN = true ∧
        (Statement.expression value).shown = "\tnan\n" ∧
        (input "1/0\n").statement.2.session.value? SymbolTable.last = some value := by
  obtain ⟨m, hs, hreports⟩ := exists_memory follows_quotient (by simp [quotient, Tree.yield])
  rw [evaluate_quotient] at hreports
  -- what evaluating the tree has reported are the errors of the statement
  have herrors := List.append_cancel_left hreports
  obtain ⟨hnan, hshown⟩ := (error_shows Libm.lawful_least (reachable_input _) hs).2
    (.expression quotient) follows_quotient (by rw [← herrors]; exact Nat.zero_lt_one)
    (by simp [Sentence.tree, quotient, number, Tree.Swallows])
  exact ⟨Libm.lawful_least, reachable_input _, by rw [← herrors]; rfl, _, hs, hnan, hshown _ rfl⟩

/-- The quotient to the power zero has an error, and is a number nevertheless. -/
theorem error_swallowed :
    Libm.least.Lawful ∧ (input "(1/0)^0\n").Reachable ∧
      (input "(1/0)^0\n").errors.map (·.problem) = [.divideByZero] ∧
      ∃ value, (input "(1/0)^0\n").statement.1 = some (.expression value) ∧
        value.isNaN = false := by
  obtain ⟨m, hs, hreports⟩ := exists_memory follows_powered (by simp [powered, Tree.yield])
  rw [evaluate_powered] at hs hreports
  -- the division is reported inside the base, although the power is a number
  have herrors := List.append_cancel_left hreports
  refine ⟨Libm.lawful_least, reachable_input _, by rw [← herrors]; rfl, _, hs, ?_⟩
  show Float.isNaN 1 = false
  decide

end DeskCalc.Double
