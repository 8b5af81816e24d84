import DeskCalc.Proofs.ErrorsShow
import DeskCalc.Proofs.Coherence
import DeskCalc.Proofs.FiniteResults

/-!
# Checked math

With finite arguments, a checked function has a finite value or an error. So a power or a call has a
finite value where its operands are finite, or else reports one error and is not a number.

* `Libm.Regular` — what is asked of a mathematical library.
* `Libm.contained_unary`, `contained_power` — a checked function with finite arguments.
* `Evaluation.Computes` — a power or a call that is read to its end, with its operands.
* `LetsNothingEscape` — what holds of all checked functions, and of all powers and calls.
* `Libm.Regular.letsNothingEscape` — that it does, with a library that is regular.
-/

namespace DeskCalc

namespace Double

/-! ## Checked functions -/

/-- What is asked of a library: finite values where a function has values at all. The exponential
and the power may leave the range of doubles. -/
structure Libm.Regular (lib : Libm) : Prop where
  log : ∀ x, x.isFinite = true → 0 < x → (lib.log x).isFinite = true
  log10 : ∀ x, x.isFinite = true → 0 < x → (lib.log10 x).isFinite = true
  exp : ∀ x, x.isFinite = true → (lib.exp x).isNaN = false
  sin : ∀ x, x.isFinite = true → (lib.sin x).isFinite = true
  cos : ∀ x, x.isFinite = true → (lib.cos x).isFinite = true
  atan : ∀ x, x.isFinite = true → (lib.atan x).isFinite = true
  atan2 : ∀ y x, y.isFinite = true → x.isFinite = true → (lib.atan2 y x).isFinite = true
  /-- Only a negative base has no power, and only where the exponent is no integer. -/
  pow : ∀ x y, x.isFinite = true → y.isFinite = true → (lib.pow x y).isNaN = true →
    x < 0 ∧ isIntegral y = false

/-- An error or a finite number. -/
def Contained (result : Except MathError Float) : Prop :=
  ∀ value, result = .ok value → value.isFinite = true

/-- An error lets no number through. -/
theorem contained_error (error : MathError) : Contained (.error error) := fun _ h => by cases h

theorem contained_ok {value : Float} (h : value.isFinite = true) : Contained (.ok value) :=
  fun _ h' => by cases h'; exact h

variable {x y value : Float}

/-- The checks in front of a logarithm leave it the positive numbers only. -/
theorem contained_checkedLog {log : Float → Float}
    (hlog : ∀ x, x.isFinite = true → 0 < x → (log x).isFinite = true) (hx : x.isFinite = true) :
    Contained (checkedLog log x) := by
  unfold checkedLog
  split
  · exact contained_error _
  · next hneg =>
    split
    · exact contained_error _
    · next hzero =>
      -- a number that is neither negative nor zero is positive, as it is no NaN
      exact contained_ok (hlog x hx (pos_of_not hx hneg (by simpa using hzero)))

/-- The check in front of a square root leaves it the numbers that have one. -/
theorem contained_checkedSqrt (hx : x.isFinite = true) : Contained (checkedSqrt x) := by
  unfold checkedSqrt
  split
  · exact contained_error _
  · next hneg => exact contained_ok (isFinite_sqrt hx hneg)

/-- A result that became infinite is an error. -/
theorem contained_rangeChecked (nonzero : Bool) (hnan : value.isNaN = false) :
    Contained (rangeChecked true nonzero value) := by
  unfold rangeChecked
  split
  · exact contained_error _
  · next h =>
    refine contained_ok (isFinite_of_not hnan ?_)
    simp only [Bool.true_and, Bool.or_eq_true, not_or, Bool.not_eq_true] at h
    exact h.1

/-- A result that became zero is an error where it must not. -/
theorem ne_zero_of_rangeChecked {result : Float} (h : rangeChecked true true result = .ok value) :
    (value == 0) = false := by
  unfold rangeChecked at h
  split at h
  · cases h
  -- the check would have refused zero
  · next hzero =>
    cases h
    simp only [Bool.true_and, Bool.or_eq_true, not_or, Bool.not_eq_true] at hzero
    exact hzero.2

namespace Libm

variable {lib : Libm}

/-- A function of one finite argument gives an error or a finite number. -/
theorem contained_unary (hlib : lib.Regular) (f : UnaryFunction) (hx : x.isFinite = true) :
    Contained (lib.unary f x) := by
  cases f with
  | sin => exact contained_ok (hlib.sin x hx)
  | cos => exact contained_ok (hlib.cos x hx)
  | atan => exact contained_ok (hlib.atan x hx)
  | log => exact contained_checkedLog hlib.log hx
  | log10 => exact contained_checkedLog hlib.log10 hx
  -- only the exponential can leave the range, so its check comes behind it
  | exp =>
    rw [unary, hx]
    exact contained_rangeChecked true (hlib.exp x hx)
  | sqrt => exact contained_checkedSqrt hx
  | int => exact contained_ok (isFinite_trunc hx)
  | abs => exact contained_ok (isFinite_abs hx)

/-- With finite operands, the checks in front of a power leave out all that is not a number. -/
theorem contained_power (hlib : lib.Regular) (hx : x.isFinite = true) (hy : y.isFinite = true) :
    Contained (lib.power x y) := by
  unfold power
  split
  · exact contained_error _
  · next hdomain =>
    split
    · exact contained_error _
    · rw [hx, hy]
      -- the library gives no NaN here: the domain check has refused the one case in which it would
      refine contained_rangeChecked _ ?_
      rw [← Bool.not_eq_true]
      intro hnan
      obtain ⟨hneg, hfraction⟩ := hlib.pow x y hx hy hnan
      exact hdomain ⟨hneg, hx, hy, by rw [hfraction]; rfl⟩

/-- An exponential that would become zero is a range error. -/
theorem unary_exp_ne_zero (hx : x.isFinite = true) (h : lib.unary .exp x = .ok value) :
    (value == 0) = false := by
  rw [unary, hx] at h
  exact ne_zero_of_rangeChecked h

/-- A power of a base other than zero that would become zero is a range error. -/
theorem power_ne_zero (hx : x.isFinite = true) (hy : y.isFinite = true) (hbase : (x == 0) = false)
    (h : lib.power x y = .ok value) : (value == 0) = false := by
  unfold power at h
  split at h
  · cases h
  · split at h
    · cases h
    -- behind both guards the result is range checked, and zero is allowed only of a zero base
    · have hnonzero : (x != 0) = true := by rw [bne, hbase]; rfl
      rw [hx, hy, hnonzero] at h
      exact ne_zero_of_rangeChecked h

/-- No check refuses what is not a number. -/
theorem unary_ok_of_isNaN (f : UnaryFunction) (hx : x.isNaN = true) :
    ∃ value, lib.unary f x = .ok value := by
  -- what is not a number compares with nothing, so that the guards let it pass
  have hneg : ¬x < 0 := not_lt (Or.inl hx)
  have hzero : (x == 0) = false := not_beq (Or.inl hx)
  have hfinite := not_isFinite hx
  cases f with
  | log => exact ⟨_, by rw [unary, checkedLog, if_neg hneg, hzero]; rfl⟩
  | log10 => exact ⟨_, by rw [unary, checkedLog, if_neg hneg, hzero]; rfl⟩
  | exp => exact ⟨_, by rw [unary, rangeChecked, hfinite]; rfl⟩
  | sqrt => exact ⟨_, by rw [unary, checkedSqrt, if_neg hneg]⟩
  | _ => exact ⟨_, rfl⟩

end Libm

end Double

/-! ## Powers and calls -/

namespace Evaluation

variable {α : Type} [Arithmetic α] {e before : Evaluation α} {operands : List α}
  {r : α × Evaluation α}

/-- A power or a call of a built-in function that is read to its end, with the values of its
operands, the evaluation behind the last one, and what comes of it. -/
inductive Computes (e : Evaluation α) : List α → Evaluation α → α × Evaluation α → Prop
  | power (hcaret : e.primary.2.current.kind = .caret) :
    Computes e [e.primary.1, e.primary.2.advance.factor.1] e.primary.2.advance.factor.2 e.power
  | nullary (hk : e.current.kind = .nullary) (hopen : e.advance.current.kind = .leftParen)
    (hclose : e.advance.advance.current.kind = .rightParen) :
    Computes e [] e.advance.advance.advance e.primary
  | unary (hk : e.current.kind = .unary) (hopen : e.advance.current.kind = .leftParen)
    (hclose : e.advance.advance.expression.2.current.kind = .rightParen) :
    Computes e [e.advance.advance.expression.1] e.advance.advance.expression.2.advance e.primary
  | binary (hk : e.current.kind = .binary) (hopen : e.advance.current.kind = .leftParen)
    (hcomma : e.advance.advance.expression.2.current.kind = .comma)
    (hclose : e.advance.advance.expression.2.advance.expression.2.current.kind = .rightParen) :
    Computes e
      [e.advance.advance.expression.1, e.advance.advance.expression.2.advance.expression.1]
      e.advance.advance.expression.2.advance.expression.2.advance e.primary

/-- What a token of this kind names is a function that takes so many arguments, and stays one. -/
theorem Occurs.exists_builtIn (he : e.Occurs) {n : Nat} (hk : e.current.kind.arity? = some n)
    (hreaches : Reaches e before) : ∃ index f, e.current.symbol? = some index ∧
      before.session.table.get index = .ok (.builtIn f) ∧ f.arity = n := by
  -- places keep their names while the operands are read
  have hbacks : before.session.table.Backs e.current :=
    (he.buffered.current.mono hreaches.faces).backs
  have hname : e.current.kind.isName = true := by rw [TokenKind.isName, hk]; simp
  obtain ⟨index, entry, hindex, -, hentry, -, harity⟩ := hbacks.name hname
  obtain ⟨f, hbinding, hf⟩ := (harity n).1 hk
  refine ⟨index, f, hindex, ?_, hf⟩
  rw [SymbolTable.get, hentry, ← hbinding]
  rfl

theorem finishCall_of_rightParen (h : e.current.kind = .rightParen) (index : Nat)
    (arguments : List α) : e.finishCall index arguments = e.advance.apply index arguments := by
  rw [finishCall, if_pos h]

/-- The operands are read from where the power or the call starts. -/
theorem Computes.reaches (h : e.Computes operands before r) : Reaches e before := by
  -- by the forms of a power and a call; each token in between is one to advance over
  cases h with
  | power hcaret =>
    exact ((reaches_primary e).trans (reaches_advance (by rw [hcaret]; rfl))).trans
      (reaches_factor _)
  | nullary hk hopen hclose =>
    exact ((reaches_advance (by rw [hk]; rfl)).trans (reaches_advance (by rw [hopen]; rfl))).trans
      (reaches_advance (by rw [hclose]; rfl))
  | unary hk hopen hclose =>
    exact (((reaches_advance (by rw [hk]; rfl)).trans (reaches_advance (by rw [hopen]; rfl))).trans
      (reaches_expression _)).trans (reaches_advance (by rw [hclose]; rfl))
  | binary hk hopen hcomma hclose =>
    exact (((((reaches_advance (by rw [hk]; rfl)).trans
      (reaches_advance (by rw [hopen]; rfl))).trans (reaches_expression _)).trans
      (reaches_advance (by rw [hcomma]; rfl))).trans (reaches_expression _)).trans
      (reaches_advance (by rw [hclose]; rfl))

/-- What is computed: a power, or the function at the place of the name applied to its arguments. -/
theorem Computes.eq (he : e.Occurs) (h : e.Computes operands before r) :
    (∃ x y, operands = [x, y] ∧ r = before.checked (Arithmetic.power x y)) ∨
      ∃ index f, before.session.table.get index = .ok (.builtIn f) ∧
        operands.length = f.arity ∧ r = before.apply index operands := by
  have hreaches := h.reaches
  cases h with
  | power hcaret =>
    refine Or.inl ⟨_, _, rfl, ?_⟩
    rw [power_eq, if_pos hcaret]
  -- the place of the name is that of a function with as many arguments, whatever was read in
  -- between
  | nullary hk hopen hclose =>
    obtain ⟨index, f, hindex, hget, hf⟩ := he.exists_builtIn (by rw [hk]; rfl) hreaches
    refine Or.inr ⟨index, f, hget, hf.symm, ?_⟩
    rw [primary_of_function (by rw [hk]; rfl), hindex, hk]
    simp only
    rw [call_nullary index hopen, finishCall_of_rightParen hclose]
  | unary hk hopen hclose =>
    obtain ⟨index, f, hindex, hget, hf⟩ := he.exists_builtIn (by rw [hk]; rfl) hreaches
    refine Or.inr ⟨index, f, hget, hf.symm, ?_⟩
    rw [primary_of_function (by rw [hk]; rfl), hindex, hk]
    simp only
    rw [call_unary index hopen, finishCall_of_rightParen hclose]
  | binary hk hopen hcomma hclose =>
    obtain ⟨index, f, hindex, hget, hf⟩ := he.exists_builtIn (by rw [hk]; rfl) hreaches
    refine Or.inr ⟨index, f, hget, hf.symm, ?_⟩
    rw [primary_of_function (by rw [hk]; rfl), hindex, hk]
    simp only
    rw [call_binary index hopen]
    simp only
    rw [if_pos hcomma, finishCall_of_rightParen hclose]

/-- No step changes the supply, only how much of it is taken. -/
theorem Step.draw_eq {e e' : Evaluation α} (h : Step e e') :
    e'.session.draws.draw = e.session.draws.draw := by
  cases h with
  | advance => exact congrArg Draws.draw (reads_advance e).draws
  | report => rfl
  -- an assignment that succeeds replaces the table alone
  | @assign _ index value session ha =>
    unfold Session.assign at ha
    cases hassign : e.session.table.assign index value with
    | error error => rw [hassign] at ha; cases ha
    | ok table => rw [hassign] at ha; cases ha; rfl
  | draw => rfl

/-- The supply of random numbers is the same one all the time. -/
theorem Reaches.draw_eq {e e' : Evaluation α} (h : Reaches e e') :
    e'.session.draws.draw = e.session.draws.draw := by
  induction h with
  | refl => rfl
  | tail _ step ih => exact step.draw_eq.trans ih

end Evaluation

namespace Double

open Evaluation

variable {lib : Libm}

namespace Over

def isFinite (x : Over lib) : Bool := Float.isFinite x

def InUnit (x : Over lib) : Prop := Double.InUnit x

/-- The random numbers of a seed. -/
def draws (seed : UInt64) : Draws (Over lib) := Double.draws seed

/-- The random numbers of every seed lie between zero and one. -/
theorem inUnit_draws (seed : UInt64) (n : Nat) : ((draws seed : Draws (Over lib)).draw n).InUnit :=
  inUnit_random seed n

end Over

/-- The value is finite, and nothing else happened but that a random number may have been taken; or
one error is reported, and the value is not a number. -/
def FiniteOrReported (before : Evaluation (Over lib)) (r : Over lib × Evaluation (Over lib)) :
    Prop :=
  (r.1.isFinite = true ∧ ∃ draws : Draws (Over lib),
      r.2 = { before with session := { before.session with draws } }) ∨
    r.1.isNaN = true ∧ ∃ error : MathError, r.2 = before.report (.math error)

/-- What holds of all checked functions, and of all powers and calls. -/
structure LetsNothingEscape (lib : Libm) : Prop where
  /-- Every built-in function, applied to as many finite arguments as it takes, gives an error or a
  finite number. -/
  builtIn : ∀ (f : BuiltIn) (arguments : List (Over lib)) (draws : Draws (Over lib)),
    arguments.length = f.arity → (∀ x ∈ arguments, x.isFinite = true) →
    (∀ n, (draws.draw n).InUnit) →
    ∃ result draws', f.call? arguments draws = some (result, draws') ∧
      ∀ value, result = .ok value → value.isFinite = true
  power : ∀ x y value : Over lib, x.isFinite = true → y.isFinite = true →
    Arithmetic.power x y = .ok value → value.isFinite = true
  exp_ne_zero : ∀ x value : Over lib, x.isFinite = true →
    Arithmetic.unary .exp x = .ok value → Arithmetic.isZero value = false
  power_ne_zero : ∀ x y value : Over lib, x.isFinite = true → y.isFinite = true →
    Arithmetic.isZero x = false → Arithmetic.power x y = .ok value →
    Arithmetic.isZero value = false
  /-- What is not a number is no error. -/
  builtIn_nan : ∀ (f : BuiltIn) (arguments : List (Over lib)) (draws : Draws (Over lib)),
    arguments.length = f.arity → (∃ x ∈ arguments, x.isNaN = true) →
    ∃ value, f.call? arguments draws = some (.ok value, draws)
  power_nan : ∀ x y : Over lib, x.isNaN = true ∨ y.isNaN = true →
    ∃ value, Arithmetic.power x y = .ok value
  /-- Wherever a power or a call is evaluated. -/
  computes : ∀ (e before : Evaluation (Over lib)) (operands : List (Over lib))
    (r : Over lib × Evaluation (Over lib)), e.Occurs →
    (∀ n, (e.session.draws.draw n).InUnit) → e.Computes operands before r →
    (∀ x ∈ operands, x.isFinite = true) → FiniteOrReported before r

/-- A built-in function gives a finite number, or an error without taking a random number. -/
theorem finite_or_error (hlib : lib.Regular) (f : BuiltIn) {arguments : List (Over lib)}
    {draws : Draws (Over lib)} (hlength : arguments.length = f.arity)
    (hfinite : ∀ x ∈ arguments, x.isFinite = true) (hdraws : ∀ n, (draws.draw n).InUnit) :
    (∃ value draws', f.call? arguments draws = some (.ok value, draws') ∧ value.isFinite = true) ∨
      ∃ error, f.call? arguments draws = some (.error error, draws) := by
  cases f with
  -- a random number is finite, as it lies between zero and one
  | rand =>
    obtain rfl := List.length_eq_zero_iff.1 hlength
    exact Or.inl ⟨_, _, rfl, InUnit.isFinite (hdraws draws.taken)⟩
  | unary f =>
    obtain ⟨x, rfl⟩ := List.length_eq_one_iff.1 hlength
    -- a function with arguments takes no random number
    have hcontained := Libm.contained_unary hlib f (hfinite x List.mem_cons_self)
    show (∃ value draws', some (lib.unary f x, draws) = some (Except.ok value, draws') ∧ _) ∨ _
    cases hresult : lib.unary f x with
    | ok value => exact Or.inl ⟨value, draws, rfl, hcontained value hresult⟩
    | error error => exact Or.inr ⟨error, congrArg (fun result => some (result, draws)) hresult⟩
  | atan2 =>
    obtain ⟨y, x, rfl⟩ := List.length_eq_two.1 hlength
    exact Or.inl ⟨_, _, rfl, hlib.atan2 y x (hfinite y (by simp)) (hfinite x (by simp))⟩

/-- An error of a checked function is reported, and the value is then not a number. -/
theorem finiteOrReported_checked {before : Evaluation (Over lib)}
    {result : Except MathError (Over lib)}
    (h : ∀ value, result = .ok value → value.isFinite = true) :
    FiniteOrReported before (before.checked result) := by
  cases result with
  | ok value => exact Or.inl ⟨h value rfl, before.session.draws, rfl⟩
  | error error => exact Or.inr ⟨isNaN_nan, error, rfl⟩

/-- A call with as many finite arguments as the function takes. -/
theorem finiteOrReported_apply (hlib : lib.Regular) {before : Evaluation (Over lib)} {index : Nat}
    {f : BuiltIn} {arguments : List (Over lib)}
    (hget : before.session.table.get index = .ok (.builtIn f))
    (hlength : arguments.length = f.arity) (hfinite : ∀ x ∈ arguments, x.isFinite = true)
    (hdraws : ∀ n, (before.session.draws.draw n).InUnit) :
    FiniteOrReported before (before.apply index arguments) := by
  unfold apply
  rw [hget]
  simp only [Binding.call?]
  -- the name is bound to a function with as many arguments, so the call has a result
  rcases finite_or_error hlib f hlength hfinite hdraws with
    ⟨value, draws, hcall, hvalue⟩ | ⟨error, hcall⟩
  · rw [hcall]
    exact Or.inl ⟨hvalue, draws, rfl⟩
  · rw [hcall]
    exact Or.inr ⟨isNaN_nan, error, rfl⟩

/-- With a regular library nothing infinite comes of finite numbers unnoticed: each checked function
gives a finite number or an error, a NaN passes all checks, and a power or a call with finite
operands has a finite value or else reports one error and is not a number. -/
theorem Libm.Regular.letsNothingEscape (hlib : lib.Regular) : LetsNothingEscape lib where
  builtIn f arguments draws hlength hfinite hdraws := by
    rcases finite_or_error hlib f hlength hfinite hdraws with
      ⟨value, draws', hcall, hvalue⟩ | ⟨error, hcall⟩
    · exact ⟨_, _, hcall, fun _ h => by cases h; exact hvalue⟩
    · exact ⟨_, _, hcall, fun _ h => by cases h⟩
  power x y value hx hy h := contained_power hlib hx hy value h
  exp_ne_zero x value hx h := unary_exp_ne_zero hx h
  power_ne_zero x y value hx hy hbase h := power_ne_zero hx hy hbase h
  builtIn_nan f arguments draws hlength hnan := by
    obtain ⟨x, hx, hnan⟩ := hnan
    cases f with
    | rand =>
      obtain rfl := List.length_eq_zero_iff.1 hlength
      cases hx
    | unary f =>
      obtain ⟨x', rfl⟩ := List.length_eq_one_iff.1 hlength
      obtain rfl := List.mem_singleton.1 hx
      obtain ⟨value, hvalue⟩ := @unary_ok_of_isNaN _ lib f hnan
      exact ⟨value, congrArg (fun result => some (result, draws)) hvalue⟩
    | atan2 =>
      obtain ⟨y, x', rfl⟩ := List.length_eq_two.1 hlength
      exact ⟨_, rfl⟩
  power_nan x y h := ⟨_, Libm.power_eq_ok h⟩
  computes e before operands r he hdraws h hfinite := by
    -- reading the operands may take random numbers, but from the same supply
    have hdraws : ∀ n, (before.session.draws.draw n).InUnit := by
      rw [h.reaches.draw_eq]
      exact hdraws
    rcases h.eq he with ⟨x, y, rfl, rfl⟩ | ⟨index, f, hget, hlength, rfl⟩
    · exact finiteOrReported_checked fun value hvalue =>
        contained_power hlib (hfinite x (by simp)) (hfinite y (by simp)) value hvalue
    · exact finiteOrReported_apply hlib hget hlength hfinite hdraws

/-! ### A power that is too large -/

/-- A library that is right about the powers of one, about the power zero and about powers that are
too large, and about what the other functions are at zero, or at one in the case of the
logarithms. -/
def Libm.steep : Libm where
  log _ := 0
  log10 _ := 0
  exp _ := 1
  sin _ := 0
  cos _ := 1
  atan _ := 0
  atan2 _ _ := 0
  pow x y := if x == 1 || y == 0 then 1 else ofMagnitude false infinityBits

/-- None of its values is infinite, but for a power, and none is a NaN. -/
theorem Libm.regular_steep : Libm.steep.Regular where
  log _ _ _ := isFinite_zero
  log10 _ _ _ := isFinite_zero
  exp _ _ := isNaN_of_isFinite isFinite_one
  sin _ _ := isFinite_zero
  cos _ _ := isFinite_one
  atan _ _ := isFinite_zero
  atan2 _ _ _ _ := isFinite_zero
  -- one and infinity are numbers both
  pow x y _ _ hnan := by
    have hinf : (ofMagnitude false infinityBits).isNaN = false := by decide
    simp only [steep] at hnan
    split at hnan
    · rw [isNaN_of_isFinite isFinite_one] at hnan
      cases hnan
    · rw [hinf] at hnan
      cases hnan

section

variable {α : Type} [Arithmetic α]

/-- The first token of a power. -/
def tenToTheFourHundred (draws : Draws α) : Evaluation α :=
  ((Session.new "hoc" .silent draws).start (.ofText "10^400")).advance

theorem occurs_tenToTheFourHundred (draws : Draws α) : (tenToTheFourHundred draws).Occurs :=
  (Occurs.start _ .standard).advance

theorem draw_tenToTheFourHundred (draws : Draws α) :
    (tenToTheFourHundred draws).session.draws.draw = draws.draw :=
  congrArg Draws.draw (reads_advance _).draws

/-- The base and the exponent are read as they are written. -/
theorem computes_tenToTheFourHundred (draws : Draws α) : ∃ before r,
    (tenToTheFourHundred draws).Computes [Arithmetic.ofDecimal 10 0, Arithmetic.ofDecimal 400 0]
      before r := by
  have hbase : (tenToTheFourHundred draws).current =
      ⟨.number, .number (Arithmetic.ofDecimal 10 0), 1⟩ := by cbv
  have hcaret : (tenToTheFourHundred draws).advance.current.kind = .caret := by cbv
  have hexponent : (tenToTheFourHundred draws).advance.advance.current =
      ⟨.number, .number (Arithmetic.ofDecimal 400 0), 1⟩ := by cbv
  have hend : (tenToTheFourHundred draws).advance.advance.advance.current.kind = .finish := by cbv
  -- the three tokens are read one after another, and the input ends behind them
  have hprimary := primary_of_number (show (tenToTheFourHundred draws).current.kind = .number by
    rw [hbase])
  have hfactor := factor_of_number (by rw [hexponent]) (by rw [hend]; decide)
  have hcomputes := Computes.power (e := tenToTheFourHundred draws) (by rw [hprimary]; exact hcaret)
  rw [hprimary, hfactor, hbase, hexponent] at hcomputes
  exact ⟨_, _, hcomputes⟩

end

/-- The library is regular, so a power too large for a double is one reported error. -/
theorem Libm.Regular.letsNothingEscape_steep :
    Libm.steep.Regular ∧ LetsNothingEscape Libm.steep ∧
      ∃ before r, (tenToTheFourHundred (Over.draws 0) : Evaluation (Over .steep)).Computes
        [ofDecimal 10 0, ofDecimal 400 0] before r ∧ FiniteOrReported before r := by
  have hcontained := Libm.regular_steep.letsNothingEscape
  obtain ⟨before, r, h⟩ := computes_tenToTheFourHundred (Over.draws 0 : Draws (Over .steep))
  refine ⟨Libm.regular_steep, hcontained, before, r, h,
    hcontained.computes _ _ _ _ (occurs_tenToTheFourHundred _) ?_ h fun x hx => ?_⟩
  · rw [draw_tenToTheFourHundred]
    exact Over.inUnit_draws 0
  -- both operands are finite, only the power is not
  · rcases List.mem_cons.1 hx with rfl | hx
    · show (ofDecimal 10 0).isFinite = true
      decide
    · obtain rfl := List.mem_singleton.1 hx
      show (ofDecimal 400 0).isFinite = true
      decide

end Double

end DeskCalc
