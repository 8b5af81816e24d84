import DeskCalc.Double.Checked

/-!
# What is not a number

A double that is not a number stays so through every operation but one. Comparisons with it are
false, so no check refuses it, and the arithmetic hands it on. Only a power may swallow it: anything
to the power zero is one, and so is one to any power.

* `isNaN_add`, `isNaN_neg` and their like — the arithmetic of doubles.
* `Libm.Lawful` — what a mathematical library does with what is not a number, as the standard of the
  language C has it.
* `Libm.unary_of_isNaN`, `Libm.power_eq_ok` — no check refuses what is not a number.
-/

namespace DeskCalc.Double

open Float.Model (UnpackedFloat)

/-! ## Arithmetic -/

/-- A double is not a number if it stands for none. -/
theorem isNaN_iff {x : Float} : x.isNaN = true ↔ x.toModel.unpack = .notANumber := by
  show x.toModel.unpack.isNaN = true ↔ _
  cases x.toModel.unpack with
  | notANumber => exact iff_of_true rfl rfl
  | _ => exact iff_of_false Bool.false_ne_true (fun h => by cases h)

theorem isNaN_nan : nan.isNaN = true := by decide

/-- What is not a number stays so when it is packed. -/
theorem isNaN_pack : (Float.ofModel (.pack .notANumber)).isNaN = true := by decide

/-- An operation is on what the bits stand for, and the result is packed again. -/
theorem isNaN_of_unpack (op : UnpackedFloat → UnpackedFloat → UnpackedFloat)
    (hleft : ∀ b, op .notANumber b = .notANumber) (hright : ∀ a, op a .notANumber = .notANumber)
    {x y : Float} (h : x.isNaN = true ∨ y.isNaN = true) :
    (Float.ofModel (.pack (op x.toModel.unpack y.toModel.unpack))).isNaN = true := by
  rcases h with h | h
  · rw [isNaN_iff.1 h, hleft]
    exact isNaN_pack
  · rw [isNaN_iff.1 h, hright]
    exact isNaN_pack

theorem isNaN_add {x y : Float} (h : x.isNaN = true ∨ y.isNaN = true) : (x + y).isNaN = true :=
  isNaN_of_unpack (.add _) (fun _ => rfl) (fun a => by cases a <;> rfl) h

theorem isNaN_sub {x y : Float} (h : x.isNaN = true ∨ y.isNaN = true) : (x - y).isNaN = true :=
  isNaN_of_unpack (.sub _) (fun _ => rfl) (fun a => by cases a <;> rfl) h

theorem isNaN_mul {x y : Float} (h : x.isNaN = true ∨ y.isNaN = true) : (x * y).isNaN = true :=
  isNaN_of_unpack (.mul _) (fun _ => rfl) (fun a => by cases a <;> rfl) h

theorem isNaN_div {x y : Float} (h : x.isNaN = true ∨ y.isNaN = true) : (x / y).isNaN = true :=
  isNaN_of_unpack (.div _) (fun _ => rfl) (fun a => by cases a <;> rfl) h

theorem isNaN_remainder {x y : Float} (h : x.isNaN = true ∨ y.isNaN = true) :
    (remainder x y).isNaN = true := by
  have hnan : (x.isNaN || y.isNaN || x.isInf || y == 0) = true := by
    rcases h with h | h <;> simp only [h, Bool.true_or, Bool.or_true]
  rw [remainder, if_pos hnan]
  exact isNaN_nan

theorem isNaN_neg {x : Float} (h : x.isNaN = true) : (-x).isNaN = true := by
  show (Float.ofModel (.pack x.toModel.unpack.neg)).isNaN = true
  rw [isNaN_iff.1 h]
  exact isNaN_pack

theorem isNaN_abs {x : Float} (h : x.isNaN = true) : x.abs.isNaN = true := by
  show (Float.ofModel (.pack x.toModel.unpack.abs)).isNaN = true
  rw [isNaN_iff.1 h]
  exact isNaN_pack

theorem isNaN_sqrt {x : Float} (h : x.isNaN = true) : x.sqrt.isNaN = true := by
  show (Float.ofModel (.pack (.sqrt _ x.toModel.unpack))).isNaN = true
  rw [isNaN_iff.1 h]
  exact isNaN_pack

theorem not_isFinite {x : Float} (h : x.isNaN = true) : x.isFinite = false := by
  show x.toModel.unpack.isFinite = false
  rw [isNaN_iff.1 h]
  rfl

theorem isNaN_trunc {x : Float} (h : x.isNaN = true) : (trunc x).isNaN = true := by
  -- only finite doubles are truncated, all others are handed on
  rw [trunc, if_neg (by simp [not_isFinite h])]
  exact h

/-! ## Comparisons -/

/-- What is not a number is not comparable. -/
theorem compare_eq_none {x y : Float} (h : x.isNaN = true ∨ y.isNaN = true) :
    x.toModel.unpack.compare y.toModel.unpack = none := by
  rcases h with h | h
  · rw [isNaN_iff.1 h]
    rfl
  · rw [isNaN_iff.1 h]
    cases x.toModel.unpack <;> rfl

/-- No comparison with what is not a number holds. -/
theorem not_lt {x y : Float} (h : x.isNaN = true ∨ y.isNaN = true) : ¬x < y := by
  show ¬decide ((x.toModel.unpack.compare y.toModel.unpack == some .lt) = true) = true
  rw [compare_eq_none h]
  decide

/-- What is not a number equals nothing, not even itself. -/
theorem not_beq {x y : Float} (h : x.isNaN = true ∨ y.isNaN = true) : (x == y) = false := by
  show (x.toModel.unpack.compare y.toModel.unpack == some .eq) = false
  rw [compare_eq_none h]
  rfl

/-! ## Checked functions -/

/-- The power swallows what is not a number. -/
def Swallows (base exponent : Float) : Prop :=
  base.isNaN = true ∧ (exponent == 0) = true ∨ (base == 1) = true ∧ exponent.isNaN = true

namespace Libm

/-- What a library does with what is not a number, as the standard of the language C has it. -/
structure Lawful (lib : Libm) : Prop where
  log : ∀ x, x.isNaN = true → (lib.log x).isNaN = true
  log10 : ∀ x, x.isNaN = true → (lib.log10 x).isNaN = true
  exp : ∀ x, x.isNaN = true → (lib.exp x).isNaN = true
  sin : ∀ x, x.isNaN = true → (lib.sin x).isNaN = true
  cos : ∀ x, x.isNaN = true → (lib.cos x).isNaN = true
  atan : ∀ x, x.isNaN = true → (lib.atan x).isNaN = true
  atan2 : ∀ y x, y.isNaN = true ∨ x.isNaN = true → (lib.atan2 y x).isNaN = true
  /-- Anything to the power zero is one, even what is not a number. -/
  pow_zero : ∀ x y, (y == 0) = true → lib.pow x y = 1
  /-- One to any power is one, even to what is not a number. -/
  one_pow : ∀ x y, (x == 1) = true → lib.pow x y = 1
  pow : ∀ x y, x.isNaN = true ∨ y.isNaN = true → ¬Swallows x y → (lib.pow x y).isNaN = true

variable {lib : Libm}

/-- No check refuses what is not a number, and it is handed on. -/
theorem unary_of_isNaN (h : lib.Lawful) (f : UnaryFunction) {x : Float} (hx : x.isNaN = true) :
    ∃ value, lib.unary f x = .ok value ∧ value.isNaN = true := by
  have hlt : ¬x < 0 := not_lt (Or.inl hx)
  have hzero : (x == 0) = false := not_beq (Or.inl hx)
  -- those that check their argument compare it, and no comparison holds of it
  cases f with
  | sin => exact ⟨_, rfl, h.sin x hx⟩
  | cos => exact ⟨_, rfl, h.cos x hx⟩
  | atan => exact ⟨_, rfl, h.atan x hx⟩
  | log => exact ⟨_, by simp [unary, checkedLog, hlt, hzero], h.log x hx⟩
  | log10 => exact ⟨_, by simp [unary, checkedLog, hlt, hzero], h.log10 x hx⟩
  | exp => exact ⟨_, by simp [unary, rangeChecked, not_isFinite hx], h.exp x hx⟩
  | sqrt => exact ⟨_, by simp [unary, checkedSqrt, hlt], isNaN_sqrt hx⟩
  | int => exact ⟨_, rfl, isNaN_trunc hx⟩
  | abs => exact ⟨_, rfl, isNaN_abs hx⟩

/-- A power is not checked where an operand is not a number. -/
theorem power_eq_ok {x y : Float} (h : x.isNaN = true ∨ y.isNaN = true) :
    lib.power x y = .ok (lib.pow x y) := by
  -- each check in front asks for finite operands or for a comparison, and both fail here
  have hdomain : ¬(x < 0 ∧ x.isFinite ∧ y.isFinite ∧ !isIntegral y) := by
    rcases h with h | h <;> simp [not_isFinite h]
  have hpole : ¬(x == 0 ∧ y < 0) := by
    rcases h with h | h
    · simp [not_beq (Or.inl h)]
    · exact fun hc => not_lt (Or.inl h) hc.2
  have hfinite : (x.isFinite && y.isFinite) = false := by
    rcases h with h | h <;> simp [not_isFinite h]
  rw [power, if_neg hdomain, if_neg hpole, rangeChecked, hfinite]
  rfl

end Libm

end DeskCalc.Double
