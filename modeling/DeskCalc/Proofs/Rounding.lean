import DeskCalc.Double.Basic
import Mathlib.Algebra.Order.Field.Power
import Mathlib.Data.Int.Log
import Mathlib.Data.Rat.Floor
import Mathlib.Tactic.FieldSimp
import Mathlib.Tactic.GCongr
import Mathlib.Tactic.Positivity
import Mathlib.Tactic.Ring

/-!
# Rounding

Which rational number the bits of a magnitude stand for, and what rounding makes of one. A number
that some bits stand for is rounded to just these bits, in whatever terms it is written.

* `magnitude` — the rational number of a finite magnitude.
* `floorLog2_eq` — the binary logarithm of a fraction, rounded down.
* `nearestBits_of_magnitude` — rounding is exact where it can be.
* `nearestBits_lt` — nothing below `2 ^ 1023` is rounded to infinity.
* `nearestBits_lt_one` — what is below one by a whole number of steps stays below one.
-/

namespace DeskCalc.Double

/-! ## Finite magnitudes -/

/-- The rational number of the finite magnitude with the given bits. -/
def magnitude (bits : Nat) : ℚ := significand bits * 2 ^ binaryExponent bits

theorem fraction_pos (bits : Nat) : 0 < (fraction bits).2 := by
  unfold fraction
  simp only [Nat.pow_eq]
  split
  · exact Nat.one_pos
  · exact Nat.two_pow_pos _

/-- A magnitude is the fraction of its bits. -/
theorem magnitude_eq (bits : Nat) :
    magnitude bits = (fraction bits).1 / (fraction bits).2 := by
  unfold magnitude fraction
  simp only [Nat.pow_eq]
  split
  -- powers of two with an exponent that is not negative go to the numerator
  · next h =>
    obtain ⟨k, hk⟩ := Int.eq_ofNat_of_zero_le h
    simp [hk]
  -- and the others to the denominator
  · next h =>
    obtain ⟨k, hk⟩ : ∃ k : Nat, binaryExponent bits = -k := ⟨(-binaryExponent bits).toNat, by omega⟩
    simp [hk, div_eq_mul_inv]

/-- The significand and the exponent of a magnitude, and how the bits come from them: either the
first bit is missing and the exponent is the least there is, or the significand has all 53 bits. -/
theorem bits_cases (bits : Nat) :
    binaryExponent bits = -1074 ∧ significand bits = bits ∧ bits < 2 ^ 52 ∨
      -1074 ≤ binaryExponent bits ∧ 2 ^ 52 ≤ significand bits ∧ significand bits < 2 ^ 53 ∧
        bits = significand bits + (binaryExponent bits + 1074).toNat * 2 ^ 52 := by
  unfold significand binaryExponent
  simp only [Nat.pow_eq]
  split
  · omega
  · omega

theorem significand_pos {bits : Nat} (h : 0 < bits) : 0 < significand bits := by
  rcases bits_cases bits with ⟨-, hm, -⟩ | ⟨-, hm, -⟩
  · omega
  · omega

theorem magnitude_pos {bits : Nat} (h : 0 < bits) : 0 < magnitude bits := by
  have hm : (0 : ℚ) < significand bits := by exact_mod_cast significand_pos h
  unfold magnitude
  positivity

/-! ## Scaling and logarithms -/

variable {num den : Nat}

theorem scaleDown_pos (hden : 0 < den) (q : Int) : 0 < (scaleDown num den q).2 := by
  unfold scaleDown
  simp only [Nat.pow_eq]
  split
  · exact Nat.mul_pos hden (Nat.two_pow_pos _)
  · exact hden

/-- Scaling divides by a power of two. -/
theorem scaleDown_div (num den : Nat) (q : Int) :
    ((scaleDown num den q).1 : ℚ) / (scaleDown num den q).2 = num / den / 2 ^ q := by
  unfold scaleDown
  simp only [Nat.pow_eq]
  -- by the sign of the exponent, as for the fraction
  split
  · next h =>
    obtain ⟨k, rfl⟩ := Int.eq_ofNat_of_zero_le h
    simp [div_div]
  · next h =>
    obtain ⟨k, rfl⟩ : ∃ k : Nat, q = -k := ⟨(-q).toNat, by omega⟩
    simp [div_eq_mul_inv, mul_right_comm]

/-- A scaled fraction is at least one if the fraction is at least the power. -/
theorem scaleDown_le_iff (hden : 0 < den) (q : Int) :
    (scaleDown num den q).2 ≤ (scaleDown num den q).1 ↔ (2 : ℚ) ^ q ≤ num / den := by
  have hd : (0 : ℚ) < (scaleDown num den q).2 := by exact_mod_cast scaleDown_pos hden q
  have hp : (0 : ℚ) < 2 ^ q := by positivity
  rw [← one_le_div hp, ← scaleDown_div, one_le_div hd, Nat.cast_le]

/-- A fraction lies between powers of two that its logarithms give. -/
theorem ratio_bracket (hnum : 0 < num) (hden : 0 < den) :
    (2 : ℚ) ^ ((num.log2 : Int) - den.log2 - 1) ≤ num / den ∧
      (num : ℚ) / den < 2 ^ ((num.log2 : Int) - den.log2 + 1) := by
  have hn : (2 : ℚ) ^ num.log2 ≤ num := by exact_mod_cast Nat.log2_self_le hnum.ne'
  have hn' : (num : ℚ) < 2 ^ (num.log2 + 1) := by exact_mod_cast Nat.lt_log2_self
  have hd : (2 : ℚ) ^ den.log2 ≤ den := by exact_mod_cast Nat.log2_self_le hden.ne'
  have hd' : (den : ℚ) < 2 ^ (den.log2 + 1) := by exact_mod_cast Nat.lt_log2_self
  have hpos : (0 : ℚ) < den := by exact_mod_cast hden
  -- the bounds are those of the two logarithms, divided crosswise
  have hlow : (2 : ℚ) ^ ((num.log2 : Int) - den.log2 - 1) = 2 ^ num.log2 / 2 ^ (den.log2 + 1) := by
    rw [sub_sub, zpow_sub₀ two_ne_zero, zpow_natCast, ← Nat.cast_succ, zpow_natCast]
  have hhigh : (2 : ℚ) ^ ((num.log2 : Int) - den.log2 + 1) = 2 ^ (num.log2 + 1) / 2 ^ den.log2 := by
    rw [sub_add_eq_add_sub, zpow_sub₀ two_ne_zero, zpow_natCast, ← Nat.cast_succ, zpow_natCast]
  rw [hlow, hhigh, div_le_div_iff₀ (by positivity) hpos, div_lt_div_iff₀ hpos (by positivity)]
  constructor
  · gcongr
  · exact mul_lt_mul hn' hd (by positivity) (by positivity)

/-- An integer logarithm lies between two powers. -/
theorem log_eq {x : ℚ} (hx : 0 < x) {e : Int} (hlow : 2 ^ e ≤ x) (hhigh : x < 2 ^ (e + 1)) :
    Int.log 2 x = e := by
  have hle := (Int.zpow_le_iff_le_log Nat.one_lt_two hx).1 (by exact_mod_cast hlow)
  have hlt := (Int.lt_zpow_iff_log_lt Nat.one_lt_two hx).1 (by exact_mod_cast hhigh)
  omega

/-- What is computed is the logarithm, rounded down. -/
theorem floorLog2_eq (hnum : 0 < num) (hden : 0 < den) :
    floorLog2 num den = Int.log 2 (num / den : ℚ) := by
  have hx : (0 : ℚ) < num / den := by positivity
  -- the logarithm is one of two numbers, and the comparison tells which
  obtain ⟨hlow, hhigh⟩ := ratio_bracket hnum hden
  unfold floorLog2
  simp only [scaleDown_le_iff hden]
  split
  · next h => exact (log_eq hx h hhigh).symm
  · next h => exact (log_eq hx hlow (by rw [sub_add_cancel]; exact not_le.1 h)).symm

/-! ## Rounding -/

theorem roundDiv_mul (m : Nat) (hden : 0 < den) : roundDiv (m * den) den = m := by
  simp [roundDiv, Nat.mul_div_cancel m hden, hden]

/-- Rounding adds one to the quotient at most. -/
theorem roundDiv_le (num den : Nat) : roundDiv num den ≤ num / den + 1 := by
  unfold roundDiv
  simp only
  split
  · omega
  · split <;> omega

/-- The logarithm of a magnitude, as far as it decides the exponent. -/
theorem exponent_of_magnitude {bits : Nat} (h : 0 < bits) :
    max (-1074) (Int.log 2 (magnitude bits) - 52) = binaryExponent bits := by
  have hpos := magnitude_pos h
  have htwo : (0 : ℚ) < 2 ^ binaryExponent bits := by positivity
  rcases bits_cases bits with ⟨hq, hm, hlt⟩ | ⟨hq, hlow, hhigh, -⟩
  -- subnormal: the significand is below `2 ^ 52`, so the maximum is the least exponent
  · have hlog : Int.log 2 (magnitude bits) < -1074 + 52 := by
      refine (Int.lt_zpow_iff_log_lt Nat.one_lt_two hpos).1 ?_
      have hlt : (bits : ℚ) < 2 ^ (52 : Int) := by exact_mod_cast hlt
      rw [magnitude, hq, hm, Nat.cast_ofNat, zpow_add₀ two_ne_zero, mul_comm]
      exact mul_lt_mul_of_pos_left hlt (by positivity)
    rw [hq]
    omega
  -- normal: the significand has 53 bits, so the logarithm gives the exponent
  · have hlog : Int.log 2 (magnitude bits) = binaryExponent bits + 52 := by
      have hlow : (2 : ℚ) ^ 52 ≤ significand bits := by exact_mod_cast hlow
      have hhigh : (significand bits : ℚ) < 2 ^ 53 := by exact_mod_cast hhigh
      refine log_eq hpos ?_ ?_
      · rw [magnitude, zpow_add₀ two_ne_zero, mul_comm]
        gcongr
        exact_mod_cast hlow
      · rw [magnitude, add_assoc, zpow_add₀ two_ne_zero, mul_comm]
        gcongr
        exact_mod_cast hhigh
    rw [hlog]
    omega

/-- What some bits stand for is rounded to these bits. -/
theorem nearestBits_of_magnitude {bits : Nat} (h : bits < infinityBits) (hden : 0 < den)
    (hvalue : (num : ℚ) / den = magnitude bits) : nearestBits num den = bits := by
  have hd : (0 : ℚ) < den := by exact_mod_cast hden
  rcases Nat.eq_zero_or_pos bits with rfl | hbits
  · have hnum : num = 0 := by
      have hzero : (num : ℚ) / den = 0 := by rw [hvalue]; simp [magnitude, significand]
      rcases div_eq_zero_iff.1 hzero with h | h
      · exact_mod_cast h
      · exact absurd h hd.ne'
    rw [nearestBits, if_pos hnum]
  · have hnum : 0 < num := by
      have hpos := magnitude_pos hbits
      rw [← hvalue, div_pos_iff_of_pos_right hd] at hpos
      exact_mod_cast hpos
    -- scaled to the exponent of the bits, the number is an integer: their significand
    have hscaled : (scaleDown num den (binaryExponent bits)).1 =
        significand bits * (scaleDown num den (binaryExponent bits)).2 := by
      have hpos := @scaleDown_pos num den hden (binaryExponent bits)
      have hdiv := scaleDown_div num den (binaryExponent bits)
      rw [hvalue, magnitude, mul_div_cancel_right₀ _ (by positivity),
        div_eq_iff (by positivity)] at hdiv
      exact_mod_cast hdiv
    rw [nearestBits, if_neg hnum.ne', floorLog2_eq hnum hden, hvalue]
    simp only [exponent_of_magnitude hbits]
    rw [hscaled, roundDiv_mul _ (scaleDown_pos hden _), Nat.pow_eq]
    have hsum : significand bits + (binaryExponent bits + 1074).toNat * 2 ^ 52 = bits := by
      rcases bits_cases bits with ⟨hq, hm, -⟩ | ⟨-, -, -, hb⟩
      · rw [hq, hm]
        simp
      · exact hb.symm
    rw [hsum]
    exact Nat.min_eq_right h.le

/-- Before it is rounded, a significand has at most 53 bits in front of its point. -/
theorem floor_scaleDown_lt (hnum : 0 < num) (hden : 0 < den) {q : Int}
    (hq : Int.log 2 (num / den : ℚ) - 52 ≤ q) :
    (scaleDown num den q).1 / (scaleDown num den q).2 < 2 ^ 53 := by
  have hx : (0 : ℚ) < num / den := by positivity
  have hpos : (0 : ℚ) < (scaleDown num den q).2 := by exact_mod_cast scaleDown_pos hden q
  have hlt : (num : ℚ) / den < 2 ^ (q + 53) := by
    have hpow := (Int.lt_zpow_iff_log_lt Nat.one_lt_two hx).2
      (show Int.log 2 (num / den : ℚ) < q + 53 by omega)
    exact_mod_cast hpow
  -- it is enough to know the quotient before it is rounded down
  have hdiv : ((scaleDown num den q).1 : ℚ) / (scaleDown num den q).2 < 2 ^ 53 := by
    rw [scaleDown_div, div_lt_iff₀ (by positivity), mul_comm]
    rw [zpow_add₀ two_ne_zero] at hlt
    exact_mod_cast hlt
  rw [Nat.div_lt_iff_lt_mul (scaleDown_pos hden q)]
  rw [div_lt_iff₀ hpos] at hdiv
  exact_mod_cast hdiv

/-- What is below a power of two that is finite is not rounded to infinity. -/
theorem nearestBits_lt {k : Nat} (hden : 0 < den) (hk : k ≤ 1023) (h : num < 2 ^ k * den) :
    nearestBits num den < infinityBits := by
  have hd : (0 : ℚ) < den := by exact_mod_cast hden
  rcases Nat.eq_zero_or_pos num with rfl | hnum
  · rw [nearestBits, if_pos rfl]
    decide
  · have hx : (0 : ℚ) < num / den := by positivity
    -- the logarithm bounds the exponent, and the significand has 53 bits
    have hlog : Int.log 2 (num / den : ℚ) < k := by
      refine (Int.lt_zpow_iff_log_lt Nat.one_lt_two hx).1 ?_
      rw [div_lt_iff₀ hd]
      exact_mod_cast h
    rw [nearestBits, if_neg hnum.ne', floorLog2_eq hnum hden]
    simp only
    generalize hq : max (-1074) (Int.log 2 (num / den : ℚ) - 52) = q
    have hfloor := floor_scaleDown_lt hnum hden (show Int.log 2 (num / den : ℚ) - 52 ≤ q by omega)
    have hround := roundDiv_le (scaleDown num den q).1 (scaleDown num den q).2
    refine Nat.lt_of_le_of_lt (Nat.min_le_right _ _) ?_
    rw [infinityBits, Nat.pow_eq]
    omega

/-- A number of steps of `2 ^ -53` below one is not rounded, and so it stays below one. -/
theorem nearestBits_lt_one {steps : Nat} (h : steps < 2 ^ 53) :
    nearestBits steps (2 ^ 53) < 1023 * 2 ^ 52 := by
  rcases Nat.eq_zero_or_pos steps with rfl | hpos
  · rw [nearestBits, if_pos rfl]
    decide
  · have hden : 0 < 2 ^ 53 := Nat.two_pow_pos 53
    have hx : (0 : ℚ) < steps / (2 ^ 53 : Nat) := by positivity
    have hlog : Int.log 2 (steps / (2 ^ 53 : Nat) : ℚ) < 0 := by
      refine (Int.lt_zpow_iff_log_lt Nat.one_lt_two hx).1 ?_
      rw [zpow_zero, div_lt_one (by positivity)]
      exact_mod_cast h
    have hlog' : -53 ≤ Int.log 2 (steps / (2 ^ 53 : Nat) : ℚ) := by
      refine (Int.zpow_le_iff_le_log Nat.one_lt_two hx).1 ?_
      rw [le_div_iff₀ (by positivity)]
      norm_num
      exact hpos
    rw [nearestBits, if_neg hpos.ne', floorLog2_eq hpos hden]
    simp only
    generalize hq : max (-1074) (Int.log 2 (steps / (2 ^ 53 : Nat) : ℚ) - 52) = q
    have hfloor := floor_scaleDown_lt hpos hden
      (show Int.log 2 (steps / (2 ^ 53 : Nat) : ℚ) - 52 ≤ q by omega)
    -- the scaled number is an integer
    obtain ⟨j, hj⟩ : ∃ j : Nat, (-q).toNat = j + 53 := ⟨(-q).toNat - 53, by omega⟩
    have hscaled : scaleDown steps (2 ^ 53) q = (steps * 2 ^ j * 2 ^ 53, 2 ^ 53) := by
      rw [scaleDown, if_neg (by omega), hj, Nat.pow_eq, pow_add, mul_assoc]
    rw [hscaled, Nat.mul_div_cancel _ hden] at hfloor
    rw [hscaled, roundDiv_mul _ hden, Nat.pow_eq]
    refine Nat.lt_of_le_of_lt (Nat.min_le_right _ _) ?_
    omega

end DeskCalc.Double
