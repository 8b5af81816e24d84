import DeskCalc.Proofs.FiniteDoubles
import DeskCalc.Proofs.Rounding

/-!
# Finite results

What is finite because what it is computed from is.

* `InUnit.isFinite` — a number of the unit interval; `inUnit_random` — every random number is one.
* `isFinite_trunc` — the integral part.
* `isFinite_sqrt` — the square root of what is not negative.
-/

namespace DeskCalc.Double

open Float.Model (UnpackedFloat Format totalExponent)
open Float.Model.UnpackedFloat

/-! ## Comparisons -/

variable {x y : Float}

/-- Doubles are compared by what they stand for. -/
theorem lt_iff : x < y ↔ x.toModel.unpack.compare y.toModel.unpack = some .lt :=
  decide_eq_true_iff.trans beq_iff_eq

theorem le_iff : x ≤ y ↔ (x.toModel.unpack.compare y.toModel.unpack).any Ordering.isLE = true :=
  decide_eq_true_iff

theorem beq_iff : (x == y) = true ↔ x.toModel.unpack.compare y.toModel.unpack = some .eq := by
  show (x.toModel.unpack.compare y.toModel.unpack == some .eq) = true ↔ _
  exact beq_iff_eq

theorem unpack_zero : (0 : Float).toModel.unpack = .zero .positive := rfl

/-- The double one has the least significand of its exponent. -/
theorem unpack_one :
    (1 : Float).toModel.unpack = .finite .positive (2 ^ 52) (-52) (Nat.two_pow_pos 52) := rfl

theorem isFinite_zero : (0 : Float).isFinite = true := by decide

theorem isFinite_one : (1 : Float).isFinite = true := by decide

/-- A finite double is a zero or has a significand and an exponent. -/
theorem unpack_of_isFinite (h : x.isFinite = true) : (∃ s, x.toModel.unpack = .zero s) ∨
    ∃ s m e hm, x.toModel.unpack = .finite s m e hm := by
  have hfinite : x.toModel.unpack.isFinite = true := h
  cases hx : x.toModel.unpack with
  | notANumber => rw [hx] at hfinite; cases hfinite
  | infinity s => rw [hx] at hfinite; cases hfinite
  | zero s => exact Or.inl ⟨s, rfl⟩
  | finite s m e hm => exact Or.inr ⟨s, m, e, hm, rfl⟩

/-- What is finite and neither negative nor zero is positive. -/
theorem pos_of_not (h : x.isFinite = true) (hneg : ¬x < 0) (hzero : (x == 0) = false) : 0 < x := by
  rw [← Bool.not_eq_true] at hzero
  rw [lt_iff, unpack_zero] at hneg ⊢
  rw [beq_iff, unpack_zero] at hzero
  -- a zero equals zero whatever its sign, and a significand has the sign that is left
  rcases unpack_of_isFinite h with ⟨s, hx⟩ | ⟨s, m, e, hm, hx⟩
  · rw [hx] at hzero
    exact absurd rfl hzero
  · rw [hx] at hneg ⊢
    cases s with
    | negative => exact absurd rfl hneg
    | positive => rfl

/-- What is neither infinite nor not a number is finite. -/
theorem isFinite_of_not (hnan : x.isNaN = false) (hinf : x.isInf = false) : x.isFinite = true := by
  have hnan : x.toModel.unpack.isNaN = false := hnan
  have hinf : x.toModel.unpack.isInf = false := hinf
  show x.toModel.unpack.isFinite = true
  cases hx : x.toModel.unpack with
  | notANumber => rw [hx] at hnan; cases hnan
  | infinity s => rw [hx] at hinf; cases hinf
  | zero s => rfl
  | finite s m e hm => rfl

/-! ## The unit interval -/

/-- Is the number at least zero and below one? -/
def InUnit (x : Float) : Prop := 0 ≤ x ∧ x < 1

/-- A number of the unit interval is finite: no infinity lies between zero and one. -/
theorem InUnit.isFinite (h : InUnit x) : x.isFinite = true := by
  obtain ⟨hlow, hhigh⟩ := h
  rw [le_iff, unpack_zero] at hlow
  rw [lt_iff, unpack_one] at hhigh
  show x.toModel.unpack.isFinite = true
  cases hx : x.toModel.unpack with
  | notANumber => rw [hx] at hhigh; cases hhigh
  | infinity s =>
    -- minus infinity is not above zero, and infinity is not below one
    cases s with
    | negative => rw [hx] at hlow; cases hlow
    | positive => rw [hx] at hhigh; cases hhigh
  | zero s => rfl
  | finite s m e hm => rfl

/-- Positive numbers are compared by their exponents first. -/
theorem compare_one {m : Nat} {e : Int} (hm : 0 < m) (he : e < -52) :
    (UnpackedFloat.finite .positive m e hm).compare (1 : Float).toModel.unpack = some .lt := by
  rw [unpack_one]
  show some ((compare e (-52)).then (compare m (2 ^ 52))) = some .lt
  rw [compare_lt_iff_lt.2 he]
  rfl

/-- The bits of one are those of the exponent zero, and below them the exponents are smaller. -/
theorem inUnit_ofMagnitude {bits : Nat} (h : bits < 1023 * 2 ^ 52) :
    InUnit (ofMagnitude false bits) := by
  have hlt : bits < 2 ^ 63 := h.trans (by decide)
  have hexponent : (BitVec.ofNat 11 (bits / 2 ^ 52)).toNat < 1023 := by
    rw [BitVec.toNat_ofNat]
    omega
  rw [InUnit, le_iff, lt_iff, unpack_zero, unpack_ofMagnitude]
  unfold unpack
  simp only [unpackExponent_word _ hlt, unpackMantissa_word _ hlt, sign_word _ hlt, exponentBias_eq]
  split
  · next hall =>
    rw [← BitVec.toNat_inj, toNat_neg_one] at hall
    omega
  · split
    -- without an exponent the double is zero or subnormal, and both are far below one
    · next hzero =>
      split
      · exact ⟨rfl, rfl⟩
      · exact ⟨rfl, compare_one _ (by rw [hzero]; decide)⟩
    · exact ⟨rfl, compare_one _ (by omega)⟩

/-- The random numbers are of the unit interval. -/
theorem inUnit_random (seed : UInt64) (n : Nat) : InUnit (random seed n) := by
  refine inUnit_ofMagnitude (nearestBits_lt_one ?_)
  -- whatever the mixed bits are, only the upper fifty-three of them are used
  generalize mixBits (seed + (UInt64.ofNat n + 1) * 0x9e3779b97f4a7c15) = z
  have hlt := z.toNat_lt
  rw [UInt64.toNat_shiftRight, show (11 : UInt64).toNat % 64 = 11 from rfl,
    Nat.shiftRight_eq_div_pow]
  omega

/-! ## The integral part -/

/-- The integral part of a finite double is finite. -/
theorem isFinite_trunc (h : x.isFinite = true) : (trunc x).isFinite = true := by
  have hbits := (isFinite_iff x).1 h
  rw [trunc, if_pos h]
  refine isFinite_ofMagnitude _ ?_
  show nearestBits ((fraction (magnitudeBits x)).1 / (fraction (magnitudeBits x)).2) 1 < _
  generalize magnitudeBits x = bits at hbits
  have hvalue := magnitude_eq bits
  by_cases hq : 0 ≤ binaryExponent bits
  · -- an integer is left as it is
    have hden : (fraction bits).2 = 1 := by simp only [fraction, if_pos hq]
    rw [hden, Nat.div_one, nearestBits_of_magnitude hbits Nat.one_pos (by rw [hvalue, hden])]
    exact hbits
  -- otherwise the integral part has no more bits than the significand
  · have hnum : (fraction bits).1 < 2 ^ 53 := by
      simp only [fraction, if_neg hq]
      rcases bits_cases bits with ⟨-, hm, hlt⟩ | ⟨-, -, hlt, -⟩
      · omega
      · exact hlt
    refine nearestBits_lt Nat.one_pos (by decide : 53 ≤ 1023) ?_
    rw [Nat.mul_one]
    exact (Nat.div_le_self _ _).trans_lt hnum

/-! ## The square root -/

/-- What is packed with an exponent that is not too large is finite. -/
theorem isFinite_pack (s : Sign) {m : Nat} {e : Int} (hm : 0 < m) (he : e ≤ 971) :
    (Float.ofModel (.pack (.finite s m e hm))).isFinite = true := by
  refine (isFinite_unpack_iff _).2 ?_
  show ¬@unpackExponent .binary64 (pack .binary64 (.finite s m e hm)) = -1#_
  unfold pack
  simp only [exponentBias_eq]
  split
  · omega
  -- a normal number keeps its exponent, a subnormal one has none
  · split
    · rw [unpackExponent_packComponents, ← BitVec.toNat_inj, BitVec.toNat_ofNat, toNat_neg_one]
      show ¬(e + 1023 + 52).toNat % 2 ^ 11 = 2047
      omega
    · rw [unpackExponent_packComponents]
      decide

theorem isFinite_pack_zero (s : Sign) : (Float.ofModel (.pack (.zero s))).isFinite = true := by
  show (unpack .binary64 (packedZero .binary64 s)).isFinite = true
  rw [unpack_packedZero]
  rfl

/-- Shifting a significand divides it by a power of two. -/
theorem mantissa_shiftRight (em : ExtendedMantissa) (k : Nat) :
    (em >>> k).mantissa = em.mantissa / 2 ^ k := by
  induction k with
  | zero => exact (Nat.div_one _).symm
  | succ k ih =>
    show (em >>> k).mantissa / 2 = em.mantissa / 2 ^ (k + 1)
    rw [ih, Nat.div_div_eq_div_mul, Nat.pow_succ]

/-- How accurate a significand is does not change it. -/
theorem mantissa_ofMantissaAndAccuracy (m : Nat) (a : Accuracy) :
    (ExtendedMantissa.ofMantissaAndAccuracy m a).mantissa = m := by
  rcases a with _ | (_ | _ | _) <;> rfl

/-- Shifted to its exponent, a significand has at most 53 bits. -/
theorem mantissa_shiftToTargetExponent_lt (m : Nat) (e : Int) (a : Accuracy) :
    (shiftToTargetExponent .binary64 m e a).1.mantissa < 2 ^ 53 := by
  show (ExtendedMantissa.ofMantissaAndAccuracy m a >>>
    (max ((m.log2 : Int) + 1 + e - 53) (-1074) - e).toNat).mantissa < 2 ^ 53
  rw [mantissa_shiftRight, mantissa_ofMantissaAndAccuracy,
    Nat.div_lt_iff_lt_mul (Nat.two_pow_pos _), ← Nat.pow_add]
  exact Nat.lt_log2_self.trans_le (Nat.pow_le_pow_right Nat.two_pos (by omega))

/-- A significand is shifted to its exponent, and only down. -/
theorem exponent_shiftToTargetExponent (m : Nat) (e : Int) (a : Accuracy) :
    (shiftToTargetExponent .binary64 m e a).2 =
      max e (max ((m.log2 : Int) + 1 + e - 53) (-1074)) := by
  show e + ((max ((m.log2 : Int) + 1 + e - 53) (-1074) - e).toNat : Int) = _
  omega

/-- Rounding adds one to a significand at most. -/
theorem roundedMantissa_le (em : ExtendedMantissa) : em.roundedMantissa ≤ em.mantissa + 1 := by
  unfold ExtendedMantissa.roundedMantissa
  rcases em.accuracy with _ | (_ | _ | _) <;> simp only [Accuracy.roundToNearestEven] <;> omega

/-- What is not too large before it is rounded is finite then: rounding adds one to the exponent at
most. -/
theorem isFinite_roundWithAccuracy (s : Sign) {m : Nat} {e : Int} (a : Accuracy) (he : e ≤ 970)
    (hm : (m.log2 : Int) + e ≤ 1022) :
    (Float.ofModel (.pack (roundWithAccuracy .binary64 s m e a))).isFinite = true := by
  unfold roundWithAccuracy
  simp only
  split
  · exact isFinite_pack_zero s
  · refine isFinite_pack s _ ?_
    have hlt := mantissa_shiftToTargetExponent_lt m e a
    have hle := roundedMantissa_le (shiftToTargetExponent .binary64 m e a).1
    rw [exponent_shiftToTargetExponent, exponent_shiftToTargetExponent]
    -- so a significand of 53 bits may get one bit more, and no other
    have hlog : (shiftToTargetExponent .binary64 m e a).1.roundedMantissa.log2 < 54 := by
      by_cases hzero : (shiftToTargetExponent .binary64 m e a).1.roundedMantissa = 0
      · rw [hzero]
        decide
      · exact (Nat.log2_lt hzero).2 (by omega)
    omega

/-- How large a finite double can be. -/
theorem bounds_of_unpack {b : BitVec 64} {s : Sign} {m : Nat} {e : Int} {hm : 0 < m}
    (h : unpack .binary64 b = .finite s m e hm) : m < 2 ^ 53 ∧ e ≤ 971 := by
  have hexponent : (@unpackExponent .binary64 b).toNat < 2 ^ 11 := BitVec.isLt _
  have hfinite : ¬@unpackExponent .binary64 b = -1#_ := by
    rw [← isFinite_unpack_iff, h]
    rfl
  rw [← BitVec.toNat_inj, toNat_neg_one] at hfinite
  have hmantissa : (@unpackMantissa .binary64 b).toNat < 2 ^ 52 := BitVec.isLt _
  have hnormal : (1#1 ++ @unpackMantissa .binary64 b).toNat < 2 ^ 53 := BitVec.isLt _
  unfold unpack at h
  simp only [exponentBias_eq] at h
  -- the cases of unpacking: infinity or NaN, zero or subnormal, normal
  split at h
  · split at h <;> cases h
  · split at h
    · next hzero =>
      split at h
      · cases h
      · cases h
        rw [hzero]
        exact ⟨by omega, by decide⟩
    · cases h
      exact ⟨hnormal, by omega⟩

/-- The square root has half as many bits. -/
theorem log2_sqrt (n : Nat) : 2 * n.sqrt.log2 ≤ n.log2 := by
  by_cases hzero : n.sqrt = 0
  · rw [hzero]
    exact Nat.zero_le _
  -- the root is at least a power of two, and its square is at most the number
  · have hsquare : 2 ^ (2 * n.sqrt.log2) ≤ n := by
      calc 2 ^ (2 * n.sqrt.log2) = 2 ^ n.sqrt.log2 * 2 ^ n.sqrt.log2 := by rw [two_mul, pow_add]
        _ ≤ n.sqrt * n.sqrt := Nat.mul_self_le_mul_self (Nat.log2_self_le hzero)
        _ ≤ n := Nat.sqrt_le n
    have hne : n ≠ 0 := by
      rintro rfl
      exact hzero rfl
    exact (Nat.le_log2 hne).2 hsquare

/-- The square root of a finite double that is not negative is finite. -/
theorem isFinite_sqrt (h : x.isFinite = true) (hneg : ¬x < 0) : x.sqrt.isFinite = true := by
  rw [lt_iff, unpack_zero] at hneg
  show (Float.ofModel (.pack (.sqrt .binary64 x.toModel.unpack))).isFinite = true
  rcases unpack_of_isFinite h with ⟨s, hx⟩ | ⟨s, m, e, hm, hx⟩
  · rw [hx]
    exact isFinite_pack_zero s
  · rw [hx] at hneg ⊢
    cases s with
    | negative => exact absurd rfl hneg
    | positive =>
      obtain ⟨hlt, he⟩ := bounds_of_unpack hx
      unfold UnpackedFloat.sqrt sqrtCore
      simp only
      generalize hr : min (e.ediv 2) (Format.binary64.targetExponent
        ((totalExponent m e + 1).ediv 2)) = r
      have hhalf : r ≤ e / 2 := hr ▸ min_le_left _ _
      have hshift : m <<< (e - 2 * r).toNat < 2 ^ (53 + (e - 2 * r).toNat) := by
        rw [Nat.shiftLeft_eq, pow_add]
        exact Nat.mul_lt_mul_of_pos_right hlt (Nat.two_pow_pos _)
      have hne : m <<< (e - 2 * r).toNat ≠ 0 := by
        rw [Nat.shiftLeft_eq]
        positivity
      -- the logarithm of the root is half of that of the significand
      have hlog := (Nat.log2_lt hne).2 hshift
      have hroot := log2_sqrt (m <<< (e - 2 * r).toNat)
      exact isFinite_roundWithAccuracy _ _ (by omega) (by omega)

end DeskCalc.Double
