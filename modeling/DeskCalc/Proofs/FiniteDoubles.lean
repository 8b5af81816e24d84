import DeskCalc.Proofs.NotANumber
import Mathlib

/-!
# Finite doubles

A double is its sign bit and its magnitude bits, and it is finite if these are below those of
infinity.

* `ofMagnitude_magnitudeBits` — a double is made of its two parts.
* `isFinite_iff` — the finite doubles, by their magnitude bits.
* `neg_ofMagnitude` — taking the opposite turns the sign around and leaves the magnitude alone.

Mathlib is imported whole for the lemmas on packing and unpacking doubles (`pack_unpack` and its like),
which none of its modules brings along by itself.
-/

namespace DeskCalc.Double

open Float.Model (UnpackedFloat Format)
open Float.Model.UnpackedFloat

/-! ## Sign and magnitude -/

/-- The sign bit is not among those of the magnitude. -/
theorem magnitudeBits_lt (x : Float) : magnitudeBits x < 2 ^ 63 :=
  Nat.mod_lt _ (Nat.two_pow_pos 63)

/-- The bits of a double are its sign bit and those of its magnitude. -/
theorem toNat_toBits (x : Float) :
    x.toBits.toNat = if isNegative x then 2 ^ 63 + magnitudeBits x else magnitudeBits x := by
  have hlt := x.toBits.toNat_lt
  unfold isNegative magnitudeBits
  simp only [Nat.pow_eq, decide_eq_true_eq]
  split <;> omega

/-- A double is made of its sign and its magnitude. -/
theorem ofMagnitude_magnitudeBits (x : Float) :
    ofMagnitude (isNegative x) (magnitudeBits x) = x := by
  have hbits : (if isNegative x then Nat.pow 2 63 + magnitudeBits x else magnitudeBits x) =
      x.toBits.toNat := (toNat_toBits x).symm
  rw [ofMagnitude, hbits, UInt64.ofNat_toNat, Float.ofBits_toBits]

theorem toNat_unpackExponent (b : BitVec 64) :
    (@unpackExponent .binary64 b).toNat = b.toNat / 2 ^ 52 % 2 ^ 11 := by
  rw [unpackExponent_def]
  simp [Format.binary64, BitVec.extractLsb'_toNat, Nat.shiftRight_eq_div_pow]

/-- The exponent zero is written with these bits. -/
theorem exponentBias_eq : Format.binary64.exponentBias = 1023 := by decide

/-- The greatest exponent there is room for. -/
theorem toNat_neg_one : (-BitVec.ofNat Format.binary64.exponentBits 1).toNat = 2047 := by decide

/-- The greatest exponent is that of infinity, and of all magnitudes above it. -/
theorem unpackExponent_eq_iff (b : BitVec 64) :
    @unpackExponent .binary64 b = -1#_ ↔ infinityBits ≤ b.toNat % 2 ^ 63 := by
  rw [← BitVec.toNat_inj, toNat_unpackExponent, toNat_neg_one, infinityBits, Nat.pow_eq]
  have hlt := b.isLt
  omega

theorem toNat_unpackMantissa (b : BitVec 64) :
    (@unpackMantissa .binary64 b).toNat = b.toNat % 2 ^ 52 := by
  rw [unpackMantissa_def]
  simp [Format.binary64, BitVec.extractLsb'_toNat]

theorem toNat_unpackSign (b : BitVec 64) :
    (@unpackSign .binary64 b).toNat = b.toNat / 2 ^ 63 := by
  have hlt := b.isLt
  rw [unpackSign_def]
  simp [Format.binary64, BitVec.extractLsb'_toNat, Nat.shiftRight_eq_div_pow]
  omega

/-- Only infinity and what is not a number have the greatest exponent. -/
theorem isFinite_unpack_iff (b : BitVec 64) :
    (unpack .binary64 b).isFinite = true ↔ ¬@unpackExponent .binary64 b = -1#_ := by
  unfold unpack
  simp only
  split
  · next h => split <;> exact iff_of_false Bool.false_ne_true (not_not_intro h)
  · next h =>
    split
    · split <;> exact iff_of_true rfl h
    · exact iff_of_true rfl h

/-- The finite doubles are those whose magnitude is below infinity. -/
theorem isFinite_iff (x : Float) : x.isFinite = true ↔ magnitudeBits x < infinityBits := by
  refine (isFinite_unpack_iff x.toBits.toBitVec).trans ?_
  rw [unpackExponent_eq_iff, Nat.not_le]
  rfl

theorem isNaN_of_isFinite {x : Float} (h : x.isFinite = true) : x.isNaN = false := by
  rw [← Bool.not_eq_true]
  intro hnan
  rw [not_isFinite hnan] at h
  cases h

/-! ## Doubles made of their parts -/

/-- The bits of which a double is made. -/
def word (negative : Bool) (bits : Nat) : BitVec 64 :=
  BitVec.ofNat 64 (if negative then 2 ^ 63 + bits else bits)

/-- Packing what was unpacked changes nothing that can be unpacked. -/
theorem unpack_pack_unpack (b : BitVec 64) :
    unpack .binary64 ((unpack .binary64 b).pack .binary64) = unpack .binary64 b := by
  rw [@pack_unpack .binary64 b (by decide)]
  split
  -- only the bits of what is not a number are not restored, and all of these stand for the same
  · next h =>
    simp only [isNaNBits, decide_eq_true_eq] at h
    rw [unpack_packedNaN, unpack]
    simp [h.1, h.2]
  · rfl

variable {bits : Nat}

/-- The bits of a double made of a sign and a magnitude. -/
theorem toNat_word (negative : Bool) (h : bits < 2 ^ 63) :
    (word negative bits).toNat = if negative then 2 ^ 63 + bits else bits := by
  rw [word, BitVec.toNat_ofNat, Nat.mod_eq_of_lt]
  split <;> omega

theorem unpackExponent_word (negative : Bool) (h : bits < 2 ^ 63) :
    @unpackExponent .binary64 (word negative bits) = BitVec.ofNat 11 (bits / 2 ^ 52) := by
  rw [← BitVec.toNat_inj, toNat_unpackExponent, toNat_word negative h]
  show _ = bits / 2 ^ 52 % 2 ^ 11
  split <;> omega

theorem unpackMantissa_word (negative : Bool) (h : bits < 2 ^ 63) :
    @unpackMantissa .binary64 (word negative bits) = BitVec.ofNat 52 bits := by
  rw [← BitVec.toNat_inj, toNat_unpackMantissa, toNat_word negative h]
  show _ = bits % 2 ^ 52
  split <;> omega

/-- The sign of a double made of its parts. -/
theorem sign_word (negative : Bool) (h : bits < 2 ^ 63) :
    Sign.ofBitVec (@unpackSign .binary64 (word negative bits)) =
      if negative then .negative else .positive := by
  have hsign : @unpackSign .binary64 (word negative bits) =
      BitVec.ofNat 1 (if negative then 1 else 0) := by
    rw [← BitVec.toNat_inj, toNat_unpackSign, toNat_word negative h, BitVec.toNat_ofNat]
    split <;> omega
  rw [hsign]
  cases negative <;> rfl

/-- A double made of its parts stands for what its bits stand for. -/
theorem unpack_ofMagnitude (negative : Bool) (bits : Nat) :
    (ofMagnitude negative bits).toModel.unpack = unpack .binary64 (word negative bits) :=
  unpack_pack_unpack (word negative bits)

/-- A magnitude below that of infinity makes a finite double of either sign. -/
theorem isFinite_ofMagnitude (negative : Bool) (h : bits < infinityBits) :
    (ofMagnitude negative bits).isFinite = true := by
  have hlt : bits < 2 ^ 63 := h.trans (by decide)
  show (ofMagnitude negative bits).toModel.unpack.isFinite = true
  rw [unpack_ofMagnitude, isFinite_unpack_iff, unpackExponent_eq_iff, toNat_word negative hlt]
  split <;> omega

/-- An operation that does nothing but set the sign. -/
structure SetsSign (op : UnpackedFloat → UnpackedFloat) (set : Sign → Sign) : Prop where
  notANumber : op .notANumber = .notANumber
  infinity : ∀ s, op (.infinity s) = .infinity (set s)
  zero : ∀ s, op (.zero s) = .zero (set s)
  finite : ∀ s m e hm, op (.finite s m e hm) = .finite (set s) m e hm

/-- Such an operation turns one sign into another and keeps the magnitude. -/
theorem SetsSign.ofMagnitude {op : UnpackedFloat → UnpackedFloat} {set : Sign → Sign}
    (hop : SetsSign op set) {negative negative' : Bool}
    (hset : set (if negative then .negative else .positive) =
      if negative' then .negative else .positive) (h : bits < 2 ^ 63) :
    Float.ofModel (.pack (op (ofMagnitude negative bits).toModel.unpack)) =
      ofMagnitude negative' bits := by
  show _ = Float.ofModel (.pack (unpack .binary64 (word negative' bits)))
  rw [unpack_ofMagnitude]
  -- exponent and mantissa do not depend on the sign, so both sides unpack by the same case
  unfold unpack
  simp only [unpackExponent_word _ h, unpackMantissa_word _ h, sign_word _ h]
  split
  · split
    · rw [hop.infinity, hset]
    · rw [hop.notANumber]
  · split
    · split
      · rw [hop.zero, hset]
      · rw [hop.finite, hset]
    · rw [hop.finite, hset]

/-- The opposite of a double has the other sign and the same magnitude. -/
theorem neg_ofMagnitude (negative : Bool) (h : bits < 2 ^ 63) :
    -ofMagnitude negative bits = ofMagnitude (!negative) bits := by
  have hneg : SetsSign .neg Neg.neg :=
    ⟨rfl, fun _ => rfl, fun _ => rfl, fun _ _ _ _ => rfl⟩
  exact hneg.ofMagnitude (by cases negative <;> rfl) h

theorem abs_ofMagnitude (negative : Bool) (h : bits < 2 ^ 63) :
    (ofMagnitude negative bits).abs = ofMagnitude false bits := by
  have habs : SetsSign .abs fun _ => .positive :=
    ⟨rfl, fun _ => rfl, fun _ => rfl, fun _ _ _ _ => rfl⟩
  exact habs.ofMagnitude rfl h

/-- The absolute value with the sign put back. -/
theorem signed_abs (x : Float) : (if isNegative x then -x.abs else x.abs) = x := by
  have hlt := magnitudeBits_lt x
  have hparts := ofMagnitude_magnitudeBits x
  have habs : x.abs = ofMagnitude false (magnitudeBits x) := by
    rw [← abs_ofMagnitude (isNegative x) hlt, hparts]
  rw [habs]
  -- putting the sign back turns the magnitude around, or leaves it
  cases hsign : isNegative x with
  | false => rwa [hsign] at hparts
  | true =>
    rw [hsign] at hparts
    rw [if_pos rfl, neg_ofMagnitude false hlt, Bool.not_false, hparts]

theorem isFinite_abs {x : Float} (h : x.isFinite = true) : x.abs.isFinite = true := by
  rw [← ofMagnitude_magnitudeBits x, abs_ofMagnitude _ (magnitudeBits_lt x)]
  exact isFinite_ofMagnitude false ((isFinite_iff x).1 h)

end DeskCalc.Double
