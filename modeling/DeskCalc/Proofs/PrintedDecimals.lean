import DeskCalc.Proofs.FiniteDoubles
import DeskCalc.Proofs.Literals
import DeskCalc.Proofs.Rounding

/-!
# Printed decimals

The decimal that is printed for a double reads back as it, and its text is a single literal.

* `bits_shortest` — the chosen decimal reads back as the magnitude it was chosen for.
* `Positional.numeral` — the text of a decimal as a literal, with the decimal as its value.
* `format_eq` — what is printed for a finite double.
-/

namespace DeskCalc.Double

/-! ## Decimals that read back -/

variable {bits : Nat}

/-- One of two neighbours, whichever it is, is chosen only if it reads back. -/
theorem bits_of_neighbours {below above p : Positional} {nearer : Prop} [Decidable nearer]
    (h : (if below.bits = bits ∧ above.bits = bits then some (if nearer then below else above)
      else if below.bits = bits then some below
      else if above.bits = bits then some above
      else none) = some p) : p.bits = bits := by
  split at h
  -- both read back, and the nearer one is taken
  · next hboth =>
    cases h
    split
    · exact hboth.1
    · exact hboth.2
  · split at h
    · next hbelow => cases h; exact hbelow
    · split at h
      · next habove => cases h; exact habove
      · cases h

/-- A decimal with so many digits is taken only if it reads back. -/
theorem bits_readBack? {k : Int} {p : Positional} (h : readBack? bits k = some p) :
    p.bits = bits :=
  bits_of_neighbours h

/-- The denominator of a magnitude is a power of two, and not too large a one. -/
theorem log2_den (bits : Nat) : (fraction bits).2 = 2 ^ (fraction bits).2.log2 ∧
    (fraction bits).2.log2 ≤ 1074 := by
  -- it is one unless the exponent is negative, and the least exponent is that of the subnormals
  have hden : (fraction bits).2 = 2 ^ (-binaryExponent bits).toNat := by
    unfold fraction
    simp only [Nat.pow_eq]
    split
    · next h => rw [Int.toNat_of_nonpos (Int.neg_nonpos_of_nonneg h), pow_zero]
    · rfl
  have hle : -1074 ≤ binaryExponent bits := by
    rcases bits_cases bits with ⟨h, -⟩ | ⟨h, -⟩
    · exact h.ge
    · exact h
  rw [hden, Nat.log2_two_pow]
  exact ⟨rfl, by omega⟩

/-- Digit for digit, a finite magnitude reads back. -/
theorem bits_exactly (hpos : 0 < bits) (h : bits < infinityBits) : (exactly bits).bits = bits := by
  obtain ⟨hden, hlog⟩ := log2_den bits
  have hvalue := magnitude_eq bits
  have hnum : 0 < (fraction bits).1 := by
    have hmagnitude := magnitude_pos hpos
    rw [hvalue, div_pos_iff_of_pos_right (by exact_mod_cast fraction_pos bits)] at hmagnitude
    exact_mod_cast hmagnitude
  rw [exactly, Positional.bits, decimalBits]
  simp only [Nat.pow_eq]
  generalize (fraction bits).2.log2 = k at hden hlog
  rw [hden] at hvalue
  generalize (fraction bits).1 = num at hnum hvalue
  -- five to the number of places alone is large enough
  have hneg : isNegligible (num * 5 ^ k) (-(k : Int)) = false := by
    have hpow : 2 ^ (2 * k) ≤ num * 5 ^ k := by
      calc 2 ^ (2 * k) = 4 ^ k := by rw [pow_mul]; rfl
        _ ≤ 5 ^ k := Nat.pow_le_pow_left (by decide) k
        _ ≤ num * 5 ^ k := Nat.le_mul_of_pos_left _ hnum
    have hne : num * 5 ^ k ≠ 0 := by positivity
    have hlog2 : 2 * k ≤ (num * 5 ^ k).log2 := (Nat.le_log2 hne).2 hpow
    simp only [isNegligible, Bool.or_eq_false_iff, beq_eq_false_iff_ne, decide_eq_false_iff_not]
    exact ⟨hne, by omega⟩
  rw [hneg, if_neg Bool.false_ne_true, if_neg (by omega)]
  split
  · next hk =>
    obtain rfl : k = 0 := by omega
    refine nearestBits_of_magnitude h Nat.one_pos ?_
    simpa using hvalue.symm
  · refine nearestBits_of_magnitude h (by positivity) ?_
    rw [hvalue, neg_neg, Int.toNat_natCast, show (10 : Nat) = 2 * 5 from rfl, mul_pow]
    push_cast
    field_simp

/-- The chosen decimal reads back as the magnitude it was chosen for. -/
theorem bits_shortest (hpos : 0 < bits) (h : bits < infinityBits) :
    (shortest bits).bits = bits := by
  unfold shortest
  simp only
  cases hfound : (List.range 17).findSome? fun (n : Nat) =>
      readBack? bits (floorLog10 (fraction bits).1 (fraction bits).2 - n) with
  -- if none of the short ones reads back, the magnitude is written out exactly
  | none => exact bits_exactly hpos h
  | some p =>
    obtain ⟨n, -, hn⟩ := List.exists_of_findSome?_eq_some hfound
    exact bits_readBack? hn

/-! ## The text of a decimal -/

namespace Positional

/-- The digits of a decimal, with zeros in front so that there is one in front of the point. -/
def padded (p : Positional) : List Char :=
  List.replicate (p.places + 1 - (Nat.toDigits 10 p.digits).length) '0' ++
    Nat.toDigits 10 p.digits

/-- The text of a decimal as a literal. -/
def numeral (p : Positional) : Numeral :=
  if p.places = 0 then ⟨p.padded, none, none⟩
  else ⟨p.padded.take (p.padded.length - p.places),
    some (p.padded.drop (p.padded.length - p.places)), none⟩

variable (p : Positional)

/-- There are more digits than places behind the point. -/
theorem places_lt_length : p.places < p.padded.length := by
  rw [padded, List.length_append, List.length_replicate]
  omega

theorem padded_ne_nil : p.padded ≠ [] :=
  List.ne_nil_of_length_pos (Nat.zero_lt_of_lt p.places_lt_length)

theorem isDigit_padded : ∀ c ∈ p.padded, c.isDigit = true := by
  intro c hc
  rcases List.mem_append.1 hc with hc | hc
  · rw [List.eq_of_mem_replicate hc]
    rfl
  · exact Nat.isDigit_of_mem_toDigits (by decide) (by decide) hc

/-- Zeros in front do not change the number. -/
theorem ofDigitChars_padded : Nat.ofDigitChars 10 p.padded 0 = p.digits := by
  rw [padded, Nat.ofDigitChars_append, Nat.ofDigitChars_replicate_zero]
  simp

/-- The characters of the literal are those of the decimal. -/
theorem chars_numeral : p.numeral.chars = p.chars := by
  unfold numeral chars Numeral.chars
  split
  · simp [padded]
  · simp [padded]

/-- The text of a decimal is a literal. -/
theorem isLiteral_numeral : p.numeral.IsLiteral := by
  have hdigit := p.isDigit_padded
  unfold numeral
  split
  · exact ⟨hdigit, fun ds h => (by cases h), fun x h => (by cases h), Or.inl p.padded_ne_nil⟩
  · refine ⟨fun c hc => hdigit c (List.mem_of_mem_take hc), fun ds h c hc => ?_,
      fun x h => (by cases h), Or.inr rfl⟩
    cases h
    exact hdigit c (List.mem_of_mem_drop hc)

/-- There are digits in front of the point, and behind it if there is a point. -/
theorem ne_nil_numeral : p.numeral.whole ≠ [] ∧ p.numeral.fraction ≠ some [] := by
  -- the digits are padded so that more of them are there than stand behind the point
  have hlt := p.places_lt_length
  unfold numeral
  split
  · exact ⟨p.padded_ne_nil, fun h => (by cases h)⟩
  · constructor
    · refine List.ne_nil_of_length_pos ?_
      rw [List.length_take]
      omega
    · intro h
      have hlength := congrArg List.length (Option.some.inj h)
      rw [List.length_drop, List.length_nil] at hlength
      omega

theorem exponent_numeral : p.numeral.exponent = none := by
  unfold numeral
  split <;> rfl

/-- The value of the literal is the decimal. -/
theorem value?_numeral : p.numeral.value? = some (p.digits, -(p.places : Int)) := by
  -- cut at the point and put together again, the digits are the same
  have hdigits : p.numeral.digits = p.padded := by
    unfold numeral Numeral.digits
    split <;> simp
  have hplaces : (p.numeral.fraction.getD []).length = p.places := by
    have hlt := p.places_lt_length
    unfold numeral
    split
    · next h => exact h.symm
    · rw [Option.getD_some, List.length_drop]
      omega
  simp only [Numeral.value?, hdigits, if_neg p.padded_ne_nil, p.ofDigitChars_padded,
    hplaces, p.exponent_numeral, Option.elim_none, zero_sub]

end Positional

/-! ## The text of a double -/

/-- The decimal that is printed for a finite magnitude. -/
def printed (bits : Nat) : Positional := if bits = 0 then ⟨0, 0⟩ else shortest bits

/-- What is printed for a magnitude reads back as it. -/
theorem bits_printed (h : bits < infinityBits) : (printed bits).bits = bits := by
  unfold printed
  split
  · next hzero => rw [hzero]; decide
  · next hne => exact bits_shortest (Nat.pos_of_ne_zero hne) h

/-- A magnitude is printed as its decimal. -/
theorem magnitudeText_eq (bits : Nat) : magnitudeText bits = (printed bits).chars := by
  unfold magnitudeText printed
  split
  · decide
  · rfl

/-- A finite double is printed as its sign and the literal of its magnitude. -/
theorem format_eq {v : Float} (hv : v.isFinite = true) : (format v).toList =
    (if isNegative v then ['-'] else []) ++ (printed (magnitudeBits v)).numeral.chars := by
  have hne : magnitudeBits v ≠ infinityBits := ((isFinite_iff v).1 hv).ne
  rw [format, isNaN_of_isFinite hv, if_neg Bool.false_ne_true]
  simp only [if_neg hne, String.toList_ofList, magnitudeText_eq, Positional.chars_numeral]
  split <;> rfl

/-- What is printed for a finite double is its absolute value, behind its sign. -/
theorem ofDecimal_printed {v : Float} (hv : v.isFinite = true) :
    ofDecimal (printed (magnitudeBits v)).digits (-((printed (magnitudeBits v)).places : Int)) =
      v.abs := by
  have habs := abs_ofMagnitude (isNegative v) (magnitudeBits_lt v)
  rw [ofMagnitude_magnitudeBits] at habs
  rw [habs]
  exact congrArg (ofMagnitude false) (bits_printed ((isFinite_iff v).1 hv))

end DeskCalc.Double
