import DeskCalc.Numeral

/-!
# Number literals

What a number looks like, said without reading it, and that numerals are read as far as they go.

* `ExponentPart.IsLiteral`, `Numeral.IsLiteral` — digits, perhaps a point with more digits, perhaps
  a letter with a sign and at least one digit; in front of the letter there is a digit or the point.
* `Numeral.isLiteral_split` — what is split off a text is a literal.
* `Numeral.split_append_rest` — if a literal stands at the front of a text, splitting takes at least
  as much as that, and takes the literal itself if it takes no more.
-/

namespace DeskCalc

namespace ExponentPart

/-- The letter, perhaps a sign, and at least one digit. -/
structure IsLiteral (x : ExponentPart) : Prop where
  letter : x.letter = 'e' ∨ x.letter = 'E'
  sign : ∀ c, x.sign = some c → c = '+' ∨ c = '-'
  digits : ∀ c ∈ x.digits, c.isDigit = true
  ne_nil : x.digits ≠ []

/-- A sign that is split off is one of the two. -/
theorem sign_splitSign {cs : List Char} {c : Char} (h : (splitSign cs).1 = some c) :
    c = '+' ∨ c = '-' := by
  unfold splitSign at h
  split at h
  · split at h
    · next hc =>
      cases h
      exact hc
    · cases h
  · cases h

/-- An exponent that is split off has the form of one. -/
theorem isLiteral_split {cs : List Char} {x : ExponentPart} (h : (split cs).1 = some x) :
    x.IsLiteral := by
  cases cs with
  | nil => cases h
  | cons c cs =>
    simp only [split] at h
    split at h
    -- it is only split off with a letter in front and at least one digit
    · next hc =>
      cases h
      refine ⟨hc.1, fun c' hc' => sign_splitSign hc', fun c' hc' => ?_, hc.2⟩
      exact List.all_eq_true.1 List.all_takeWhile c' hc'
    · cases h

theorem eq_none_of_length {x? : Option ExponentPart}
    (h : (x?.elim 0 fun x => x.chars.length) = 0) : x? = none := by
  cases x? with
  | none => rfl
  | some x => simp [chars] at h

/-- A literal at the front of a text is split off together with the digits behind it. -/
theorem split_append_rest {x : ExponentPart} (h : x.IsLiteral) (rest : List Char) :
    split (x.chars ++ rest) = (some ⟨x.letter, x.sign, x.digits ++ rest.takeWhile Char.isDigit⟩,
      rest.dropWhile Char.isDigit) := by
  obtain ⟨letter, sign, digits⟩ := x
  obtain ⟨hletter, hsign, hdigits, hne⟩ := h
  simp only at hletter hsign hdigits hne
  have hsplit : splitSign (sign.toList ++ (digits ++ rest)) = (sign, digits ++ rest) := by
    cases sign with
    | some s => simp [splitSign, hsign s rfl]
    | none =>
      -- the first digit is no sign
      obtain ⟨d, ds, rfl⟩ := List.exists_cons_of_ne_nil hne
      have hd := hdigits d List.mem_cons_self
      have hno : ¬(d = '+' ∨ d = '-') := by
        rintro (rfl | rfl) <;> exact absurd hd (by decide)
      simp [splitSign, hno]
  have htake : (digits ++ rest).takeWhile Char.isDigit = digits ++ rest.takeWhile Char.isDigit :=
    List.takeWhile_append_of_pos hdigits
  have hdrop : (digits ++ rest).dropWhile Char.isDigit = rest.dropWhile Char.isDigit :=
    List.dropWhile_append_of_pos hdigits
  simp [chars, split, hsplit, htake, hdrop, hletter, hne]

end ExponentPart

namespace Numeral

/-- Digits, perhaps a point with digits behind it, perhaps an exponent; the exponent does not stand
alone. -/
structure IsLiteral (n : Numeral) : Prop where
  whole : ∀ c ∈ n.whole, c.isDigit = true
  fraction : ∀ ds, n.fraction = some ds → ∀ c ∈ ds, c.isDigit = true
  exponent : ∀ x, n.exponent = some x → x.IsLiteral
  starts : n.whole ≠ [] ∨ n.fraction.isSome = true

/-- A fraction that is split off consists of digits. -/
theorem fraction_splitFraction {cs ds : List Char} (h : (splitFraction cs).1 = some ds) :
    ∀ c ∈ ds, c.isDigit = true := by
  unfold splitFraction at h
  split at h
  · cases h
    exact fun c hc => List.all_eq_true.1 List.all_takeWhile c hc
  · cases h

/-- What is split off where a numeral can start is a literal. -/
theorem isLiteral_split {c : Char} (cs : List Char) (h : startsWith c = true) :
    (split (c :: cs)).1.IsLiteral := by
  refine ⟨fun d hd => List.all_eq_true.1 List.all_takeWhile d hd,
    fun ds hds => fraction_splitFraction hds, fun x hx => ExponentPart.isLiteral_split hx, ?_⟩
  by_cases hd : c.isDigit = true
  · exact Or.inl (by simp [split, hd])
  · have : c = '.' := by simpa [startsWith, hd] using h
    subst this
    exact Or.inr (by simp [split, splitFraction, Char.isDigit])

/-- The length of a numeral is that of its parts. -/
theorem length_chars (n : Numeral) : n.chars.length = n.whole.length +
    (n.fraction.elim 0 fun ds => ds.length + 1) + n.exponent.elim 0 fun x => x.chars.length := by
  cases hf : n.fraction with
  | none => cases hx : n.exponent <;> simp [chars, hf, hx]
  | some ds =>
    cases hx : n.exponent with
    | none => simp [chars, hf, hx]
    | some x =>
      simp only [chars, hf, hx, List.length_append, List.length_cons, Option.elim]

/-- A letter in front of an exponent ends the digits, and is no point. -/
theorem split_of_exponent {n : Numeral} (h : n.IsLiteral) {x : ExponentPart}
    (hx : n.exponent = some x) (rest : List Char) :
    split (n.chars ++ rest) = (⟨n.whole, n.fraction,
      some ⟨x.letter, x.sign, x.digits ++ rest.takeWhile Char.isDigit⟩⟩,
        rest.dropWhile Char.isDigit) := by
  obtain ⟨whole, fraction, exponent⟩ := n
  obtain ⟨hwhole, hfraction, hexponent, -⟩ := h
  simp only at hwhole hfraction hexponent hx
  subst hx
  have hliteral := hexponent x rfl
  have hletter : x.letter.isDigit = false ∧ x.letter ≠ '.' := by
    rcases hliteral.letter with h | h <;> rw [h] <;> decide
  -- the letter stops the digits in front of it, and is not taken for the point
  obtain ⟨more, hchars⟩ : ∃ more, x.chars ++ rest = x.letter :: more := ⟨_, rfl⟩
  have htake : (x.chars ++ rest).takeWhile Char.isDigit = [] := by simp [hchars, hletter.1]
  have hdrop : (x.chars ++ rest).dropWhile Char.isDigit = x.chars ++ rest := by
    simp [hchars, hletter.1]
  have hnone : splitFraction (x.chars ++ rest) = (none, x.chars ++ rest) := by
    simp [hchars, splitFraction, hletter.2]
  cases fraction with
  | none =>
    simp only [chars, Option.elim_none, Option.elim_some, List.append_nil, List.append_assoc, split,
      List.takeWhile_append_of_pos hwhole, List.dropWhile_append_of_pos hwhole, htake, hdrop, hnone,
      ExponentPart.split_append_rest hliteral]
  | some ds =>
    have hds := hfraction ds rfl
    have hpoint :
        splitFraction ('.' :: (ds ++ (x.chars ++ rest))) = (some ds, x.chars ++ rest) := by
      simp [splitFraction, List.takeWhile_append_of_pos hds, List.dropWhile_append_of_pos hds,
        htake, hdrop]
    simp [chars, split, List.takeWhile_append_of_pos hwhole, List.dropWhile_append_of_pos hwhole,
      Char.isDigit, hpoint, ExponentPart.split_append_rest hliteral]

/-- Digits behind a literal with a fraction belong to the fraction. -/
theorem split_of_fraction {n : Numeral} (h : n.IsLiteral) {ds : List Char}
    (hds : n.fraction = some ds) (hx : n.exponent = none) (rest : List Char) :
    (split (n.chars ++ rest)).1 = ⟨n.whole, some (ds ++ rest.takeWhile Char.isDigit),
      (ExponentPart.split (rest.dropWhile Char.isDigit)).1⟩ := by
  obtain ⟨whole, fraction, exponent⟩ := n
  obtain ⟨hwhole, hfraction, -, -⟩ := h
  simp only at hwhole hfraction hds hx
  subst hds hx
  have hds := hfraction ds rfl
  simp [chars, split, splitFraction, List.takeWhile_append_of_pos hwhole,
    List.dropWhile_append_of_pos hwhole, List.takeWhile_append_of_pos hds,
    List.dropWhile_append_of_pos hds, Char.isDigit]

/-- Digits behind a literal of digits belong to them. -/
theorem split_of_whole {n : Numeral} (h : n.IsLiteral) (hf : n.fraction = none)
    (hx : n.exponent = none) (rest : List Char) :
    (split (n.chars ++ rest)).1 = ⟨n.whole ++ rest.takeWhile Char.isDigit,
      (splitFraction (rest.dropWhile Char.isDigit)).1,
      (ExponentPart.split (splitFraction (rest.dropWhile Char.isDigit)).2).1⟩ := by
  obtain ⟨whole, fraction, exponent⟩ := n
  obtain ⟨hwhole, -, -, -⟩ := h
  simp only at hwhole hf hx
  subst hf hx
  simp [chars, split, List.takeWhile_append_of_pos hwhole, List.dropWhile_append_of_pos hwhole]

/-- With a literal at the front of a text, at least as much is split off, and if it is no more, it
is the literal. -/
theorem split_append_rest {n : Numeral} (h : n.IsLiteral) (rest : List Char) :
    n.chars.length ≤ (split (n.chars ++ rest)).1.chars.length ∧
      ((split (n.chars ++ rest)).1.chars.length = n.chars.length →
        split (n.chars ++ rest) = (n, rest)) := by
  -- what is split off and what is left are the text, so the first tells the second
  have hrest : (split (n.chars ++ rest)).1 = n → split (n.chars ++ rest) = (n, rest) := by
    intro heq
    have happend := split_append (n.chars ++ rest)
    rw [heq, List.append_cancel_left_eq] at happend
    exact Prod.ext heq happend
  cases hx : n.exponent with
  | some x =>
    rw [split_of_exponent h hx]
    obtain ⟨whole, fraction, exponent⟩ := n
    simp only at hx
    subst hx
    constructor
    · simp [length_chars, ExponentPart.chars]
    · intro hlength
      have hnil : rest.takeWhile Char.isDigit = [] := by
        simpa [length_chars, ExponentPart.chars] using hlength
      have hdrop := List.takeWhile_append_dropWhile (p := Char.isDigit) (l := rest)
      rw [hnil, List.nil_append] at hdrop
      rw [hnil, List.append_nil, hdrop]
  | none =>
    cases hf : n.fraction with
    | some ds =>
      -- more could be taken for the fraction, or for an exponent
      have hsplit := split_of_fraction h hf hx rest
      rw [hsplit, length_chars, length_chars, hf, hx]
      simp only [Option.elim_some, Option.elim_none, List.length_append]
      refine ⟨by omega, fun hlength => hrest ?_⟩
      have hnil : rest.takeWhile Char.isDigit = [] := List.length_eq_zero_iff.1 (by omega)
      have hexp : (ExponentPart.split (rest.dropWhile Char.isDigit)).1 = none :=
        ExponentPart.eq_none_of_length (by omega)
      rw [hsplit, hnil, hexp, List.append_nil, ← hf, ← hx]
    | none =>
      -- more could be taken for the digits, for a fraction, or for an exponent
      have hsplit := split_of_whole h hf hx rest
      rw [hsplit, length_chars, length_chars, hf, hx]
      simp only [Option.elim_none, List.length_append]
      refine ⟨by omega, fun hlength => hrest ?_⟩
      have hnil : rest.takeWhile Char.isDigit = [] := List.length_eq_zero_iff.1 (by omega)
      have hfrac : (splitFraction (rest.dropWhile Char.isDigit)).1 = none := by
        cases hs : (splitFraction (rest.dropWhile Char.isDigit)).1 with
        | none => rfl
        | some ds => simp only [hs, Option.elim_some] at hlength; omega
      have hexp : (ExponentPart.split (splitFraction (rest.dropWhile Char.isDigit)).2).1 = none :=
        ExponentPart.eq_none_of_length (by omega)
      rw [hsplit, hnil, hfrac, hexp, List.append_nil, ← hf, ← hx]

/-- A literal is split off itself as a whole. -/
theorem split_self {n : Numeral} (h : n.IsLiteral) : split n.chars = (n, []) := by
  obtain ⟨hle, heq⟩ := split_append_rest h []
  rw [List.append_nil] at hle heq
  refine heq (Nat.le_antisymm ?_ hle)
  have happend := congrArg List.length (split_append n.chars)
  rw [List.length_append] at happend
  omega

end Numeral

end DeskCalc
