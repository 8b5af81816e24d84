import DeskCalc.Lexeme

/-!
# Lexemes end at breaks

A line break and a semicolon are no part of any lexeme but themselves. So the first lexeme of a text
does not depend on what stands behind a break in it.

* `Break` — the two characters.
* `Numeral.split_append_break`, `Lexeme.next?_append_break` — a break and what follows it stay
  behind the first lexeme.
* `Lexeme.next?_of_getLast?` — a text that ends in a line break has a first lexeme, and the line
  break stays at the end unless it is the lexeme itself.
* `Lexeme.count_of_next?` — a lexeme takes a line break off a text only if it is one itself.
-/

namespace DeskCalc

/-- The character ends a statement wherever it stands. -/
def Break (c : Char) : Prop := c = '\n' ∨ c = ';'

theorem Break.not_isDigit {c : Char} (h : Break c) : c.isDigit = false := by
  rcases h with rfl | rfl <;> decide

theorem Break.not_continuesName {c : Char} (h : Break c) : Lexeme.continuesName c = false := by
  rcases h with rfl | rfl <;> decide

section

variable {p : Char → Bool} {stop : Char} {more : List Char}

/-- What is taken from the front ends at the stop, if not before. -/
theorem takeWhile_append_stop (h : p stop = false) (cs : List Char) :
    (cs ++ stop :: more).takeWhile p = cs.takeWhile p := by
  rw [List.takeWhile_append, List.takeWhile_cons, h]
  split
  · next hlen =>
    have hall : cs.takeWhile p = cs := (List.takeWhile_sublist p).eq_of_length hlen
    simp [hall]
  · rfl

/-- What is left behind the front has the stop in it. -/
theorem dropWhile_append_stop (h : p stop = false) (cs : List Char) :
    (cs ++ stop :: more).dropWhile p = cs.dropWhile p ++ stop :: more := by
  rw [List.dropWhile_append, List.dropWhile_cons, h]
  -- either all in front of the stop is dropped, or something is left there
  split
  · next hnil =>
    rw [List.isEmpty_iff.1 hnil]
    rfl
  · rfl

end

variable {stop : Char} {more : List Char}

/-! ## Numerals -/

namespace ExponentPart

/-- A sign is the same with a break behind it. -/
theorem splitSign_append_break (h : Break stop) (cs : List Char) :
    splitSign (cs ++ stop :: more) = ((splitSign cs).1, (splitSign cs).2 ++ stop :: more) := by
  cases cs with
  | nil => rcases h with rfl | rfl <;> rfl
  | cons c cs =>
    by_cases hc : c = '+' ∨ c = '-'
    · simp [splitSign, hc]
    · simp [splitSign, hc]

/-- An exponent is the same with a break behind it. -/
theorem split_append_break (h : Break stop) (cs : List Char) :
    split (cs ++ stop :: more) = ((split cs).1, (split cs).2 ++ stop :: more) := by
  cases cs with
  | nil => rcases h with rfl | rfl <;> rfl
  | cons c cs =>
    simp only [List.cons_append, split, splitSign_append_break h,
      takeWhile_append_stop h.not_isDigit, dropWhile_append_stop h.not_isDigit]
    split <;> rfl

end ExponentPart

namespace Numeral

/-- A fraction is the same with a break behind it. -/
theorem splitFraction_append_break (h : Break stop) (cs : List Char) :
    splitFraction (cs ++ stop :: more) =
      ((splitFraction cs).1, (splitFraction cs).2 ++ stop :: more) := by
  cases cs with
  | nil => rcases h with rfl | rfl <;> rfl
  | cons c cs =>
    -- without a point there is no fraction, with or without a break
    by_cases hc : c = '.'
    · subst hc
      simp only [List.cons_append, splitFraction, takeWhile_append_stop h.not_isDigit,
        dropWhile_append_stop h.not_isDigit]
    · simp [splitFraction, hc]

/-- A numeral is the same with a break behind it. -/
theorem split_append_break (h : Break stop) (cs : List Char) :
    split (cs ++ stop :: more) = ((split cs).1, (split cs).2 ++ stop :: more) := by
  simp only [split, takeWhile_append_stop h.not_isDigit, dropWhile_append_stop h.not_isDigit,
    splitFraction_append_break h, ExponentPart.split_append_break h]

end Numeral

/-! ## Lexemes -/

namespace Lexeme

/-- A break and what follows it stay behind the first lexeme of a text; they come up themselves only
where the text has no lexeme. -/
theorem next?_append_break (h : Break stop) (cs : List Char) :
    next? (cs ++ stop :: more) =
      match next? cs with
      | some (l, rest) => some (l, rest ++ stop :: more)
      | none => next? (stop :: more) := by
  fun_induction next? cs with
  | case1 => rfl
  | case2 cs => simp [next?]
  | case3 c cs hc hblank ih =>
    rw [List.cons_append, next?, if_neg hc, if_pos hblank]
    exact ih
  | case4 c cs hc hblank hstart n rest hsplit =>
    -- a digit or a point cannot be a break, so the numeral starts in front of it
    rw [List.cons_append, next?, if_neg hc, if_neg hblank, if_pos hstart, ← List.cons_append,
      Numeral.split_append_break h, hsplit]
  | case5 c cs hc hblank hnumber hname =>
    rw [List.cons_append, next?, if_neg hc, if_neg hblank, if_neg hnumber, if_pos hname,
      takeWhile_append_stop h.not_continuesName, dropWhile_append_stop h.not_continuesName]
  | case6 c cs hc hblank hnumber hname =>
    rw [List.cons_append, next?, if_neg hc, if_neg hblank, if_neg hnumber, if_neg hname]

theorem next?_newline (cs : List Char) : next? ('\n' :: cs) = some (.newline, cs) := by
  rw [next?, if_pos rfl]

theorem next?_semicolon (cs : List Char) :
    next? (';' :: cs) = some (.mark .endOfStatement, cs) := by
  rw [next?, if_neg (by decide), if_neg (by decide), if_neg (by decide), if_neg (by decide)]
  rfl

/-- In a text that ends in a line break there is a lexeme, and the line break stays behind it unless
it is the lexeme itself. -/
theorem next?_of_getLast? {cs : List Char} (h : cs.getLast? = some '\n') :
    ∃ l rest, next? cs = some (l, rest) ∧
      (rest.getLast? = some '\n' ∨ rest = [] ∧ l = .newline) := by
  -- what is in front of the line break has a lexeme, or else the line break is the first one
  obtain ⟨init, rfl⟩ := List.getLast?_eq_some_iff.1 h
  rw [next?_append_break (Or.inl rfl)]
  cases next? init with
  | none => exact ⟨.newline, [], next?_newline [], Or.inr ⟨rfl, rfl⟩⟩
  | some r => exact ⟨r.1, r.2 ++ ['\n'], rfl, Or.inl (by simp)⟩

/-! ## Counting line breaks -/

variable {cs rest : List Char} {l : Lexeme}

/-- What is left behind a lexeme is a part of the text. -/
theorem isSuffix_of_next? (h : next? cs = some (l, rest)) : rest <:+ cs := by
  fun_induction next? cs with
  | case1 => cases h
  | case2 cs =>
    cases h
    exact List.suffix_cons _ _
  | case3 c cs _ _ ih => exact (ih h).trans (List.suffix_cons _ _)
  -- what is split off and what is left make up the text
  | case4 c cs _ _ _ n rest' hsplit =>
    cases h
    have happend := Numeral.split_append (c :: cs)
    rw [hsplit] at happend
    exact ⟨_, happend⟩
  | case5 c cs =>
    cases h
    exact (List.dropWhile_suffix continuesName).trans (List.suffix_cons _ _)
  | case6 c cs =>
    cases h
    exact List.suffix_cons _ _

/-- The lexeme of a line break is there only if the character is. -/
theorem mem_of_next?_newline (h : next? cs = some (.newline, rest)) : '\n' ∈ cs := by
  fun_induction next? cs with
  | case1 => cases h
  | case2 => exact List.mem_cons_self
  | case3 c cs _ _ ih => exact List.mem_cons_of_mem c (ih h)
  | case4 => cases h
  | case5 => cases h
  | case6 c cs =>
    simp only [ofChar, Option.some.injEq, Prod.mk.injEq] at h
    cases hc : TokenKind.ofChar? c <;> simp [hc] at h

/-- Where no line break is in a text, the lexeme is none, and none is behind it. -/
theorem not_mem_of_next? (h : next? cs = some (l, rest)) (hmem : '\n' ∉ cs) :
    l ≠ .newline ∧ '\n' ∉ rest := by
  refine ⟨?_, fun hrest => hmem ((isSuffix_of_next? h).subset hrest)⟩
  rintro rfl
  exact hmem (mem_of_next?_newline h)

/-- A lexeme takes a line break off a text only if it is one itself. -/
theorem count_of_next? (h : next? cs = some (l, rest)) :
    cs.count '\n' = rest.count '\n' + if l = .newline then 1 else 0 := by
  by_cases hmem : '\n' ∈ cs
  · -- the lexeme is found in front of the first line break, or is that
    obtain ⟨init, more, rfl, hinit⟩ := List.eq_append_cons_of_mem hmem
    rw [next?_append_break (Or.inl rfl)] at h
    cases hi : next? init with
    | none =>
      rw [hi, next?_newline] at h
      cases h
      simp [List.count_eq_zero.2 hinit]
    | some r =>
      rw [hi] at h
      cases h
      obtain ⟨hl, hrest⟩ := not_mem_of_next? hi hinit
      simp [hl, List.count_eq_zero.2 hinit, List.count_eq_zero.2 hrest]
  · obtain ⟨hl, hrest⟩ := not_mem_of_next? h hmem
    simp [hl, List.count_eq_zero.2 hmem, List.count_eq_zero.2 hrest]

/-- Where no lexeme is left, no line break is. -/
theorem count_of_next?_none (h : next? cs = none) : cs.count '\n' = 0 := by
  rw [List.count_eq_zero]
  intro hmem
  -- a line break would be a lexeme if nothing in front of it is
  obtain ⟨init, more, rfl, -⟩ := List.eq_append_cons_of_mem hmem
  rw [next?_append_break (Or.inl rfl)] at h
  cases hi : next? init with
  | none =>
    rw [hi, next?_newline] at h
    cases h
  | some r =>
    rw [hi] at h
    cases h

end Lexeme

end DeskCalc
