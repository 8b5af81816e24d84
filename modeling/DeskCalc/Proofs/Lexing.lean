import DeskCalc.Proofs.Breaks
import DeskCalc.Proofs.Literals

/-!
# The lexemes of a text

What the lexemes of a whole text are, said once without reading it and once by taking one lexeme
after another off its front.

* `Lexes` — the lexemes of a text with the lines they stand on, rule by rule: blanks are left out,
  numbers and names are as long as they can be, and every other character is a lexeme by itself.
* `lexemes` — the same list, found by `Lexeme.next?`.
* `lexes_iff` — a text has these lexemes and no others.
-/

namespace DeskCalc

/-- The lexemes of a text that starts on the given line, each with the line it stands on. -/
inductive Lexes : Nat → List Char → List (Lexeme × Nat) → Prop where
  | nil (line : Nat) : Lexes line [] []
  | newline {line : Nat} {cs : List Char} {ls : List (Lexeme × Nat)} :
    Lexes (line + 1) cs ls → Lexes line ('\n' :: cs) ((.newline, line) :: ls)
  | blank {line : Nat} {c : Char} {cs : List Char} {ls : List (Lexeme × Nat)} :
    c ≠ '\n' → Text.isBlank c = true → Lexes line cs ls → Lexes line (c :: cs) ls
  /-- No longer literal stands at the front of the text. -/
  | number {line : Nat} {n : Numeral} {rest : List Char} {ls : List (Lexeme × Nat)} :
    n.IsLiteral →
    (∀ m : Numeral, m.IsLiteral → m.chars <+: n.chars ++ rest → m.chars.length ≤ n.chars.length) →
    Lexes line rest ls → Lexes line (n.chars ++ rest) ((.number n, line) :: ls)
  /-- What follows the name does not continue it. -/
  | name {line : Nat} {c : Char} {cs rest : List Char} {ls : List (Lexeme × Nat)} :
    c.isAlpha = true → (∀ d ∈ cs, d.isAlphanum = true) →
    (∀ d ∈ rest.head?, d.isAlphanum = false) →
    Lexes line rest ls → Lexes line (c :: cs ++ rest) ((.name (c :: cs), line) :: ls)
  | mark {line : Nat} {c : Char} {kind : TokenKind} {cs : List Char} {ls : List (Lexeme × Nat)} :
    TokenKind.ofChar? c = some kind →
    Lexes line cs ls → Lexes line (c :: cs) ((.mark kind, line) :: ls)
  /-- The character is none of those that the other rules start with. -/
  | stray {line : Nat} {c : Char} {cs : List Char} {ls : List (Lexeme × Nat)} :
    c ≠ '\n' → Text.isBlank c = false → c.isDigit = false → c ≠ '.' → c.isAlpha = false →
    TokenKind.ofChar? c = none →
    Lexes line cs ls → Lexes line (c :: cs) ((.stray c, line) :: ls)

/-- The lexemes of a text that starts on the given line, each with the line it stands on. -/
def lexemes (line : Nat) (cs : List Char) : List (Lexeme × Nat) :=
  match _h : Lexeme.next? cs with
  | none => []
  | some (l, rest) => (l, line) :: lexemes (if l = .newline then line + 1 else line) rest
termination_by cs.length
decreasing_by exact Lexeme.length_lt_of_next? _h

variable {line : Nat} {c : Char} {cs rest : List Char} {l : Lexeme}

theorem lexemes_of_none (h : Lexeme.next? cs = none) : lexemes line cs = [] := by
  rw [lexemes]
  split
  · rfl
  · next h' => rw [h] at h'; cases h'

theorem lexemes_of_some (h : Lexeme.next? cs = some (l, rest)) :
    lexemes line cs = (l, line) :: lexemes (if l = .newline then line + 1 else line) rest := by
  rw [lexemes]
  split
  · next h' => rw [h] at h'; cases h'
  · next h' => rw [h] at h'; cases h'; rfl

/-- Texts with the same first lexeme have the same lexemes. -/
theorem lexemes_congr {cs' : List Char} (h : Lexeme.next? cs = Lexeme.next? cs') :
    lexemes line cs = lexemes line cs' := by
  cases hn : Lexeme.next? cs' with
  | none => rw [lexemes_of_none (h.trans hn), lexemes_of_none hn]
  | some r => rw [lexemes_of_some (h.trans hn), lexemes_of_some hn]

/-! ## The first lexeme, by the first character -/

namespace Lexeme

theorem next?_blank (hc : c ≠ '\n') (hblank : Text.isBlank c = true) (cs : List Char) :
    next? (c :: cs) = next? cs := by
  rw [next?, if_neg hc, if_pos hblank]

/-- The letters are those of two ranges. -/
theorem isAlpha_iff : c.isAlpha = true ↔
    (65 ≤ c.toNat ∧ c.toNat ≤ 90) ∨ (97 ≤ c.toNat ∧ c.toNat ≤ 122) := by
  have hupper : c.isUpper = true ↔ 65 ≤ c.toNat ∧ c.toNat ≤ 90 := decide_eq_true_iff
  have hlower : c.isLower = true ↔ 97 ≤ c.toNat ∧ c.toNat ≤ 122 := by
    show (decide (97 ≤ c.toNat) && decide (c.toNat ≤ 122)) = true ↔ _
    rw [Bool.and_eq_true, decide_eq_true_iff, decide_eq_true_iff]
  show (c.isUpper || c.isLower) = true ↔ _
  rw [Bool.or_eq_true, hupper, hlower]

theorem isDigit_iff : c.isDigit = true ↔ 48 ≤ c.toNat ∧ c.toNat ≤ 57 := by
  show (decide (48 ≤ c.toNat) && decide (c.toNat ≤ 57)) = true ↔ _
  rw [Bool.and_eq_true, decide_eq_true_iff, decide_eq_true_iff]

/-- No blank is a letter or a digit, and none is the point. -/
theorem not_isAlphanum_of_isBlank (h : Text.isBlank c = true) :
    c.isAlpha = false ∧ c.isDigit = false ∧ c ≠ '.' := by
  simp only [Text.isBlank, Text.inRanges, Text.blankRanges, List.any_cons, List.any_nil,
    Bool.or_false, Bool.or_eq_true, Bool.and_eq_true, decide_eq_true_eq] at h
  -- the ranges of the blanks lie outside those of the letters and the digits
  refine ⟨?_, ?_, ?_⟩
  · rw [← Bool.not_eq_true, isAlpha_iff]
    omega
  · rw [← Bool.not_eq_true, isDigit_iff]
    omega
  · rintro rfl
    revert h
    decide

/-- Where a numeral can start there is no blank. -/
theorem isBlank_of_startsWith (h : Numeral.startsWith c = true) :
    c ≠ '\n' ∧ Text.isBlank c = false := by
  refine ⟨?_, ?_⟩
  · rintro rfl
    revert h
    decide
  · rw [← Bool.not_eq_true]
    intro hblank
    -- a numeral starts with a digit or the point, and no blank is one of these
    obtain ⟨-, hdigit, hpoint⟩ := not_isAlphanum_of_isBlank hblank
    simp [Numeral.startsWith, hdigit, hpoint] at h

/-- Where a name can start there is no blank, and no numeral starts. -/
theorem isBlank_of_startsName (h : startsName c = true) :
    c ≠ '\n' ∧ Text.isBlank c = false ∧ Numeral.startsWith c = false := by
  refine ⟨?_, ?_, ?_⟩
  · rintro rfl
    revert h
    decide
  -- a blank would be no letter, and a letter is what the name starts with
  · rw [← Bool.not_eq_true]
    intro hblank
    rw [startsName, (not_isAlphanum_of_isBlank hblank).1] at h
    cases h
  · have hdigit : c.isDigit = false := by
      rw [startsName, isAlpha_iff] at h
      rw [← Bool.not_eq_true, isDigit_iff]
      omega
    have hpoint : c ≠ '.' := by
      rintro rfl
      revert h
      decide
    simp [Numeral.startsWith, hdigit, hpoint]

theorem next?_number (h : Numeral.startsWith c = true) (cs : List Char) :
    next? (c :: cs) = some (.number (Numeral.split (c :: cs)).1, (Numeral.split (c :: cs)).2) := by
  obtain ⟨hc, hblank⟩ := isBlank_of_startsWith h
  rw [next?, if_neg hc, if_neg (by simp [hblank]), if_pos h]

/-- Where a name starts, it is the lexeme, as long as it goes on. -/
theorem next?_name (h : startsName c = true) (cs : List Char) :
    next? (c :: cs) =
      some (.name (c :: cs.takeWhile continuesName), cs.dropWhile continuesName) := by
  obtain ⟨hc, hblank, hnumber⟩ := isBlank_of_startsName h
  rw [next?, if_neg hc, if_neg (by simp [hblank]), if_neg (by simp [hnumber]), if_pos h]

/-- Where nothing longer starts, the character is the lexeme. -/
theorem next?_other (hc : c ≠ '\n') (hblank : Text.isBlank c = false)
    (hnumber : Numeral.startsWith c = false) (hname : startsName c = false) (cs : List Char) :
    next? (c :: cs) = some (ofChar c, cs) := by
  rw [next?, if_neg hc, if_neg (by simp [hblank]), if_neg (by simp [hnumber]),
    if_neg (by simp [hname])]

/-- The characters that are tokens by themselves start nothing else. -/
theorem next?_mark {kind : TokenKind} (h : TokenKind.ofChar? c = some kind) (cs : List Char) :
    next? (c :: cs) = some (.mark kind, cs) := by
  have hofChar : ofChar c = .mark kind := by simp [ofChar, h]
  rw [← hofChar]
  unfold TokenKind.ofChar? at h
  split at h
  case h_12 => cases h
  all_goals exact next?_other (by decide) (by decide) (by decide) (by decide) cs

end Lexeme

/-- At the front of a text stands one literal as long as can be, and that is split off. -/
theorem Numeral.split_of_longest {n : Numeral} (h : n.IsLiteral)
    (hmax : ∀ m : Numeral, m.IsLiteral → m.chars <+: n.chars ++ rest →
      m.chars.length ≤ n.chars.length)
    (hc : Numeral.startsWith c = true) (hcs : n.chars ++ rest = c :: cs) :
    Numeral.split (c :: cs) = (n, rest) := by
  obtain ⟨-, heq⟩ := split_append_rest h rest
  have hle := split_append_rest h rest |>.1
  rw [hcs] at hmax heq hle
  -- what is split off is a literal at the front, so it is no longer than `n`; nor is it shorter
  have hlit := isLiteral_split cs hc
  have hprefix : (split (c :: cs)).1.chars <+: c :: cs := ⟨_, split_append (c :: cs)⟩
  exact heq (Nat.le_antisymm (hmax _ hlit hprefix) hle)

/-- A literal starts with a digit or a point. -/
theorem Numeral.IsLiteral.exists_cons {n : Numeral} (h : n.IsLiteral) :
    ∃ c cs, n.chars = c :: cs ∧ Numeral.startsWith c = true := by
  obtain ⟨whole, fraction, exponent⟩ := n
  cases whole with
  | cons c cs => exact ⟨c, _, rfl, by simp [startsWith, h.whole c List.mem_cons_self]⟩
  | nil =>
    cases fraction with
    | some ds => exact ⟨'.', _, rfl, rfl⟩
    | none => exact absurd h.starts (by simp)

/-! ## The rules and the list -/

/-- What the rules derive is what is taken off the text. -/
theorem Lexes.eq_lexemes {ls : List (Lexeme × Nat)} (h : Lexes line cs ls) :
    ls = lexemes line cs := by
  induction h with
  | nil line => rw [lexemes_of_none rfl]
  | newline _ ih =>
    rw [lexemes_of_some (Lexeme.next?_newline _), ih]
    rfl
  | blank hc hblank _ ih => rw [ih, lexemes_congr (Lexeme.next?_blank hc hblank _)]
  | @number line n rest ls hlit hmax _ ih =>
    obtain ⟨c, cs, hcs, hstart⟩ := hlit.exists_cons
    have hall : n.chars ++ rest = c :: (cs ++ rest) := by rw [hcs, List.cons_append]
    have hnext := Lexeme.next?_number hstart (cs ++ rest)
    rw [Numeral.split_of_longest hlit hmax hstart hall] at hnext
    rw [hall, lexemes_of_some hnext, ih]
    rfl
  | @name line c cs rest ls hc hcs hrest _ ih =>
    -- the name goes on no further than the rule says
    have hstop : rest.takeWhile Lexeme.continuesName = [] ∧
        rest.dropWhile Lexeme.continuesName = rest := by
      cases rest with
      | nil => exact ⟨rfl, rfl⟩
      | cons d rest =>
        have hd : Lexeme.continuesName d = false := hrest d rfl
        simp [hd]
    have hnext := Lexeme.next?_name (c := c) hc (cs ++ rest)
    rw [List.takeWhile_append_of_pos (p := Lexeme.continuesName) hcs,
      List.dropWhile_append_of_pos (p := Lexeme.continuesName) hcs, hstop.1, hstop.2,
      List.append_nil] at hnext
    rw [List.cons_append, lexemes_of_some hnext, ih]
    rfl
  | mark hkind _ ih =>
    rw [lexemes_of_some (Lexeme.next?_mark hkind _), ih]
    rfl
  | @stray line c cs ls hc hblank hdigit hpoint halpha hkind _ ih =>
    have hnumeral : Numeral.startsWith c = false := by simp [Numeral.startsWith, hdigit, hpoint]
    have hnext := Lexeme.next?_other hc hblank hnumeral halpha cs
    rw [Lexeme.ofChar, hkind] at hnext
    rw [lexemes_of_some hnext, ih]
    rfl

/-- What is taken off a text is derived by the rules. -/
theorem lexes_lexemes (line : Nat) (cs : List Char) : Lexes line cs (lexemes line cs) := by
  induction hn : cs.length using Nat.strongRecOn generalizing line cs with
  | _ n ih =>
    subst hn
    cases cs with
    | nil =>
      rw [lexemes_of_none rfl]
      exact .nil line
    | cons c cs =>
      -- one case for each branch of taking a lexeme off the text
      by_cases hc : c = '\n'
      · subst hc
        rw [lexemes_of_some (Lexeme.next?_newline cs)]
        exact .newline (ih _ (by simp) _ _ rfl)
      by_cases hblank : Text.isBlank c = true
      · rw [lexemes_congr (Lexeme.next?_blank hc hblank cs)]
        exact .blank hc hblank (ih _ (by simp) _ _ rfl)
      rw [Bool.not_eq_true] at hblank
      by_cases hnumber : Numeral.startsWith c = true
      · have hnext := Lexeme.next?_number hnumber cs
        rw [lexemes_of_some hnext]
        have hrest := ih _ (Lexeme.length_lt_of_next? hnext) line _ rfl
        have happend := Numeral.split_append (c :: cs)
        -- no literal at the front of the text is longer than what was split off
        have hlongest : ∀ m : Numeral, m.IsLiteral →
            m.chars <+: (Numeral.split (c :: cs)).1.chars ++ (Numeral.split (c :: cs)).2 →
            m.chars.length ≤ (Numeral.split (c :: cs)).1.chars.length := by
          rw [happend]
          intro m hm ⟨more, hmore⟩
          rw [← hmore]
          exact (Numeral.split_append_rest hm more).1
        have hrule := Lexes.number (Numeral.isLiteral_split cs hnumber) hlongest hrest
        rwa [happend] at hrule
      rw [Bool.not_eq_true] at hnumber
      by_cases hname : Lexeme.startsName c = true
      · have hnext := Lexeme.next?_name hname cs
        rw [lexemes_of_some hnext]
        have hrest := ih _ (Lexeme.length_lt_of_next? hnext) line _ rfl
        have hinside : ∀ d ∈ cs.takeWhile Lexeme.continuesName, Lexeme.continuesName d = true :=
          List.all_eq_true.1 List.all_takeWhile
        have hbehind : ∀ d ∈ (cs.dropWhile Lexeme.continuesName).head?,
            Lexeme.continuesName d = false := by
          intro d hd
          have hhead := List.head?_dropWhile_not Lexeme.continuesName cs
          rw [Option.mem_def.1 hd] at hhead
          simpa using hhead
        have hrule := Lexes.name hname hinside hbehind hrest
        rwa [List.cons_append, List.takeWhile_append_dropWhile] at hrule
      rw [Bool.not_eq_true] at hname
      rw [lexemes_of_some (Lexeme.next?_other hc hblank hnumber hname cs)]
      have hrest := ih _ (by simp) line cs rfl
      unfold Lexeme.ofChar
      split
      · next kind hkind => exact .mark hkind hrest
      · next hkind =>
        simp only [Numeral.startsWith, Bool.or_eq_false_iff, beq_eq_false_iff_ne] at hnumber
        exact .stray hc hblank hnumber.1 hnumber.2 hname hkind hrest

/-- A text has the lexemes that are taken off it, and no others. -/
theorem lexes_iff {ls : List (Lexeme × Nat)} : Lexes line cs ls ↔ ls = lexemes line cs :=
  ⟨Lexes.eq_lexemes, fun h => h ▸ lexes_lexemes line cs⟩

end DeskCalc
