import DeskCalc.Double.Checked
import DeskCalc.Proofs.Lexing
import DeskCalc.Proofs.Remainder
import Mathlib.Algebra.Field.Rat
import Mathlib.Tactic.FieldSimp
import Mathlib.Tactic.Ring

/-!
# Number tokens

Where a digit or a point stands, the longest literal is taken, whatever follows it. It becomes a
number, unless it has no digit in front of its exponent: then it is reported, and the statement ends.

* `Numeral.Formed` — what a literal looks like, with every part of it left to choice.
* `Numeral.amount` — the rational number that a literal writes down.
* `Numeral.amount_of_value?` — the decimal that is read off a literal is that number.
* `Numeral.length_le_split` — nothing longer of this form stands at the front of a text than what is
  split off it.
* `Evaluation.Holds.scan_number` — what scanning makes of a literal, wherever it stands in a text.
-/

namespace DeskCalc

namespace Numeral

/-! ## The form of literals -/

/-- Digits, perhaps a point with digits behind it, perhaps an exponent. -/
structure Formed (n : Numeral) : Prop where
  whole : ∀ c ∈ n.whole, c.isDigit = true
  fraction : ∀ ds, n.fraction = some ds → ∀ c ∈ ds, c.isDigit = true
  exponent : ∀ x, n.exponent = some x → x.IsLiteral

theorem IsLiteral.formed {n : Numeral} (h : n.IsLiteral) : n.Formed :=
  ⟨h.whole, h.fraction, h.exponent⟩

/-- In front of a digit or a point, nothing of this form starts with its exponent. -/
theorem Formed.isLiteral_of_prefix {n : Numeral} (h : n.Formed) {c : Char} {cs : List Char}
    (hc : startsWith c = true) (hfront : n.chars <+: c :: cs) (hne : n.chars ≠ []) :
    n.IsLiteral := by
  refine ⟨h.whole, h.fraction, h.exponent, ?_⟩
  -- otherwise the exponent's letter would be the digit or the point that is there
  by_contra hstarts
  obtain ⟨hwhole, hfraction⟩ := not_or.1 hstarts
  rw [not_not] at hwhole
  rw [Bool.not_eq_true, Option.isSome_eq_false_iff, Option.isNone_iff_eq_none] at hfraction
  cases hx : n.exponent with
  | none => simp [chars, hwhole, hfraction, hx] at hne
  | some x =>
    simp only [chars, hwhole, hfraction, hx, Option.elim, List.nil_append, ExponentPart.chars]
      at hfront
    obtain ⟨rfl, -⟩ := List.cons_prefix_cons.1 hfront
    rcases (h.exponent x hx).letter with hletter | hletter <;> rw [hletter] at hc <;>
      exact absurd hc (by decide)

/-- The literal stands at the front of a text, and nothing longer of its form does. -/
structure Longest (n : Numeral) (cs rest : List Char) : Prop where
  append : cs = n.chars ++ rest
  formed : n.Formed
  longest : ∀ m : Numeral, m.Formed → m.chars <+: cs → m.chars.length ≤ n.chars.length

/-- Nothing longer of this form stands at the front of a text than what is split off. -/
theorem length_le_split {m : Numeral} (hm : m.Formed) {c : Char} {cs : List Char}
    (hc : startsWith c = true) (hfront : m.chars <+: c :: cs) :
    m.chars.length ≤ (split (c :: cs)).1.chars.length := by
  by_cases hne : m.chars = []
  · rw [hne]
    exact Nat.zero_le _
  · obtain ⟨more, hmore⟩ := hfront
    -- what is not empty starts with a digit or the point, so splitting takes at least all of it
    have hliteral := hm.isLiteral_of_prefix hc ⟨more, hmore⟩ hne
    rw [← hmore]
    exact (split_append_rest hliteral more).1

theorem longest_split {c : Char} (cs : List Char) (hc : startsWith c = true) :
    (split (c :: cs)).1.Longest (c :: cs) (split (c :: cs)).2 :=
  ⟨(split_append (c :: cs)).symm, (isLiteral_split cs hc).formed,
    fun _ hm => length_le_split hm hc⟩

/-! ## The number that a literal writes down -/

/-- The rational number that the literal writes down. -/
def amount (n : Numeral) : ℚ :=
  (Nat.ofDigitChars 10 n.whole 0 +
      Nat.ofDigitChars 10 (n.fraction.getD []) 0 / 10 ^ (n.fraction.getD []).length) *
    10 ^ (n.exponent.elim 0 ExponentPart.value)

/-- The decimal that is read off a literal is the number that it writes down. -/
theorem amount_of_value? {n : Numeral} {m : Nat} {e : Int} (h : n.value? = some (m, e)) :
    (m : ℚ) * 10 ^ e = n.amount := by
  unfold value? at h
  split at h
  · cases h
  · cases h
    -- the digits behind the point lower the exponent of ten by their number
    have hten : (10 : ℚ) ≠ 0 := by norm_num
    rw [digits, Nat.ofDigitChars_append, Nat.ofDigitChars_eq_ofDigitChars_zero, zpow_sub₀ hten,
      zpow_natCast, amount]
    push_cast
    field_simp

/-- A literal has a number unless there is no digit in front of its exponent. -/
theorem value?_eq_none_iff {n : Numeral} : n.value? = none ↔ n.digits = [] := by
  unfold value?
  split
  · next h => simp [h]
  · next h => simp [h]

end Numeral

/-! ## Scanning -/

namespace Lexeme

/-- Blanks in front of a text do not count. -/
theorem next?_blanks {blanks : List Char} (h : ∀ b ∈ blanks, b ≠ '\n' ∧ Text.isBlank b = true)
    (cs : List Char) : next? (blanks ++ cs) = next? cs := by
  induction blanks with
  | nil => rfl
  | cons b blanks ih =>
    obtain ⟨⟨hb, hblank⟩, hblanks⟩ := List.forall_mem_cons.1 h
    rw [List.cons_append, next?_blank hb hblank, ih hblanks]

end Lexeme

namespace Evaluation

variable {α : Type} [Arithmetic α] {behind : LineSource} {e : Evaluation α} {cs : List Char}

/-- Scanning takes the first lexeme off the text that is left. -/
theorem Holds.scan_of_some (h : e.Holds behind cs) {l : Lexeme} {cs' : List Char}
    (hl : Lexeme.next? cs = some (l, cs')) :
    ∃ t : TokenStream α, e.stream.scan e.session = ((e.reading.token l).1, t, (e.reading.token l).2) ∧
      t.Holds behind cs' ∧ t.newlinePending = decide (l = .newline) := by
  obtain ⟨hcurrent, hsession, hholds, hpending⟩ := h.advance_of_some hl
  have hscan : e.stream.scan e.session = ((e.stream.scan e.session).1,
      (e.stream.scan e.session).2.1, (e.stream.scan e.session).2.2) := rfl
  rw [Ready.advance_eq h.ready hscan] at hcurrent hsession hholds hpending
  exact ⟨_, Prod.ext hcurrent (Prod.ext rfl hsession),
    ⟨hholds.ready, hholds.source, hholds.exhausted⟩, hpending⟩

/-- A literal was scanned. If there is a digit in front of its exponent, the token is the number
that it writes down, and nothing is reported; otherwise it is reported, once, and ends the
statement. -/
structure ScannedNumber (e : Evaluation α) (n : Numeral) (token : Token α) (s : Session α) :
    Prop where
  line : token.line = e.reading.log.line
  kind : token.kind = .number ↔ n.digits ≠ []
  number : n.digits ≠ [] → s = e.reading ∧ ∃ (m : Nat) (x : Int), (m : ℚ) * 10 ^ x = n.amount ∧
    token.number? = some (Arithmetic.ofDecimal m x)
  bad : n.digits = [] → token.kind = .endOfStatement ∧ ∃ problem : Problem,
    s = e.reading.report problem ∧ problem.kind = .lexical ∧
      problem.message = "bad number '" ++ String.ofList n.chars ++ "'"

/-- The token that is made of a numeral is what scanning the numeral promises. -/
theorem scannedNumber_token (e : Evaluation α) (n : Numeral) :
    e.ScannedNumber n (e.reading.token (.number n)).1 (e.reading.token (.number n)).2 := by
  -- there is a value just where there is a digit in front of the exponent
  cases hv : n.value? with
  | none =>
    have hdigits := Numeral.value?_eq_none_iff.1 hv
    simp only [Session.token, hv]
    exact ⟨rfl, by simp [Token.bare, hdigits], fun h => absurd hdigits h,
      fun _ => ⟨rfl, _, rfl, rfl, rfl⟩⟩
  | some v =>
    obtain ⟨m, x⟩ := v
    have hdigits : n.digits ≠ [] := by
      rw [Ne, ← Numeral.value?_eq_none_iff, hv]
      exact Option.some_ne_none _
    simp only [Session.token, hv]
    exact ⟨rfl, by simp [hdigits], fun _ => ⟨rfl, m, x, Numeral.amount_of_value? hv, rfl⟩,
      fun h => absurd h hdigits⟩

/-- Where a digit or a point comes next, scanning takes the longest literal and leaves what follows
it. -/
theorem Holds.scan_number {blanks : List Char} {c : Char} (h : e.Holds behind (blanks ++ c :: cs))
    (hblanks : ∀ b ∈ blanks, b ≠ '\n' ∧ Text.isBlank b = true) (hc : c.isDigit = true ∨ c = '.') :
    ∃ (n : Numeral) (rest : List Char) (token : Token α) (t : TokenStream α) (s : Session α),
      n.Longest (c :: cs) rest ∧ e.stream.scan e.session = (token, t, s) ∧ t.Holds behind rest ∧
        t.newlinePending = false ∧ e.ScannedNumber n token s := by
  -- behind the blanks a numeral starts, and the one that is split off there is the longest
  have hstart : Numeral.startsWith c = true := by
    rcases hc with hc | rfl
    · simp [Numeral.startsWith, hc]
    · rfl
  have hnext : Lexeme.next? (blanks ++ c :: cs) = _ :=
    (Lexeme.next?_blanks hblanks _).trans (Lexeme.next?_number hstart cs)
  obtain ⟨t, hscan, hholds, hpending⟩ := h.scan_of_some hnext
  exact ⟨_, _, _, t, _, Numeral.longest_split cs hstart, hscan, hholds, hpending,
    e.scannedNumber_token _⟩

/-- A literal with no digit in front of its exponent. What follows it starts like an exponent, but
no digit comes. -/
def lonePoint : Evaluation Float :=
  start (.ofText "\t.e+7e+x") (.new "hoc" .silent (Double.draws 0))

/-- A point with no digit beside it, and an exponent letter with no digit behind it. -/
theorem Holds.scan_number_lonePoint :
    lonePoint.Holds .nothing (['\t'] ++ '.' :: "e+7e+x".toList) ∧
      ∃ (n : Numeral) (rest : List Char) (token : Token Float) (t : TokenStream Float)
        (s : Session Float), n.Longest ('.' :: "e+7e+x".toList) rest ∧
          lonePoint.stream.scan lonePoint.session = (token, t, s) ∧ t.Holds .nothing rest ∧
          t.newlinePending = false ∧ lonePoint.ScannedNumber n token s := by
  have hholds : lonePoint.Holds .nothing (['\t'] ++ '.' :: "e+7e+x".toList) := holds_start _ _
  exact ⟨hholds, hholds.scan_number (List.forall_mem_singleton.2 (by decide)) (Or.inr rfl)⟩

end Evaluation

end DeskCalc
