import DeskCalc.Numeral
import DeskCalc.Text.Blank
import DeskCalc.Token

/-!
# Lexemes

The units of the input, before names are looked up and numbers are evaluated. `Lexeme.next?` skips
blanks and takes the first lexeme off a text. No lexeme but the line break itself contains a line
break, so a text may as well be read line by line.
-/

namespace DeskCalc

inductive Lexeme where
  /-- A line break, which ends a statement. -/
  | newline
  | number (n : Numeral)
  /-- A letter followed by letters and digits. -/
  | name (chars : List Char)
  /-- A character that is a token by itself. -/
  | mark (kind : TokenKind)
  /-- A character that belongs to no token. -/
  | stray (c : Char)
  deriving DecidableEq

namespace Lexeme

/-- Can the character start a name? Only the letters of ASCII can. -/
def startsName (c : Char) : Bool := c.isAlpha

/-- Can the character continue a name? Only the letters and digits of ASCII can. -/
def continuesName (c : Char) : Bool := c.isAlphanum

/-- The lexeme that a single character makes where neither a number nor a name starts. -/
def ofChar (c : Char) : Lexeme :=
  match TokenKind.ofChar? c with
  | some kind => .mark kind
  | none => .stray c

/-- The first lexeme of a text and what follows it; none if there are only blanks. -/
def next? : List Char → Option (Lexeme × List Char)
  | [] => none
  | c :: cs =>
    if c = '\n' then some (.newline, cs)
    else if Text.isBlank c then next? cs
    else if Numeral.startsWith c then
      let (n, rest) := Numeral.split (c :: cs)
      some (.number n, rest)
    else if startsName c then
      some (.name (c :: cs.takeWhile continuesName), cs.dropWhile continuesName)
    else some (ofChar c, cs)

/-- A lexeme takes at least one character. -/
theorem length_lt_of_next? {cs : List Char} {l : Lexeme} {rest : List Char}
    (h : next? cs = some (l, rest)) : rest.length < cs.length := by
  -- by the cases of the search; only blanks in front of the lexeme make it recur
  fun_induction next? cs with
  | case1 => simp at h
  | case2 => simp_all
  | case3 c cs _ _ ih =>
    have := ih h
    simp
    omega
  | case4 c cs _ _ hn =>
    have := Numeral.split_length_lt cs hn
    simp_all
  | case5 c cs =>
    simp only [Option.some.injEq, Prod.mk.injEq] at h
    have := (List.dropWhile_sublist continuesName (l := cs)).length_le
    rw [← h.2]
    simp
    omega
  | case6 => simp_all

end Lexeme

end DeskCalc
