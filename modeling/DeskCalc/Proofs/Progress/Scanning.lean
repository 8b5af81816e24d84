import DeskCalc.Proofs.Lexing
import DeskCalc.Proofs.Progress.CallTree
import DeskCalc.Proofs.Remainder

/-!
# Looking for a token ends

A token is looked for character by character: blanks are passed over, another line is asked for
where the last one is used up, and digits and letters are taken as long as they come. Each of these
loops calls itself for its next round, and every round leaves fewer characters or fewer lines.

* `ScanCall`, `ScanCall.tree` — the calls, and what each of them does.
* `ScanCall.answer` — what they come to: the token that the stream hands out (`TokenStream.scan`),
  the longest numeral, the longest run of characters of a class.
* `solved_scan` — they do come to that, and the rounds left are bounded (`ScanCall.rank`).
-/

namespace DeskCalc

variable {α : Type}

theorem LineSource.next_blank {c : Char} (hc : c ≠ '\n') (hblank : Text.isBlank c = true)
    (cs : List Char) (source : LineSource) : next (c :: cs) source = next cs source := by
  rw [next, next, Lexeme.next?_blank hc hblank]

/-- The calls that looking for a token consists of. -/
inductive ScanCall (α : Type) where
  /-- Takes characters of a class as long as they come. -/
  | eat (p : Char → Bool) (cs : List Char)
  | numeral (cs : List Char)
  /-- Looks for the first character that is no blank, and takes the token that it starts. -/
  | search (t : TokenStream α) (s : Session α)
  | scan (t : TokenStream α) (s : Session α)

namespace ScanCall

abbrev Answer : ScanCall α → Type
  | .eat _ _ => List Char × List Char
  | .numeral _ => Numeral × List Char
  | .search _ _ | .scan _ _ => Token α × TokenStream α × Session α

abbrev ask (c : ScanCall α) : CallTree (ScanCall α) Answer c.Answer := CallTree.ask c

/-- Takes a point and the digits behind it, if there is a point. -/
def fraction : List Char → CallTree (ScanCall α) Answer (Option (List Char) × List Char)
  | '.' :: cs => do
    let (digits, rest) ← ask (.eat Char.isDigit cs)
    pure (some digits, rest)
  | cs => pure (none, cs)

/-- Takes an exponent, if a digit follows its letter and its sign. -/
def exponent : List Char → CallTree (ScanCall α) Answer (Option ExponentPart × List Char)
  | [] => pure (none, [])
  | c :: cs =>
    let (sign, rest) := ExponentPart.splitSign cs
    if (c = 'e' ∨ c = 'E') ∧ rest.head?.any Char.isDigit then do
      let (digits, rest) ← ask (.eat Char.isDigit rest)
      pure (some ⟨c, sign, digits⟩, rest)
    else pure (none, c :: cs)

variable [Arithmetic α]

/-- Hands out the token of a lexeme. -/
def hand (l : Lexeme) (rest : List Char) (t : TokenStream α) (s : Session α) :
    Token α × TokenStream α × Session α :=
  ((s.token l).1, { t with rest, newlinePending := l = .newline }, (s.token l).2)

/-- One round of looking for a token: it passes over a blank or reads a line and goes on from there,
or it takes the token that starts here. -/
def round (t : TokenStream α) (s : Session α) :
    CallTree (ScanCall α) Answer (Token α × TokenStream α × Session α) :=
  if t.exhausted then pure (.bare .finish s.log.line, { t with newlinePending := false }, s)
  else
    match t.rest with
    | [] =>
      match t.source.read with
      | (.line chars, source) => ask (.search { t with source, rest := chars } s)
      | (.finished, source) =>
        pure (.bare .finish s.log.line,
          { t with source, rest := [], exhausted := true, newlinePending := false }, s)
      | (.failed _ message, source) =>
        pure (.bare .finish s.log.line,
          { t with source, rest := [], exhausted := true, newlinePending := false },
          s.report (.input message))
    | c :: cs =>
      if c = '\n' then pure (hand .newline cs t s)
      else if Text.isBlank c then ask (.search { t with rest := cs } s)
      else if Numeral.startsWith c then do
        let (n, rest) ← ask (.numeral (c :: cs))
        pure (hand (.number n) rest t s)
      else if Lexeme.startsName c then do
        let (chars, rest) ← ask (.eat Lexeme.continuesName cs)
        pure (hand (.name (c :: chars)) rest t s)
      else pure (hand (.ofChar c) cs t s)

/-- What each call does. -/
def tree : Procedures (ScanCall α) Answer
  | .eat _ [] => pure ([], [])
  | .eat p (c :: cs) =>
    if p c then do
      let (taken, rest) ← ask (.eat p cs)
      pure (c :: taken, rest)
    else pure ([], c :: cs)
  | .numeral cs => do
    let (whole, rest) ← ask (.eat Char.isDigit cs)
    let (fraction, rest) ← fraction rest
    let (exponent, rest) ← exponent rest
    pure (⟨whole, fraction, exponent⟩, rest)
  | .search t s => round t s
  | .scan t s =>
    ask (.search { t with newlinePending := false } (if t.newlinePending then s.nextLine else s))

/-- What the calls come to. -/
def answer : (c : ScanCall α) → c.Answer
  | .eat p cs => (cs.takeWhile p, cs.dropWhile p)
  | .numeral cs => Numeral.split cs
  | .search t s => { t with newlinePending := false }.scan s
  | .scan t s => t.scan s

omit [Arithmetic α] in
/-- A bound for the rounds that are left. -/
def rank : ScanCall α → Nat
  | .eat _ cs => cs.length
  | .numeral cs => cs.length + 1
  | .search t _ => t.rest.length + t.source.unread + t.source.lines.length + 2
  | .scan t _ => t.rest.length + t.source.unread + t.source.lines.length + 3

/-! ## What the calls come to -/

/-- The calls for a fraction come to what is split off. -/
theorem outcome_fraction (cs : List Char) :
    (fraction cs : CallTree (ScanCall α) Answer _).outcome answer = Numeral.splitFraction cs := by
  cases cs with
  | nil => rfl
  | cons c cs =>
    by_cases hc : c = '.'
    · subst hc
      rfl
    · simp [fraction, Numeral.splitFraction, hc]

/-- A run of digits is there just when a digit comes first. -/
theorem takeWhile_ne_nil_iff (cs : List Char) :
    cs.takeWhile Char.isDigit ≠ [] ↔ cs.head?.any Char.isDigit = true := by
  cases cs with
  | nil => simp
  | cons c cs => cases h : c.isDigit <;> simp [h]

/-- The calls for an exponent come to what is split off. -/
theorem outcome_exponent (cs : List Char) :
    (exponent cs : CallTree (ScanCall α) Answer _).outcome answer = ExponentPart.split cs := by
  cases cs with
  | nil => rfl
  | cons c cs =>
    simp only [exponent, ExponentPart.split, takeWhile_ne_nil_iff]
    split <;> rfl

/-- Where a lexeme starts, its token is handed out. -/
theorem answer_search {t : TokenStream α} (hx : t.exhausted = false) {l : Lexeme}
    {rest : List Char} (h : Lexeme.next? t.rest = some (l, rest)) (s : Session α) :
    answer (.search t s) = hand l rest t s := by
  have hnext : LineSource.next t.rest t.source = (.lexeme l rest, t.source) := by
    rw [LineSource.next, h]
  simp [answer, TokenStream.scan, hx, hnext, hand]

/-- A round that finds no lexeme leaves the same one to be found. -/
theorem answer_search_congr {t : TokenStream α} (hx : t.exhausted = false) {rest : List Char}
    {source : LineSource} (h : LineSource.next t.rest t.source = LineSource.next rest source)
    (s : Session α) : answer (.search { t with source, rest } s) = answer (.search t s) := by
  simp only [answer, TokenStream.scan, hx, h]
  rfl

/-- Where a line is used up, it is up to what is read next. -/
theorem outcome_round_nil {t : TokenStream α} (hx : t.exhausted = false) (hrest : t.rest = [])
    (s : Session α) : (round t s).outcome answer = answer (.search t s) := by
  simp only [round, hx, Bool.false_eq_true, if_false, hrest]
  have hnone : Lexeme.next? [] = none := rfl
  rcases hread : t.source.read with ⟨chars | _ | ⟨part, message⟩, source⟩
  all_goals have hnext := LineSource.next_of_read hnone hread
  · exact answer_search_congr hx (hrest ▸ hnext) s
  · simp [answer, TokenStream.scan, hx, hrest, hnext]
  · simp [answer, TokenStream.scan, hx, hrest, hnext]

/-- At a character, a round of the search comes to what the search finds. -/
theorem outcome_round_cons {t : TokenStream α} (hx : t.exhausted = false) {c : Char}
    {cs : List Char} (hrest : t.rest = c :: cs) (s : Session α) :
    (round t s).outcome answer = answer (.search t s) := by
  -- where a lexeme comes next, it is handed out; a blank is passed over instead
  have hhand {l : Lexeme} {rest : List Char} (h : Lexeme.next? (c :: cs) = some (l, rest)) :
      answer (.search t s) = hand l rest t s := answer_search hx (hrest ▸ h) s
  simp only [round, hx, Bool.false_eq_true, if_false, hrest]
  by_cases hc : c = '\n'
  · subst hc
    rw [hhand (Lexeme.next?_newline cs), if_pos rfl, CallTree.outcome_pure]
  rw [if_neg hc]
  cases hblank : Text.isBlank c with
  | true =>
    exact answer_search_congr hx (hrest ▸ LineSource.next_blank hc hblank cs t.source) s
  | false =>
    rw [if_neg (by simp)]
    cases hnumber : Numeral.startsWith c with
    | true =>
      rw [hhand (Lexeme.next?_number hnumber cs)]
      rfl
    | false =>
      rw [if_neg (by simp)]
      cases hname : Lexeme.startsName c with
      | true =>
        rw [hhand (Lexeme.next?_name hname cs)]
        rfl
      | false =>
        rw [hhand (Lexeme.next?_other hc hblank hnumber hname cs)]
        rfl

/-- A round of the search comes to what the search finds. -/
theorem outcome_round (t : TokenStream α) (s : Session α) :
    (round t s).outcome answer = answer (.search t s) := by
  cases hx : t.exhausted with
  | true => simp [round, answer, TokenStream.scan, hx]
  | false =>
    cases hrest : t.rest with
    | nil => exact outcome_round_nil hx hrest s
    | cons c cs => exact outcome_round_cons hx hrest s

/-! ## Every round leaves less -/

/-- The calls for a fraction look at fewer characters. -/
theorem rank_fraction {cs : List Char} {c : ScanCall α} (h : c ∈ (fraction cs).calls answer) :
    c.rank < cs.length := by
  unfold fraction at h
  split at h
  · next cs =>
    obtain rfl : c = .eat Char.isDigit cs := by simpa using h
    simp [rank]
  · simp at h

/-- The calls for an exponent look at fewer characters. -/
theorem rank_exponent {cs : List Char} {c : ScanCall α} (h : c ∈ (exponent cs).calls answer) :
    c.rank < cs.length := by
  cases cs with
  | nil => simp [exponent] at h
  | cons letter cs =>
    -- the letter is taken off in any case, the sign where there is one
    have hsign := congrArg List.length (ExponentPart.splitSign_append cs)
    rw [List.length_append] at hsign
    simp only [exponent] at h
    split at h
    · obtain rfl : c = .eat Char.isDigit (ExponentPart.splitSign cs).2 := by simpa using h
      simp only [rank, List.length_cons]
      omega
    · simp at h

/-- The calls for a numeral look at no more characters than it does. -/
theorem rank_numeral {cs : List Char} {c : ScanCall α}
    (h : c ∈ (tree (.numeral cs)).calls answer) : c.rank < cs.length + 1 := by
  have hwhole := (List.dropWhile_sublist Char.isDigit (l := cs)).length_le
  have hfraction := congrArg List.length (Numeral.splitFraction_append (cs.dropWhile Char.isDigit))
  rw [List.length_append] at hfraction
  -- digits, then perhaps a fraction behind them, then perhaps an exponent behind that
  have hcases : c = .eat Char.isDigit cs ∨ c ∈ (fraction (cs.dropWhile Char.isDigit)).calls answer ∨
      c ∈ (exponent (Numeral.splitFraction (cs.dropWhile Char.isDigit)).2).calls answer := by
    simpa [tree, answer, outcome_fraction] using h
  rcases hcases with rfl | h | h
  · exact Nat.lt_succ_self _
  · have := rank_fraction h
    omega
  · have := rank_exponent h
    omega

/-- Passing over a blank leaves a shorter line, and reading a line leaves fewer of them. -/
theorem rank_round {t : TokenStream α} {s : Session α} {c : ScanCall α}
    (h : c ∈ (round t s).calls answer) :
    c.rank < t.rest.length + t.source.unread + t.source.lines.length + 2 := by
  unfold round at h
  split at h
  · simp at h
  · split at h
    · next hrest =>
      split at h
      · next chars source hread =>
        -- the rest is empty, and a line is read
        have hread := LineSource.of_read_eq_line hread
        obtain rfl : c = .search { t with source, rest := chars } s := by simpa using h
        simp only [rank, hrest, List.length_nil]
        omega
      · simp at h
      · simp at h
    -- the rest has a first character, and all calls are about what is behind it
    · next b cs hrest =>
      rw [hrest, List.length_cons]
      split at h
      · simp at h
      split at h
      · obtain rfl : c = .search { t with rest := cs } s := by simpa using h
        simp only [rank]
        omega
      split at h
      · obtain rfl : c = .numeral (b :: cs) := by simpa using h
        simp only [rank, List.length_cons]
        omega
      split at h
      · obtain rfl : c = .eat Lexeme.continuesName cs := by simpa using h
        simp only [rank]
        omega
      · simp at h

/-- Looking for a token comes to the token that the stream hands out. -/
theorem solved_scan : (tree (α := α)).Solved answer (fun _ => True) rank where
  -- the outcome of each call is its answer, given the answers of the calls that it makes
  outcome c _ := by
    cases c with
    | eat p cs =>
      cases cs with
      | nil => rfl
      | cons c cs => cases h : p c <;> simp [tree, answer, h]
    | numeral cs =>
      simp only [tree, CallTree.outcome_bind, CallTree.outcome_ask, CallTree.outcome_pure,
        outcome_fraction, outcome_exponent]
      rfl
    | search t s => exact outcome_round t s
    | scan t s => simp [tree, answer, TokenStream.scan]
  -- the calls that it makes have a lower rank
  calls c _ c' h := by
    refine ⟨trivial, ?_⟩
    cases c with
    | eat p cs =>
      cases cs with
      | nil => simp [tree] at h
      | cons c cs =>
        cases hp : p c with
        | true =>
          obtain rfl : c' = .eat p cs := by simpa [tree, hp] using h
          exact Nat.lt_succ_self _
        | false => simp [tree, hp] at h
    | numeral cs => exact rank_numeral h
    | search t s => exact rank_round h
    | scan t s =>
      obtain rfl := List.mem_singleton.1 h
      exact Nat.lt_succ_self _

end ScanCall

end DeskCalc
