import DeskCalc.LineSource
import DeskCalc.Session

/-!
# Token streams

A token stream turns the lines of a source into tokens, one at a time and no sooner than they are
asked for. It holds the token taken last and at most one token beyond it.

Names get their place in the symbol table when they are read. What is no token is reported, and the
end of a statement takes its place. The line count moves on when the first token behind a line break
is read, and not yet at the break itself: until then, whatever is wrong with the statement is
reported on its own line.

* `TokenStream.scan`: the next token of the source;
* `TokenStream.peek`, `advance`: looking at the next token and taking it;
* `TokenStream.pending`: how much there is to come, which no operation increases.
-/

namespace DeskCalc

structure TokenStream (α : Type) where
  source : LineSource
  rest : List Char
  current : Token α
  /-- The token beyond it, if it has been looked at. -/
  lookahead : Option (Token α)
  /-- Has the source come to its end? It is not asked again then. -/
  exhausted : Bool
  /-- Was the last thing read a line break, which is still to be counted? -/
  newlinePending : Bool

/-- The token that a lexeme stands for in a session, and what reading it does to the session. -/
def Session.token {α : Type} [Arithmetic α] (l : Lexeme) (s : Session α) : Token α × Session α :=
  let line := s.log.line
  match l with
  | .newline => (.bare .endOfStatement line, s)
  | .mark kind => (.bare kind line, s)
  | .stray c => (.bare .endOfStatement line, s.report (.badToken c))
  | .number n =>
    match n.value? with
    | some (m, e) => (⟨.number, .number (Arithmetic.ofDecimal m e), line⟩, s)
    | none => (.bare .endOfStatement line, s.report (.badNumber (String.ofList n.chars)))
  | .name chars =>
    let (index, s) := s.intern (String.ofList chars)
    let arity? := (s.table.get index).toOption.bind Binding.arity?
    (⟨.ofArity? arity?, .symbol index, line⟩, s)

namespace TokenStream

variable {α : Type}

def new (source : LineSource) : TokenStream α :=
  ⟨source, [], .bare .endOfStatement 1, none, false, false⟩

/-- How much there is to come: characters to be read, and a token that was only looked at. -/
def pending (t : TokenStream α) : Nat :=
  t.rest.length + t.source.unread +
    match t.lookahead with
    | some token => if token.kind = .finish then 0 else 1
    | none => 0

variable [Arithmetic α]

/-- Reads the next token. A line break that was read before is counted now, and a source that has
failed or come to its end gives the end of the input from then on. -/
def scan (t : TokenStream α) (s : Session α) : Token α × TokenStream α × Session α :=
  let s := if t.newlinePending then s.nextLine else s
  if t.exhausted then
    (.bare .finish s.log.line, { t with newlinePending := false }, s)
  else
    match LineSource.next t.rest t.source with
    | (.lexeme l rest, source) =>
      let (token, s) := s.token l
      (token, { t with source, rest, newlinePending := l = .newline }, s)
    | (.finished, source) =>
      (.bare .finish s.log.line,
        { t with source, rest := [], exhausted := true, newlinePending := false }, s)
    | (.failed message, source) =>
      (.bare .finish s.log.line,
        { t with source, rest := [], exhausted := true, newlinePending := false },
        s.report (.input message))

/-- Looks at the next token. It is read once, however often it is looked at. -/
def peek (t : TokenStream α) (s : Session α) : Token α × TokenStream α × Session α :=
  match t.lookahead with
  | some token => (token, t, s)
  | none =>
    let (token, t, s) := t.scan s
    (token, { t with lookahead := some token }, s)

/-- Takes the next token, which becomes the current one. -/
def advance (t : TokenStream α) (s : Session α) : TokenStream α × Session α :=
  match t.lookahead with
  | some token => ({ t with current := token, lookahead := none }, s)
  | none =>
    let (token, t, s) := t.scan s
    ({ t with current := token }, s)

/-!
### How much there is to come

Reading takes at least one character for every token but the end of the input, so the productions
that follow can recurse on what is left.
-/

/-- Reading a token leaves alone what was looked at before. -/
@[simp] theorem lookahead_scan (t : TokenStream α) (s : Session α) :
    (t.scan s).2.1.lookahead = t.lookahead := by
  unfold scan
  simp only
  split
  · rfl
  · split <;> rfl

/-- What is read does not become the current token by itself. -/
@[simp] theorem current_scan (t : TokenStream α) (s : Session α) :
    (t.scan s).2.1.current = t.current := by
  unfold scan
  simp only
  split
  · rfl
  · split <;> rfl

/-- The characters left over after reading a token. -/
theorem unread_scan (t : TokenStream α) (s : Session α) :
    (t.scan s).2.1.rest.length + (t.scan s).2.1.source.unread +
      (if (t.scan s).1.kind = .finish then 0 else 1) ≤ t.rest.length + t.source.unread := by
  unfold scan
  simp only
  split
  · simp [Token.bare]
  -- a lexeme has a character at least, and nothing else is counted as a token
  · have hle := LineSource.unread_next_le t.rest t.source
    split
    · next hn =>
      have := LineSource.unread_lt_of_next hn
      have one : ∀ k : TokenKind, (if k = .finish then 0 else 1) ≤ 1 := by intro k; split <;> omega
      exact Nat.le_trans (Nat.add_le_add_left (one _) _) (by simp only; omega)
    · next hn => simp_all [Token.bare]; omega
    · next hn => simp_all [Token.bare]; omega

/-- Looking at the next token does not take it. -/
@[simp] theorem current_peek (t : TokenStream α) (s : Session α) :
    (t.peek s).2.1.current = t.current := by
  unfold peek
  split
  · rfl
  · simp

/-- A token that was only looked at counts as much as the characters it was read from, or less. -/
theorem pending_peek_le (t : TokenStream α) (s : Session α) :
    (t.peek s).2.1.pending ≤ t.pending := by
  unfold peek
  split
  · exact Nat.le_refl _
  -- the token that is scanned moves from the source to the lookahead
  · next hl =>
    have := unread_scan t s
    simp only [pending, hl]
    omega

/-- Taking a token leaves less to come, unless it is the end of the input. -/
theorem pending_advance (t : TokenStream α) (s : Session α) :
    (t.advance s).1.pending + (if (t.advance s).1.current.kind = .finish then 0 else 1) ≤
      t.pending := by
  unfold advance
  split
  -- it was counted as looked at, and is taken now
  · next token hl => simp [pending, hl]
  · next hl =>
    have := unread_scan t s
    simp only [pending, lookahead_scan, hl]
    omega

end TokenStream

end DeskCalc
