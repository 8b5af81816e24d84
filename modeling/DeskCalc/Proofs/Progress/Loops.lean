import DeskCalc.Proofs.Printing
import DeskCalc.Proofs.Progress.Descent
import DeskCalc.Proofs.Progress.Scanning
import DeskCalc.Proofs.Script

/-!
# Reading makes progress and ends

Evaluating an input and running it are loops over its statements. Every statement takes a token that
ends no statement, so there are no more rounds than there are such tokens.

* `Evaluation.openTokens` — how many tokens are to come that end no statement. Every statement
  leaves fewer of them (`Ready.openTokens_statement_lt`).
* `LoopCall.tree`, `solved_loops` — the two loops, statement by statement, and that they end.
* `Progresses` — all that is promised of looking for a token, of reading a statement and of the
  loops, and `reading_progresses`, that it holds.
-/

namespace DeskCalc

variable {α : Type} [Arithmetic α]

namespace Evaluation

/-! ## Tokens that end no statement -/

/-- How many tokens are to come that end no statement. -/
def openTokens (e : Evaluation α) : Nat := e.tokens.1.countP fun t => !t.kind.endsStatement

/-- They are the tokens of the lexemes that end no statement. -/
theorem Ready.openTokens_eq {e : Evaluation α} (h : e.Ready) :
    e.openTokens = e.script.countP fun l => !l.1.ends := by
  -- the induction is on what is to come: the script loses a lexeme where a token is passed over
  induction hn : e.pending using Nat.strongRecOn generalizing e with
  | _ n ih =>
    rw [openTokens, tokens_eq]
    rcases h.advance_cases with ⟨l, hl⟩ | hfinish
    · have hpending := e.pending_advance
      rw [if_neg hl.ne_finish] at hpending
      rw [remaining_of_ne hl.ne_finish, hl.passes.script, List.countP_cons, hl.ends,
        List.singleton_append, List.countP_cons]
      exact congrArg (· + _) (ih _ (by omega) hl.passes.ready rfl)
    · rw [remaining_of_finish hfinish.kind, hfinish.script]
      simp [hfinish.kind, TokenKind.endsStatement]

omit [Arithmetic α] in
/-- Where no token was looked at beyond the current one, all that is to come is unread. -/
theorem Ready.pending_eq {e : Evaluation α} (h : e.Ready) :
    e.pending = e.stream.rest.length + e.stream.source.unread := by
  have hlookahead : e.stream.lookahead = none := h
  simp only [pending, TokenStream.pending, hlookahead, Nat.add_zero]

/-- A statement leaves less to be read. -/
theorem Ready.unread_statement_lt {e e' : Evaluation α} (h : e.Ready) {statement : Statement α}
    (hs : e.statement = (some statement, e')) :
    e'.stream.rest.length + e'.stream.source.unread <
      e.stream.rest.length + e.stream.source.unread := by
  have hready := h.statement
  rw [hs] at hready
  rw [← hready.pending_eq, ← h.pending_eq]
  exact pending_statement_lt hs

/-- A statement takes a token that ends none. -/
theorem Ready.openTokens_statement_lt {e : Evaluation α} (h : e.Ready) {statement : Statement α}
    (hs : e.statement.1 = some statement) : e.statement.2.openTokens < e.openTokens := by
  have hk : e.toStatement.current.kind ≠ .finish := by
    intro hk
    rw [statement_of_finish hk] at hs
    cases hs
  -- the script is the separators in front, the statement's own lexemes and what follows them
  obtain ⟨gap, run, stop, hscans⟩ := h.exists_scans hk
  have hrun : 0 < run.countP fun l => !l.1.ends := by
    obtain ⟨l, hl⟩ := List.exists_mem_of_ne_nil run hscans.ne_nil
    exact List.countP_pos_iff.2 ⟨l, hl, by simp [hscans.run_goes_on l hl]⟩
  rw [h.statement.openTokens_eq, h.openTokens_eq, hscans.script]
  simp only [List.countP_append]
  omega

end Evaluation

/-! ## The loops -/

/-- The calls that the loops over the statements of an input consist of: every round calls the next
one. -/
inductive LoopCall (α : Type) where
  | evaluate (e : Evaluation α)
  | run (w : Writer) (e : Evaluation α)

namespace LoopCall

open Evaluation

abbrev Answer : LoopCall α → Type
  | .evaluate _ => List (Statement α) × Evaluation α
  | .run _ _ => Except String Unit × Writer × Evaluation α

abbrev ask (c : LoopCall α) : CallTree (LoopCall α) Answer c.Answer := CallTree.ask c

/-- What each call does: one statement, and the rounds behind it. -/
def tree : Procedures (LoopCall α) Answer
  | .evaluate e =>
    match e.statement with
    | (none, e₁) => pure ([], e₁)
    | (some statement, e₁) => do
      let (rest, e₂) ← ask (.evaluate e₁)
      pure (statement :: rest, e₂)
  | .run w e =>
    match e.statement with
    | (none, e₁) => pure (.ok (), w, e₁)
    | (some statement, e₁) =>
      match statement.print w with
      | (.ok (), w₁) => ask (.run w₁ e₁)
      | (.error message, w₁) => pure (.error message, w₁, e₁)

/-- What the calls come to. -/
def answer : (c : LoopCall α) → c.Answer
  | .evaluate e => e.statements
  | .run w e => e.run w

def input : LoopCall α → Evaluation α
  | .evaluate e | .run _ e => e

/-- The calls of a round come to what the loop does. -/
theorem outcome_tree (c : LoopCall α) : (tree c).outcome answer = c.answer := by
  cases c with
  | evaluate e =>
    show _ = e.statements
    -- either loop ends where there is no statement, and goes on where there is one
    rcases hs : e.statement with ⟨_ | statement, e₁⟩
    · rw [statements_of_none (by rw [hs])]
      simp only [tree, hs]
      rfl
    · have hsome : e.statement.1 = some statement := by rw [hs]
      rw [statements_of_some hsome]
      simp only [tree, hs]
      rfl
  | run w e =>
    show _ = e.run w
    rcases hs : e.statement with ⟨_ | statement, e₁⟩
    · rw [run_of_none (by rw [hs])]
      simp only [tree, hs]
      rfl
    · rcases hprint : statement.print w with ⟨message | _, w₁⟩
      · rw [run_of_failed (by rw [hs]) hprint]
        simp only [tree, hs, hprint]
        rfl
      · rw [run_of_some (by rw [hs]) hprint]
        simp only [tree, hs, hprint]
        rfl

/-- The next round starts where a statement ended. -/
theorem statement_of_mem {c c' : LoopCall α} (h : c' ∈ (tree c).calls answer) :
    ∃ statement, c.input.statement = (some statement, c'.input) := by
  cases c with
  | evaluate e =>
    rcases hs : e.statement with ⟨_ | statement, e₁⟩
    · simp [tree, hs] at h
    · obtain rfl : c' = .evaluate e₁ := by simpa [tree, hs] using h
      exact ⟨statement, hs⟩
  | run w e =>
    rcases hs : e.statement with ⟨_ | statement, e₁⟩
    · simp [tree, hs] at h
    -- a failed writer ends the loop, and makes no call
    · rcases hprint : statement.print w with ⟨message | _, w₁⟩
      · simp [tree, hs, hprint] at h
      · obtain rfl : c' = .run w₁ e₁ := by simpa [tree, hs, hprint] using h
        exact ⟨statement, hs⟩

/-- The loops come to an end, and there are no more rounds than tokens that end no statement. -/
theorem solved_loops : (tree (α := α)).Solved answer (fun c => c.input.Ready)
    fun c => c.input.openTokens where
  outcome c _ := outcome_tree c
  calls c hc c' h := by
    obtain ⟨statement, hs⟩ := statement_of_mem h
    have hsome : c.input.statement.1 = some statement := by rw [hs]
    -- the statement took a token that ends none, so fewer of these are left
    have hlt := hc.openTokens_statement_lt hsome
    have hready := hc.statement
    rw [hs] at hlt hready
    exact ⟨hready, hlt⟩

theorem perform_evaluate {e : Evaluation α} (h : e.Ready) (n : Nat) :
    tree.perform (e.openTokens + 1 + n) (.evaluate e) = some e.statements :=
  solved_loops.perform (c := .evaluate e) h (Nat.lt_add_right n (Nat.lt_succ_self _))

theorem perform_run (w : Writer) {e : Evaluation α} (h : e.Ready) (n : Nat) :
    tree.perform (e.openTokens + 1 + n) (.run w e) = some (e.run w) :=
  solved_loops.perform (c := .run w e) h (Nat.lt_add_right n (Nat.lt_succ_self _))

end LoopCall

namespace Evaluation

/-- There are no more statements than tokens that end none. -/
theorem Ready.length_statements_le {e : Evaluation α} (h : e.Ready) :
    e.statements.1.length ≤ e.openTokens := by
  -- each statement takes a token, so the induction is on the number of tokens
  induction hn : e.openTokens using Nat.strongRecOn generalizing e with
  | _ n ih =>
    cases hs : e.statement.1 with
    | none => rw [statements_of_none hs]; exact Nat.zero_le _
    | some statement =>
      have hlt := h.openTokens_statement_lt hs
      have hrest := ih _ (by omega) h.statement rfl
      rw [statements_of_some hs, List.length_cons]
      omega

end Evaluation

/-! ## The promise -/

/-- Reading makes progress and ends. What is said to end does so when calls are nested no deeper
than the given bound (`Procedures.perform`), and has the result that its function gives. The
evaluations may be any: their session need not be the one that their tokens were read in. -/
structure Progresses (α : Type) [Arithmetic α] : Prop where
  /-- Looking for a token ends. -/
  scan (t : TokenStream α) (s : Session α) (n : Nat) :
    ScanCall.tree.perform (t.rest.length + t.source.unread + t.source.lines.length + 4 + n)
      (.scan t s) = some (t.scan s)
  /-- Every production ends, whether it takes its first token itself or not, and so does a statement
  with the loops in front of it and behind it. -/
  parse (c : ParseCall α) (n : Nat) :
    ParseCall.tree.perform (10 * (c.input.ahead + 1) + n) c = some c.answer
  /-- A production that takes its first token itself consumes the current one, unless this ends the
  statement. -/
  produce (l : Level) (e : Evaluation α) :
    e.current.kind.endsStatement = false →
      e.Consumes (ParseCall.answer (.produce l true e)).2
  /-- It does not end the statement where such a call comes out of another one, be it directly or
  through calls in between, unless that other one itself was made at the end of a statement. -/
  called (c : ParseCall α) (l : Level) (e : Evaluation α) :
    c.Cautious → ParseCall.tree.Involves ParseCall.answer c (.produce l true e) →
      e.current.kind.endsStatement = false
  /-- Each round of a sum consumes the operator that it starts with. -/
  sum (left left' : α) (e e' : Evaluation α) :
    .sum left' e' ∈ (ParseCall.tree (.sum left e)).calls ParseCall.answer → e.Consumes e'
  /-- So does each round of a product. -/
  product (left left' : α) (e e' : Evaluation α) :
    .product left' e' ∈ (ParseCall.tree (.product left e)).calls ParseCall.answer → e.Consumes e'
  /-- A statement leaves less to come. -/
  statement (e e' : Evaluation α) (found : Statement α) :
    e.statement = (some found, e') → e'.pending < e.pending
  /-- What is less is the input that was not read, unless a token was looked at in front of the
  statement already. -/
  unread (e e' : Evaluation α) (found : Statement α) :
    e.Ready → e.statement = (some found, e') →
      e'.stream.rest.length + e'.stream.source.unread <
        e.stream.rest.length + e.stream.source.unread
  /-- Evaluating a source ends, after no more statements than it has tokens that end none: each call
  that is nested in another one stands for a statement. -/
  evaluate (source : LineSource) (s : Session α) (n : Nat) :
    LoopCall.tree.perform ((s.start source).openTokens + 1 + n) (.evaluate (s.start source)) =
      some (s.start source).statements
  /-- So does running it. -/
  run (source : LineSource) (w : Writer) (s : Session α) (n : Nat) :
    LoopCall.tree.perform ((s.start source).openTokens + 1 + n) (.run w (s.start source)) =
      some ((s.start source).run w)
  length_le (source : LineSource) (s : Session α) :
    (s.start source).statements.1.length ≤ (s.start source).openTokens

/-- Reading makes progress wherever it starts and whatever the stream holds. Looking for a token,
each production and the loops over the statements come to an end within the bounds that are stated;
tokens are used up between two calls of one production at one place, a statement takes a token, and
there are no more statements than tokens to take. -/
theorem reading_progresses (α : Type) [Arithmetic α] : Progresses α where
  scan t s n := ScanCall.solved_scan.perform trivial (by simp only [ScanCall.rank]; omega)
  parse c n := ParseCall.solved_parse.perform trivial (Nat.lt_of_lt_of_le c.rank_lt (by omega))
  produce l _ h := ParseCall.consumes_produce l h
  called _ _ _ hc h := hc.of_involves h rfl
  sum _ _ _ _ := ParseCall.consumes_sum
  product _ _ _ _ := ParseCall.consumes_product
  statement _ _ _ := Evaluation.pending_statement_lt
  unread _ _ _ h hs := h.unread_statement_lt hs
  evaluate source s := LoopCall.perform_evaluate (Evaluation.ready_start source s.resetLine)
  run source w s := LoopCall.perform_run w (Evaluation.ready_start source s.resetLine)
  length_le source s := (Evaluation.ready_start source s.resetLine).length_statements_le

end DeskCalc
