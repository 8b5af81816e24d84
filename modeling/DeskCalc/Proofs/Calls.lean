import DeskCalc.Proofs.Encoding
import DeskCalc.Proofs.Lexing
import DeskCalc.Proofs.Reports
import Mathlib.Data.List.Induction

/-!
# Reading a text by calls

Whoever reads an input takes the next token, looks at it or asks for the current one, in any order.
The answers are those that the lexemes of the whole text give: neither the lines of the source nor
looking ahead makes a difference, and looking ahead reads one lexeme early, once.

* `Lexeme.token`, `SymbolTable.tokenAt` — the tokens of a text, by its lexemes and the names in
  front of them.
* `Session.Recites` — what reading lexemes does to a session.
* `Evaluation.Holds.iterate_advance` — taking tokens one after another.
* `Call`, `Evaluation.asked_eq` — whatever the calls were, they took so many tokens and perhaps
  looked at one more.
* `answers_by_lexemes` — the answers to all calls.
-/

namespace DeskCalc

variable {α : Type}

/-! ## The tokens of a text -/

namespace Lexeme

/-- The name that the lexeme brings into the table. -/
def name? : Lexeme → Option String
  | .name chars => some (String.ofList chars)
  | _ => none

/-- What is wrong with the lexeme: it is no token, or a numeral without a value. -/
def problem? : Lexeme → Option Problem
  | .stray c => some (.badToken c)
  | .number n => if n.value?.isNone then some (.badNumber (String.ofList n.chars)) else none
  | _ => none

/-- The token of the lexeme, given the table that the names in front of it have made. A name that is
not in the table yet comes behind all others. -/
def token [Arithmetic α] (t : SymbolTable α) (line : Nat) : Lexeme → Token α
  | .newline | .stray _ => .bare .endOfStatement line
  | .mark kind => .bare kind line
  | .number n =>
    match n.value? with
    | some (m, e) => ⟨.number, .number (Arithmetic.ofDecimal m e), line⟩
    | none => .bare .endOfStatement line
  | .name chars =>
    let name := String.ofList chars
    ⟨.ofArity? ((t.lookup name).bind Binding.arity?), .symbol ((t.indexOf? name).getD t.size), line⟩

end Lexeme

/-- The problems of lexemes, each with the line of its lexeme. -/
def lexicalReports (ls : List (Lexeme × Nat)) : List Report :=
  ls.filterMap fun l => l.1.problem?.map fun problem => ⟨l.2, problem⟩

namespace SymbolTable

/-- The table with the names of lexemes added in order. -/
def withNames (t : SymbolTable α) (ls : List (Lexeme × Nat)) : SymbolTable α :=
  (ls.filterMap fun l => l.1.name?).foldl (fun t name => (t.intern name).2) t

/-- The token at a place in a text with the given lexemes. Behind them there is the end of the
input, on the last line. -/
def tokenAt [Arithmetic α] (t : SymbolTable α) (ls : List (Lexeme × Nat)) (lastLine i : Nat) :
    Token α :=
  match ls[i]? with
  | some (l, line) => l.token (t.withNames (ls.take i)) line
  | none => .bare .finish lastLine

theorem withNames_append (t : SymbolTable α) (ls ls' : List (Lexeme × Nat)) :
    t.withNames (ls ++ ls') = (t.withNames ls).withNames ls' := by
  simp [withNames, List.filterMap_append, List.foldl_append]

theorem withNames_cons (t : SymbolTable α) (l : Lexeme × Nat) (ls : List (Lexeme × Nat)) :
    t.withNames (l :: ls) = (t.withNames [l]).withNames ls :=
  t.withNames_append [l] ls

/-- A token behind the first one is that of the rest, with the first name added. -/
theorem tokenAt_cons [Arithmetic α] (t : SymbolTable α) (l : Lexeme × Nat)
    (ls : List (Lexeme × Nat)) (lastLine i : Nat) :
    t.tokenAt (l :: ls) lastLine (i + 1) = (t.withNames [l]).tokenAt ls lastLine i := by
  rw [tokenAt, tokenAt, List.getElem?_cons_succ, List.take_succ_cons, withNames_cons]

/-- What a name is bound to stands at the place of the name. -/
theorem lookup_eq (t : SymbolTable α) (name : String) :
    t.lookup name = (t.indexOf? name).bind fun index => (t.get index).toOption := by
  cases hi : t.indexOf? name with
  | none =>
    have hno := Array.findIdx?_eq_none_iff.1 hi
    rw [lookup, Array.find?_eq_none.2 fun e he => by simp [hno e he]]
    rfl
  -- the place is that of the first entry with the name, and that entry is looked up
  | some index =>
    obtain ⟨hlt, hname, hfirst⟩ := Array.findIdx?_eq_some_iff_getElem.1 hi
    have hfind : t.entries.find? (·.name == name) = some t.entries[index] :=
      Array.find?_eq_some_iff_getElem.2 ⟨hname, index, hlt, rfl, fun j hj => by
        simpa using hfirst j hj⟩
    simp [lookup, hfind, get, entry, hlt, Except.map, Except.toOption]

/-- Adding a name leaves what it is bound to, and binds a new one to no function. -/
theorem lookup_intern (t : SymbolTable α) (name : String) :
    ((t.intern name).2.get (t.intern name).1).toOption.bind Binding.arity? =
      (t.lookup name).bind Binding.arity? := by
  rw [lookup_eq]
  unfold intern
  cases hi : t.indexOf? name with
  | some index => rfl
  | none => simp [get, entry, Except.map, Except.toOption, Binding.arity?]

end SymbolTable

/-! ## Reading lexemes in a session -/

namespace Session

/-- Reading the lexemes leads from one session to the other: their names have places now, and what
is wrong with them was reported. -/
structure Recites (s : Session α) (ls : List (Lexeme × Nat)) (s' : Session α) : Prop where
  table : s'.table = s.table.withNames ls
  reports : s'.log.history.toList = s.log.history.toList ++ lexicalReports ls
  draws : s'.draws = s.draws

theorem Recites.nil {s s' : Session α} (htable : s'.table = s.table)
    (hhistory : s'.log.history = s.log.history) (hdraws : s'.draws = s.draws) :
    s.Recites [] s' :=
  ⟨htable, by simp [lexicalReports, hhistory], hdraws⟩

/-- What is read in two parts is read together. -/
theorem Recites.append {s s' s'' : Session α} {ls ls' : List (Lexeme × Nat)} (h : s.Recites ls s')
    (h' : s'.Recites ls' s'') : s.Recites (ls ++ ls') s'' where
  table := by rw [h'.table, h.table, SymbolTable.withNames_append]
  reports := by
    rw [h'.reports, h.reports, lexicalReports, lexicalReports, lexicalReports,
      List.filterMap_append, List.append_assoc]
  draws := h'.draws.trans h.draws

variable [Arithmetic α]

/-- The token that is made of a lexeme is that of the lexeme. -/
theorem fst_token (l : Lexeme) (s : Session α) : (s.token l).1 = l.token s.table s.log.line := by
  cases l with
  | newline => rfl
  | mark kind => rfl
  | stray c => rfl
  | number n => cases hv : n.value? <;> simp [token, Lexeme.token, hv]
  -- the table gives the name its place before the token is made, which does not change its arity
  | name chars =>
    have hindex := s.table.fst_intern (String.ofList chars)
    have harity := s.table.lookup_intern (String.ofList chars)
    rw [hindex] at harity
    simp only [token, Lexeme.token, intern, hindex, harity]

/-- Making a token reads its lexeme. -/
theorem recites_token (l : Lexeme) (s : Session α) :
    s.Recites [(l, s.log.line)] (s.token l).2 := by
  cases l with
  | newline => exact ⟨rfl, by simp [token, lexicalReports, Lexeme.problem?], rfl⟩
  | mark kind => exact ⟨rfl, by simp [token, lexicalReports, Lexeme.problem?], rfl⟩
  | stray c => exact ⟨rfl, by simp [token, report, ErrorLog.report, lexicalReports,
      Lexeme.problem?], rfl⟩
  -- a numeral without a value is a report, and no name in either case
  | number n =>
    cases hv : n.value? <;>
      constructor <;> simp [token, report, ErrorLog.report, lexicalReports, Lexeme.problem?, hv,
        SymbolTable.withNames, Lexeme.name?]
  | name chars => exact ⟨rfl, by simp [token, intern, lexicalReports, Lexeme.problem?], rfl⟩

end Session

namespace Evaluation

variable [Arithmetic α] {behind : LineSource} {e : Evaluation α} {cs : List Char}

omit [Arithmetic α] in
/-- Counting a line reads nothing. -/
theorem recites_reading (e : Evaluation α) : e.session.Recites [] e.reading :=
  .nil e.eq_of_reading.1 e.eq_of_reading.2.2 e.eq_of_reading.2.1

/-- Taking tokens one after another reads the lexemes of the text one after another. -/
theorem Holds.iterate_advance (h : e.Holds behind cs) (hdrained : behind.Drained) (n : Nat) :
    e.session.Recites ((lexemes e.reading.log.line cs).take n) (advance^[n] e).session ∧
      (advance^[n] e).advance.current =
        e.session.table.tokenAt (lexemes e.reading.log.line cs) (e.lastLine cs) n ∧
      (advance^[n] e).Ready := by
  -- by induction on the number of tokens; behind the first one a shorter text is left, with a name
  -- more in the table
  induction n generalizing e cs with
  | zero =>
    refine ⟨.nil rfl rfl rfl, ?_, h.ready⟩
    rw [Function.iterate_zero_apply]
    cases hl : Lexeme.next? cs with
    | none =>
      rw [(h.advance_of_none hdrained hl).1, lexemes_of_none hl, lastLine,
        Lexeme.count_of_next?_none hl]
      rfl
    | some r =>
      rw [(h.advance_of_some hl).1, lexemes_of_some hl, Session.fst_token, e.eq_of_reading.1]
      rfl
  | succ n ih =>
    rw [Function.iterate_succ_apply]
    cases hl : Lexeme.next? cs with
    | none =>
      obtain ⟨-, hsession, hholds, hpending⟩ := h.advance_of_none hdrained hl
      obtain ⟨hrecites, hcurrent, hready⟩ := ih hholds
      -- there is nothing left, and the end of the input stays on its line
      have hlast : e.advance.lastLine [] = e.lastLine cs := by
        rw [← h.line_of_none hdrained hl, lastLine, reading_of_not_pending hpending]
        rfl
      rw [lexemes_of_none rfl] at hrecites hcurrent
      rw [lexemes_of_none hl]
      refine ⟨?_, ?_, hready⟩
      · rw [List.take_nil] at hrecites ⊢
        rw [hsession] at hrecites
        exact e.recites_reading.append hrecites
      · rw [hcurrent, hlast]
        rfl
    | some r =>
      obtain ⟨l, cs'⟩ := r
      obtain ⟨-, hsession, hholds, hpending⟩ := h.advance_of_some hl
      obtain ⟨hrecites, hcurrent, hready⟩ := ih hholds
      -- the first lexeme is read, and the others start on the line behind it
      have hfirst : e.session.Recites [(l, e.reading.log.line)] e.advance.session := by
        rw [hsession]
        exact e.recites_reading.append (Session.recites_token l e.reading)
      have hline : e.advance.reading.log.line =
          if l = .newline then e.reading.log.line + 1 else e.reading.log.line := by
        rw [reading_of_pending hpending, hsession, line_token]
        by_cases hn : l = .newline <;> simp [hn]
      rw [hline] at hrecites hcurrent
      rw [lexemes_of_some hl]
      refine ⟨hfirst.append hrecites, ?_, hready⟩
      rw [hcurrent, hfirst.table, h.lastLine_of_some hl, SymbolTable.tokenAt_cons]

/-! ## Calls -/

end Evaluation

/-- What a reader of tokens can ask for. -/
inductive Call where
  /-- The next token, without taking it. -/
  | next
  /-- The next token, which is taken and becomes the current one. -/
  | get
  /-- The token taken last. -/
  | current
  deriving DecidableEq

namespace Call

/-- How many tokens the calls take. -/
def taken (calls : List Call) : Nat := calls.count .get

/-- Do the calls look at a token that they do not take? -/
def look (calls : List Call) : Bool := (calls.reverse.takeWhile (· ≠ .get)).contains .next

/-- How many lexemes have to be read for the calls. -/
def read (calls : List Call) : Nat := taken calls + if look calls then 1 else 0

theorem taken_append (calls : List Call) (call : Call) :
    taken (calls ++ [call]) = taken calls + if call = .get then 1 else 0 := by
  cases call <;> simp [taken]

/-- A token is looked at until one is taken. -/
theorem look_append (calls : List Call) (call : Call) :
    look (calls ++ [call]) =
      match call with
      | .next => true
      | .get => false
      | .current => look calls := by
  cases call <;> simp [look]

end Call

namespace Evaluation

variable [Arithmetic α]

/-- The answer to a call, and what the call does to the evaluation. -/
def answer (call : Call) (e : Evaluation α) : Token α × Evaluation α :=
  match call with
  | .next => e.peek
  | .get => (e.advance.current, e.advance)
  | .current => (e.current, e)

/-- The evaluation behind some calls. -/
def asked (calls : List Call) (e : Evaluation α) : Evaluation α :=
  calls.foldl (fun e call => (e.answer call).2) e

/-- Looking at a token that was looked at does nothing. -/
theorem peek_peek (e : Evaluation α) : e.peek.2.peek = e.peek := by
  obtain ⟨t, s⟩ := e
  unfold peek TokenStream.peek
  cases hl : t.lookahead with
  | some token => simp [hl]
  | none => simp

/-- Whatever the calls were, they took so many tokens, and perhaps looked at the next one. -/
theorem asked_eq (calls : List Call) (e : Evaluation α) :
    e.asked calls = if Call.look calls then (advance^[Call.taken calls] e).peek.2
      else advance^[Call.taken calls] e := by
  -- one more call at the end either takes the token that was looked at, or looks at it, or does
  -- nothing
  induction calls using List.reverseRecOn with
  | nil => rfl
  | append_singleton calls call ih =>
    have hcall : e.asked (calls ++ [call]) = ((e.asked calls).answer call).2 := by
      simp [asked, List.foldl_append]
    rw [hcall, ih, Call.look_append, Call.taken_append]
    cases call with
    | next =>
      cases Call.look calls
      · rfl
      · exact congrArg Prod.snd (peek_peek _)
    | get =>
      simp only [answer, if_true, Bool.false_eq_true, if_false, Function.iterate_succ_apply']
      split
      · exact advance_peek _
      · rfl
    | current => rfl

end Evaluation

/-! ## The answers -/

open Evaluation

/-- What there is to know of an input behind some calls: the answer to each call that could come
next, and what was done to the session. -/
structure Answers [Arithmetic α] (session : Session α) (ls : List (Lexeme × Nat)) (lastLine : Nat)
    (calls : List Call) (e : Evaluation α) : Prop where
  next : (e.answer .next).1 = session.table.tokenAt ls lastLine (Call.taken calls)
  get : (e.answer .get).1 = session.table.tokenAt ls lastLine (Call.taken calls)
  current : (e.answer .current).1 =
    if Call.taken calls = 0 then .bare .endOfStatement 1
    else session.table.tokenAt ls lastLine (Call.taken calls - 1)
  session : session.Recites (ls.take (Call.read calls)) e.session

/-- The answers do not depend on how the source hands out the text. -/
theorem answers_of_contains [Arithmetic α] {source : LineSource} {text : String}
    (h : source.Contains text) (session : Session α) (calls : List Call) :
    Answers session (lexemes session.log.line text.toList)
      (session.log.line + text.toList.count '\n') calls ((start source session).asked calls) := by
  obtain ⟨behind, hdrained, hsource⟩ := h.holds
  have hholds : (start source session).Holds behind text.toList :=
    ⟨rfl, hsource, fun h => by cases h⟩
  have hiterate := hholds.iterate_advance hdrained
  have hnext : (advance^[Call.taken calls] (start source session)).peek.1 = session.table.tokenAt
      (lexemes session.log.line text.toList) (session.log.line + text.toList.count '\n')
      (Call.taken calls) := by
    rw [fst_peek]
    exact (hiterate (Call.taken calls)).2.1
  have hcurrent : (advance^[Call.taken calls] (start source session)).current =
      if Call.taken calls = 0 then .bare .endOfStatement 1
      else session.table.tokenAt (lexemes session.log.line text.toList)
        (session.log.line + text.toList.count '\n') (Call.taken calls - 1) := by
    cases htaken : Call.taken calls with
    | zero => rfl
    | succ n =>
      rw [Function.iterate_succ_apply']
      exact (hiterate n).2.1
  -- the calls come to so many tokens taken, and perhaps one more looked at
  rw [asked_eq]
  cases hlook : Call.look calls with
  | false =>
    refine ⟨hnext, (fst_peek _).symm.trans hnext, hcurrent, ?_⟩
    rw [Call.read, hlook]
    exact (hiterate _).1
  -- the token looked at was read once, and is the next one for all calls
  | true =>
    refine ⟨?_, ?_, ?_, ?_⟩
    · exact (congrArg Prod.fst (peek_peek _)).trans hnext
    · show (Evaluation.peek _).2.advance.current = _
      rw [advance_peek, ← fst_peek]
      exact hnext
    · exact (current_peek _).trans hcurrent
    · show session.Recites _ (Evaluation.peek _).2.session
      rw [Call.read, hlook, session_peek, ← Function.iterate_succ_apply' advance]
      exact (hiterate _).1

/-- A text has one list of lexemes, and whatever calls are made on the text or on its bytes, the
answers are the tokens of these lexemes in order and then the end of the input, and the session has
seen the lexemes that were taken and the one that was looked at, each once. -/
theorem answers_by_lexemes [Arithmetic α] (text : String) (session : Session α) :
    ∃ ls, (∀ ls', Lexes session.log.line text.toList ls' ↔ ls' = ls) ∧
      ∀ calls,
        Answers session ls (session.log.line + text.toList.count '\n') calls
          ((start (.ofText text) session).asked calls) ∧
        Answers session ls (session.log.line + text.toList.count '\n') calls
          ((start (.ofBytes text.toUTF8) session).asked calls) :=
  ⟨lexemes session.log.line text.toList, fun _ => lexes_iff, fun calls =>
    ⟨answers_of_contains (LineSource.contains_ofText text) session calls,
      answers_of_contains (LineSource.contains_ofBytes text) session calls⟩⟩

end DeskCalc
