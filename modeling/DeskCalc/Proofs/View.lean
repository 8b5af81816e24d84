import DeskCalc.Statement
import Mathlib.Logic.Function.Iterate

/-!
# What reading depends on

Tokens are read while earlier ones are evaluated, out of a session that the evaluation changes. This
module shows that the two do not get in each other's way: reading sees of a session only its *view*,
and evaluating leaves the view alone.

* `SymbolTable.faces` — what reading sees of the table: every name, and the arity of the function
  that it names, if it does. Assigning changes no face (`faces_assign`).
* `Session.view`, `Evaluation.view` — the line, the faces and the problems of reading so far;
  of an evaluation also its token stream.
* `view_advance` — taking a token is a function of the view.
* `view_fail`, `view_operate`, `view_assign` and their like — what an evaluation does besides keeps
  the view.
-/

namespace DeskCalc

variable {α : Type}

/-! ## Faces of symbols -/

namespace SymbolTable

/-- What reading sees of a table: names and the arities of functions, in order. -/
def faces (t : SymbolTable α) : List (String × Option Nat) :=
  t.entries.toList.map fun e => (e.name, e.binding.arity?)

theorem length_faces (t : SymbolTable α) : t.faces.length = t.size := by
  simp [faces, size]

/-- Looking up a name asks for the names alone, so the faces answer it. -/
theorem indexOf?_eq_findIdx? (t : SymbolTable α) (name : String) :
    t.indexOf? name = t.faces.findIdx? (·.1 == name) := by
  rw [indexOf?, faces, List.findIdx?_map, ← List.findIdx?_toArray]
  rfl

/-- The arity that a token is given is the one in the face. -/
theorem arity?_get (t : SymbolTable α) (index : Nat) :
    (t.get index).toOption.bind Binding.arity? = (t.faces[index]?).bind (·.2) := by
  simp only [get, entry, faces, List.getElem?_map, Array.getElem?_toList]
  cases t.entries[index]? with
  | none => rfl
  | some e => rfl

/-- A new name is no function, and its face comes behind all others. -/
theorem faces_intern (t : SymbolTable α) (name : String) :
    (t.intern name).2.faces =
      if (t.indexOf? name).isSome then t.faces else t.faces ++ [(name, none)] := by
  unfold intern
  cases t.indexOf? name with
  | some index => rfl
  | none => simp [faces, Binding.arity?]

/-- A new name is given the next place, an old one keeps its own. -/
theorem fst_intern (t : SymbolTable α) (name : String) :
    (t.intern name).1 = (t.indexOf? name).getD t.size := by
  unfold intern
  cases t.indexOf? name with
  | some index => rfl
  | none => rfl

/-- Tables with the same faces give a name the same place, and have the same faces then. -/
theorem intern_congr {t t' : SymbolTable α} (h : t.faces = t'.faces) (name : String) :
    (t.intern name).1 = (t'.intern name).1 ∧
      (t.intern name).2.faces = (t'.intern name).2.faces := by
  -- interning looks at the names and the number of symbols, both of which the faces have
  have hindex : t.indexOf? name = t'.indexOf? name := by
    rw [indexOf?_eq_findIdx?, indexOf?_eq_findIdx?, h]
  have hsize : t.size = t'.size := by
    rw [← length_faces, ← length_faces, h]
  constructor
  · rw [fst_intern, fst_intern, hindex, hsize]
  · rw [faces_intern, faces_intern, hindex, h]

/-- Assigning changes no face: what can be assigned is no function, before and after. -/
theorem faces_assign {t t' : SymbolTable α} {index : Nat} {value : α}
    (h : t.assign index value = .ok t') : t'.faces = t.faces := by
  unfold assign entry at h
  cases he : t.entries[index]? with
  | none => simp [he] at h
  | some e =>
    simp only [he] at h
    split at h
    · next hmut =>
      cases h
      -- place by place: only the one that is assigned could differ
      apply List.ext_getElem?
      intro i
      -- what can be assigned is no function, so its face has no arity, neither before nor after
      have hface : e.binding.arity? = none := by
        cases hb : e.binding <;> simp_all [Binding.isMutable, Binding.arity?]
      simp only [faces, List.getElem?_map, Array.getElem?_toList, Array.getElem?_setIfInBounds]
      by_cases hi : index = i
      · subst hi
        have hlt : index < t.entries.size := (Array.getElem?_eq_some_iff.1 he).1
        rw [if_pos rfl, if_pos hlt, he]
        simp only [Option.map_some, hface]
        rfl
      · simp [hi]
    · simp at h

end SymbolTable

/-! ## The view of a session -/

/-- Does the kind of problems come up while the input is read? -/
def ProblemKind.ofReading : ProblemKind → Bool
  | .lexical | .input => true
  | .syntactic | .semantic | .math => false

/-- No problem comes up both in reading and in evaluating. -/
theorem Problem.ofReading_of_ofEvaluation {problem : Problem} (h : problem.ofEvaluation = true) :
    problem.kind.ofReading = false := by
  cases problem <;> first | rfl | cases h

/-- Is it a report of a problem of reading? -/
def Report.ofReading (r : Report) : Bool := r.kind.ofReading

/-- What reading sees of a session, and what it reports. -/
structure Session.View where
  line : Nat
  faces : List (String × Option Nat)
  /-- The reports of problems of reading, oldest first. -/
  reports : List Report

namespace Session

/-- The view of a session. -/
def view (s : Session α) : View :=
  ⟨s.log.line, s.table.faces, s.log.history.toList.filter Report.ofReading⟩

theorem view_nextLine {s s' : Session α} (h : s.view = s'.view) :
    s.nextLine.view = s'.nextLine.view := by
  simp only [view, View.mk.injEq] at h
  obtain ⟨hline, hfaces, hreports⟩ := h
  simp [view, nextLine, ErrorLog.nextLine, hline, hfaces, hreports]

/-- Sessions that look the same look the same after the same report. -/
theorem view_report_congr {s s' : Session α} (h : s.view = s'.view) (problem : Problem) :
    (s.report problem).view = (s'.report problem).view := by
  simp only [view, View.mk.injEq] at h
  obtain ⟨hline, hfaces, hreports⟩ := h
  simp [view, report, ErrorLog.report, List.filter_append, hline, hfaces, hreports]

/-- A problem of what was read does not show in the view. -/
theorem view_report (problem : Problem) (s : Session α) (h : problem.kind.ofReading = false) :
    (s.report problem).view = s.view := by
  simp [view, report, ErrorLog.report, List.filter_append, Report.ofReading, Report.kind, h]

/-- Assigning changes values only, and reading sees none. -/
theorem view_assign {s s' : Session α} {index : Nat} {value : α}
    (h : s.assign index value = .ok s') : s'.view = s.view := by
  unfold assign at h
  cases ht : s.table.assign index value with
  | error error => simp [ht, Except.map] at h
  | ok table =>
    simp only [ht, Except.map, Except.ok.injEq] at h
    subst h
    simp [view, SymbolTable.faces_assign ht]

/-- Sessions that look the same give a name the same place. -/
theorem intern_view_congr {s s' : Session α} (h : s.view = s'.view) (name : String) :
    (s.intern name).1 = (s'.intern name).1 ∧
      (s.intern name).2.view = (s'.intern name).2.view := by
  simp only [view, View.mk.injEq] at h
  obtain ⟨hline, hfaces, hreports⟩ := h
  obtain ⟨hindex, hfaces'⟩ := SymbolTable.intern_congr hfaces name
  exact ⟨hindex, by simp [view, intern, hline, hfaces', hreports]⟩

variable [Arithmetic α]

/-- Sessions that look the same make the same token of a lexeme. -/
theorem token_congr {s s' : Session α} (h : s.view = s'.view) (l : Lexeme) :
    (s.token l).1 = (s'.token l).1 ∧ (s.token l).2.view = (s'.token l).2.view := by
  have hline : s.log.line = s'.log.line := congrArg View.line h
  cases l with
  | newline => exact ⟨by simp [token, hline], h⟩
  | mark kind => exact ⟨by simp [token, hline], h⟩
  | stray c => exact ⟨by simp [token, hline], view_report_congr h _⟩
  | number n =>
    cases hv : n.value? with
    | none => exact ⟨by simp [token, hv, hline], by simpa [token, hv] using view_report_congr h _⟩
    | some v => exact ⟨by simp [token, hv, hline], by simpa [token, hv] using h⟩
  -- the kind of a name depends on the face at its place, which is the same in both
  | name chars =>
    obtain ⟨hindex, hview⟩ := intern_view_congr h (String.ofList chars)
    have hfaces := congrArg View.faces hview
    refine ⟨?_, hview⟩
    simp only [view] at hfaces
    simp only [token, SymbolTable.arity?_get, hindex, hfaces, hline]

end Session

/-! ## The view of an evaluation -/

/-- What the next tokens of an evaluation depend on. -/
structure Evaluation.View (α : Type) where
  stream : TokenStream α
  session : Session.View

namespace TokenStream

variable [Arithmetic α]

/-- Reading a token off a stream is a function of the view. -/
theorem scan_congr (t : TokenStream α) {s s' : Session α} (h : s.view = s'.view) :
    (t.scan s).1 = (t.scan s').1 ∧ (t.scan s).2.1 = (t.scan s').2.1 ∧
      (t.scan s).2.2.view = (t.scan s').2.2.view := by
  have hnext : (if t.newlinePending then s.nextLine else s).view =
      (if t.newlinePending then s'.nextLine else s').view := by
    split
    · exact Session.view_nextLine h
    · exact h
  unfold scan
  simp only
  -- whether a line is counted first does not matter any more
  generalize (if t.newlinePending then s.nextLine else s) = r at hnext
  generalize (if t.newlinePending then s'.nextLine else s') = r' at hnext
  -- the source is part of the stream, so only the line and the faces can make a difference
  have hline : r.log.line = r'.log.line := congrArg Session.View.line hnext
  split
  · exact ⟨by simp only [hline], rfl, hnext⟩
  · split
    · next l rest source _ =>
      obtain ⟨htoken, hview⟩ := Session.token_congr hnext l
      exact ⟨htoken, rfl, hview⟩
    · exact ⟨by simp only [hline], rfl, hnext⟩
    · exact ⟨by simp only [hline], rfl, Session.view_report_congr hnext _⟩

end TokenStream

namespace Evaluation

/-- The view of an evaluation. -/
def view (e : Evaluation α) : View α := ⟨e.stream, e.session.view⟩

/-- The stream is all there in the view, so the current token is. -/
theorem current_of_view {e e' : Evaluation α} (h : e.view = e'.view) : e.current = e'.current :=
  congrArg (fun v => v.stream.current) h

variable [Arithmetic α]

/-- Taking a token is a function of the view. -/
theorem view_advance {e e' : Evaluation α} (h : e.view = e'.view) :
    e.advance.view = e'.advance.view := by
  obtain ⟨t, s⟩ := e
  obtain ⟨t', s'⟩ := e'
  simp only [view, View.mk.injEq] at h
  -- the streams are equal, and the sessions look the same
  obtain ⟨rfl, hs⟩ := h
  unfold advance TokenStream.advance
  simp only
  cases t.lookahead with
  | some token => simp [view, hs]
  | none =>
    obtain ⟨htoken, hstream, hview⟩ := t.scan_congr hs
    simp [view, htoken, hstream, hview]

/-- Every number of tokens taken is a function of the view. -/
theorem view_iterate_advance {e e' : Evaluation α} (h : e.view = e'.view) (n : Nat) :
    (advance^[n] e).view = (advance^[n] e').view := by
  -- both move on by one token, to evaluations that look the same again
  induction n generalizing e e' with
  | zero => exact h
  | succ n ih => exact ih (view_advance h)

/-- Looking at a token first makes no difference to taking it. -/
theorem advance_peek (e : Evaluation α) : e.peek.2.advance = e.advance := by
  obtain ⟨t, s⟩ := e
  unfold peek TokenStream.peek
  cases hl : t.lookahead with
  | some token => rfl
  | none =>
    -- what was read ahead is handed out by taking it, and is forgotten then
    have hscan : (t.scan s).2.1.lookahead = none := by rw [TokenStream.lookahead_scan, hl]
    simp only [advance, TokenStream.advance, hl]
    congr 1
    rw [← hscan]

/-- The token that is looked at is the one that is taken next. -/
theorem fst_peek (e : Evaluation α) : e.peek.1 = e.advance.current := by
  obtain ⟨t, s⟩ := e
  unfold peek TokenStream.peek
  cases hl : t.lookahead with
  | some token => simp [advance, TokenStream.advance, hl, current]
  | none => simp [advance, TokenStream.advance, hl, current]

/-- Looking at the next token does to the session what taking it would do. -/
theorem session_peek (e : Evaluation α) : e.peek.2.session = e.advance.session := by
  obtain ⟨t, s⟩ := e
  unfold peek TokenStream.peek advance TokenStream.advance
  cases hl : t.lookahead <;> rfl

/-! ## Evaluating keeps the view -/

/-- A failure of what was read reports a problem that reading does not see. -/
theorem view_fail (problem : Problem) (e : Evaluation α)
    (h : problem.kind.ofReading = false := by rfl) : (e.fail problem).2.view = e.view := by
  simp [fail, view, report, Session.view_report _ _ h]

/-- A check fails or does nothing. -/
theorem view_checked (result : Except MathError α) (e : Evaluation α) :
    (e.checked result).2.view = e.view := by
  cases result with
  | ok value => rfl
  | error error => exact view_fail _ e

/-- Dividing by zero is all that an operation can report. -/
theorem view_operate (op : Operator) (left right : α) (e : Evaluation α) :
    (e.operate op left right).2.view = e.view := by
  unfold operate
  -- nothing is read, and a failure is no problem of reading
  split
  · rfl
  · rfl
  · rfl
  · split
    · exact view_fail _ e
    · rfl
  · split
    · exact view_fail _ e
    · rfl

/-- Reading a value reports at most that there is none. -/
theorem view_read (index : Nat) (e : Evaluation α) : (e.read index).2.view = e.view := by
  unfold read
  split
  · exact view_fail _ e
  · split
    · rfl
    · rfl
    · exact view_fail _ e
    · exact view_fail _ e

/-- Assigning keeps the view, and so does refusing to. -/
theorem view_assign (index : Nat) (value : α) (e : Evaluation α) :
    (e.assign index value).2.view = e.view := by
  unfold assign
  split
  · next h => simp [view, Session.view_assign h]
  · exact view_fail _ e

/-- A call draws a random number or reports something, and reading sees neither. -/
theorem view_apply (index : Nat) (arguments : List α) (e : Evaluation α) :
    (e.apply index arguments).2.view = e.view := by
  unfold apply
  split
  · exact view_fail _ e
  · split
    · exact view_checked _ _
    · exact view_fail _ e

end Evaluation

end DeskCalc
