import DeskCalc.Proofs.Concatenation
import DeskCalc.Proofs.Quiet

/-!
# What a text depends on

Evaluating a text depends on its session through nothing but the bindings of the names in the text,
and through the random numbers to come. Other names, the order in which names were met, old reports
and where reports are shown make no difference.

* `identifiers` — the names in a text.
* `Session.SameOutcome` — a text comes to the same in two sessions: the same statements and the same
  new reports, and the sessions agree on the names of the text again.
* `Session.evaluate_of_bindings` — so it does in sessions that agree on the names of the text.
* `Session.evaluate_again` — and so it does when it is evaluated a second time, if it assigns
  nothing, draws no random number and does not ask for the last result.
* `Session.determined` — the two together.
-/

namespace DeskCalc

variable {α : Type} [Arithmetic α]

/-- The names in a text. -/
def identifiers (text : String) : List String :=
  (lexemes 1 text.toList).filterMap fun l => l.1.name?

namespace Session

open Evaluation

/-- A text comes to the same in both sessions: the same statements, the same reports in addition to
those that there were, and sessions that agree on the names of the text. They agree on the last
result if the text has an expression for a statement. -/
structure SameOutcome (text : String) (s s' : Session α) : Prop where
  statements : (s.evaluate text).1 = (s'.evaluate text).1
  reports : ∃ new, (s.evaluate text).2.reports = s.reports ++ new ∧
    (s'.evaluate text).2.reports = s'.reports ++ new
  binding : ∀ name ∈ identifiers text,
    (s.evaluate text).2.table.binding name = (s'.evaluate text).2.table.binding name
  last : (∃ value, .expression value ∈ (s.evaluate text).1) →
    (s.evaluate text).2.table.binding SymbolTable.last =
      (s'.evaluate text).2.table.binding SymbolTable.last
  draws : (s.evaluate text).2.draws.Same (s'.evaluate text).2.draws

variable {s s' : Session α} {text : String}

/-- Where a text starts, sessions that agree on its names correspond. -/
theorem corresponds_start (h : s.table.Reachable) (h' : s'.table.Reachable)
    (hdraws : s.draws.Same s'.draws)
    (hbinding : ∀ name ∈ identifiers text, s.table.binding name = s'.table.binding name) :
    (s.start (.ofText text)).Corresponds (· ∈ identifiers text) s.reports s'.reports
      (s'.start (.ofText text)) where
  settled := settled_start _ _
  settled' := settled_start _ _
  -- nothing has been reported since the start, by either of them
  session := ⟨h, h', hbinding, hdraws, rfl, [], (List.append_nil _).symm, (List.append_nil _).symm⟩
  token := corresponds_bare _ _ _ _ _
  pending := rfl
  text := ⟨text.toList, holds_start text _, holds_start text _, 1, fun l hl _ hname =>
    List.mem_filterMap.2 ⟨l, hl, hname⟩⟩

/-- Sessions that agree on a text's names and have the same draws evaluate it to the same
outcome. -/
theorem evaluate_of_bindings (h : s.table.Reachable) (h' : s'.table.Reachable)
    (hdraws : s.draws.Same s'.draws)
    (hbinding : ∀ name ∈ identifiers text, s.table.binding name = s'.table.binding name) :
    s.SameOutcome text s' := by
  obtain ⟨hstatements, hsession, hlast⟩ := (corresponds_start h h' hdraws hbinding).statements
  exact ⟨hstatements, hsession.reports, hsession.binding, hlast, hsession.draws⟩

/-- A text that assigns nothing, draws nothing and does not ask for the last result evaluates to the
same once more. -/
theorem evaluate_again (h : s.table.Reachable) (hequals : '=' ∉ text.toList)
    (hrand : SymbolTable.rand ∉ identifiers text) (hlast : SymbolTable.last ∉ identifiers text) :
    s.SameOutcome text (s.evaluate text).2 := by
  have hquiet : (s.start (.ofText text)).Quiet := by
    refine ⟨⟨text.toList, holds_start text _, 1, fun l hl => ?_⟩, h,
      (by decide : TokenKind.endOfStatement.Quiet)⟩
    exact quiet_of_mem_lexemes hequals hl fun hname =>
      hrand (List.mem_filterMap.2 ⟨l, hl, hname⟩)
  -- nothing but `last` is bound on the way, and the text does not name it
  have hkeeps := hquiet.keeps_statements
  have hreachable : (s.evaluate text).2.table.Reachable :=
    (corresponds_start h h (.refl _) fun _ _ => rfl).statements.2.1.reachable
  refine evaluate_of_bindings h hreachable ?_ fun name hname => ?_
  · rw [show (s.evaluate text).2.draws = s.draws from hkeeps.draws]
    exact .refl _
  · exact (hkeeps.binding name fun heq => hlast (heq ▸ hname)).symm

/-- A text comes to the same in sessions that agree on its names. It comes to the same again if it
assigns nothing, draws no random number and does not ask for the last result. -/
theorem determined (h : s.table.Reachable) (h' : s'.table.Reachable)
    (hdraws : s.draws.Same s'.draws)
    (hbinding : ∀ name ∈ identifiers text, s.table.binding name = s'.table.binding name) :
    s.SameOutcome text s' ∧
      ('=' ∉ text.toList → SymbolTable.rand ∉ identifiers text →
        SymbolTable.last ∉ identifiers text → s.SameOutcome text (s.evaluate text).2) :=
  ⟨evaluate_of_bindings h h' hdraws hbinding, evaluate_again h⟩

/-- A session that has met a name already, and one that has not. -/
theorem determined_met :
    ∃ s s' : Session Float, s.table.Reachable ∧ s'.table.Reachable ∧ s.draws.Same s'.draws ∧
      s.table.size < s'.table.size ∧ identifiers "x^sin(y)" = ["x", "sin", "y"] ∧
      s.SameOutcome "x^sin(y)" s' ∧ s.SameOutcome "x^sin(y)" (s.evaluate "x^sin(y)").2 := by
  have hidentifiers : identifiers "x^sin(y)" = ["x", "sin", "y"] := by decide +kernel
  let s : Session Float := .new "hoc" .silent (Double.draws 0)
  let s' : Session Float := (s.intern "y").2
  -- `y` is new to the first session, so the second one's table is larger
  have hnone : s.table.indexOf? "y" = none := by
    simp [s, new, SymbolTable.indexOf?, SymbolTable.standard, SymbolTable.ofList,
      SymbolTable.standardBindings, SymbolTable.constants, SymbolTable.functions, SymbolTable.last]
  have hsize : s'.table.size = s.table.size + 1 := by
    rw [← SymbolTable.length_faces, ← SymbolTable.length_faces]
    show (s.table.intern "y").2.faces.length = _
    rw [SymbolTable.faces_intern, hnone]
    simp
  obtain ⟨hsame, hagain⟩ : s.SameOutcome "x^sin(y)" s' ∧ _ :=
    determined .standard (.intern "y" .standard) (.refl _) fun _ _ =>
      (SymbolTable.binding_intern _ _ _).symm
  refine ⟨s, s', .standard, .intern "y" .standard, .refl _, ?_, hidentifiers, hsame,
    hagain (by decide) ?_ ?_⟩
  · rw [hsize]
    exact Nat.lt_succ_self _
  · rw [hidentifiers]
    decide
  · rw [hidentifiers]
    decide

end Session

end DeskCalc
