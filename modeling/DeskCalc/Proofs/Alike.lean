import DeskCalc.Proofs.Reports
import DeskCalc.Proofs.Simulation

/-!
# Sessions that are alike

Sessions with the same table and the same random numbers go on in the same way. It makes no
difference what was reported before, where reports are shown, and on which line the input is: the
lines of the reports to come are as far apart then as the sessions are.

* `Session.Alike` — two sessions that are alike, some number of lines apart. What happens to both of
  them keeps them so (`Alike.report`, `Alike.token`).
* `Comparison` — a relation between evaluations in sessions that are alike, given by how their
  streams compare.
* `Comparison.simulation` — such a relation is a simulation.
-/

namespace DeskCalc

/-- The report, some number of lines further. -/
def Report.later (k : Nat) (r : Report) : Report := ⟨r.line + k, r.problem⟩

/-- No lines further is where the reports are. -/
theorem Report.map_later_zero (rs : List Report) : rs.map (Report.later 0) = rs :=
  List.map_id rs

variable {α : Type} {k : Nat} {rs rs' : List Report}

/-- The second session is `k` lines further than the first one. Both had reports to start with, and
since then they have reported the same. -/
structure Session.Alike (k : Nat) (rs rs' : List Report) (s s' : Session α) : Prop where
  table : s'.table = s.table
  draws : s'.draws = s.draws
  line : s'.log.line = s.log.line + k
  reports : ∃ new, s.log.history.toList = rs ++ new ∧
    s'.log.history.toList = rs' ++ new.map (Report.later k)

namespace Session

variable {s s' : Session α}

/-- Where the comparison starts, all reports so far are old ones. -/
theorem Alike.start (s s' : Session α) (htable : s'.table = s.table) (hdraws : s'.draws = s.draws)
    (hline : s'.log.line = s.log.line + k) :
    Alike k s.log.history.toList s'.log.history.toList s s' :=
  ⟨htable, hdraws, hline, [], by simp, by simp⟩

theorem Alike.report (h : Alike k rs rs' s s') (problem : Problem) :
    Alike k rs rs' (s.report problem) (s'.report problem) := by
  obtain ⟨htable, hdraws, hline, new, hnew, hnew'⟩ := h
  refine ⟨htable, hdraws, hline, new ++ [⟨s.log.line, problem⟩], ?_, ?_⟩
  · simp [Session.report, ErrorLog.report, hnew]
  · simp [Session.report, ErrorLog.report, hnew', hline, Report.later]

theorem Alike.nextLine (h : Alike k rs rs' s s') : Alike k rs rs' s.nextLine s'.nextLine := by
  obtain ⟨htable, hdraws, hline, hreports⟩ := h
  refine ⟨htable, hdraws, ?_, hreports⟩
  show s'.log.line + 1 = s.log.line + 1 + k
  omega

theorem Alike.withTable (h : Alike k rs rs' s s') (table : SymbolTable α) :
    Alike k rs rs' { s with table } { s' with table } :=
  ⟨rfl, h.draws, h.line, h.reports⟩

theorem Alike.withDraws (h : Alike k rs rs' s s') (draws : Draws α) :
    Alike k rs rs' { s with draws } { s' with draws } :=
  ⟨h.table, rfl, h.line, h.reports⟩

/-- A name gets the same place in both tables. -/
theorem Alike.intern (h : Alike k rs rs' s s') (name : String) :
    (s'.intern name).1 = (s.intern name).1 ∧
      Alike k rs rs' (s.intern name).2 (s'.intern name).2 := by
  unfold Session.intern
  rw [h.table]
  exact ⟨rfl, h.withTable _⟩

/-- The same lexeme makes the same token, but for the line. -/
theorem Alike.token [Arithmetic α] (h : Alike k rs rs' s s') (l : Lexeme) :
    (s.token l).1.content = (s'.token l).1.content ∧
      Alike k rs rs' (s.token l).2 (s'.token l).2 := by
  cases l with
  | newline => exact ⟨rfl, h⟩
  | mark kind => exact ⟨rfl, h⟩
  | stray c => exact ⟨rfl, h.report _⟩
  -- whether a numeral has a value is up to its characters, so both make the token or neither does
  | number n =>
    cases hv : n.value? with
    | none =>
      simp only [Session.token, hv]
      exact ⟨rfl, h.report _⟩
    | some v =>
      simp only [Session.token, hv]
      exact ⟨rfl, h⟩
  | name chars =>
    obtain ⟨hindex, hintern⟩ := h.intern (String.ofList chars)
    refine ⟨?_, hintern⟩
    simp only [Session.token, Token.content, hindex, hintern.table]

/-- Between two states, both sessions report as much. -/
theorem Alike.errorCount_eq_iff {t t' : Session α} (h : Alike k rs rs' s s')
    (ht : Alike k rs rs' t t') :
    t.errorCount = s.errorCount ↔ t'.errorCount = s'.errorCount := by
  obtain ⟨new, hs, hs'⟩ := h.reports
  obtain ⟨more, ht, ht'⟩ := ht.reports
  have hlength : ∀ s : Session α, s.errorCount = s.log.history.toList.length :=
    fun s => s.log.count_eq
  -- since the start both counts have grown by as much
  simp only [hlength, hs, hs', ht, ht', List.length_append, List.length_map]
  omega

end Session

/-! ## Evaluations in sessions that are alike -/

variable [Arithmetic α]

open Session Evaluation

/-- A relation between evaluations in sessions that are alike. Besides that, it is about streams. -/
structure Comparison (k : Nat) (rs rs' : List Report) (R : Evaluation α → Evaluation α → Prop) :
    Prop where
  settled {e e' : Evaluation α} : R e e' → e.Settled ∧ e'.Settled
  content {e e' : Evaluation α} : R e e' → e.current.content = e'.current.content ∨
    e.current.kind.endsStatement = true ∧ e'.current.kind.endsStatement = true
  advance {e e' : Evaluation α} : R e e' → e.current.kind.endsStatement = false →
    R e.advance e'.advance
  alike {e e' : Evaluation α} : R e e' → Alike k rs rs' e.session e'.session
  /-- The sessions may change alike, as long as that keeps the places of names and the line. -/
  act {e e' : Evaluation α} {s s' : Session α} : R e e' → Alike k rs rs' s s' →
    e.session.table.faces <+: s.table.faces → s.log.line = e.session.log.line →
    R { e with session := s } { e' with session := s' }

omit [Arithmetic α] in
/-- A settled evaluation stays so when its table gets more names. -/
theorem Evaluation.Settled.act {e : Evaluation α} (hs : e.Settled) {s : Session α}
    (hfaces : e.session.table.faces <+: s.table.faces) : Settled { e with session := s } :=
  ⟨hs.ready, hs.newlinePending, hs.coherent.mono hfaces⟩

omit [Arithmetic α] in
/-- The end of a statement brings nothing along. -/
theorem Evaluation.Settled.payload_of_endsStatement {e : Evaluation α} (hs : e.Settled)
    (hk : e.current.kind.endsStatement = true) : e.current.payload = .none := by
  have hcoherent := hs.coherent
  generalize e.current = token at hcoherent hk
  obtain ⟨kind, payload, line⟩ := token
  -- numbers and names end no statement
  cases hcoherent with
  | number value => cases hk
  | @name _ _ arity? _ =>
    have hends := TokenKind.endsStatement_eq_false_of_isName (TokenKind.isName_ofArity? arity?)
    cases hends.symm.trans hk
  | mark => rfl

namespace Comparison

variable {R : Evaluation α → Evaluation α → Prop} {e e' : Evaluation α}

theorem report (h : Comparison k rs rs' R) (problem : Problem) (hR : R e e') :
    R (e.report problem) (e'.report problem) :=
  h.act hR ((h.alike hR).report problem) List.prefix_rfl rfl

theorem fail (h : Comparison k rs rs' R) (problem : Problem) (hR : R e e') :
    Agree R (e.fail problem) (e'.fail problem) :=
  ⟨rfl, h.report problem hR⟩

/-- A variable has the same value in both tables, or is refused in both. -/
theorem read (h : Comparison k rs rs' R) (index : Nat) (hR : R e e') :
    Agree R (e.read index) (e'.read index) := by
  unfold Evaluation.read
  rw [(h.alike hR).table]
  cases e.session.table.entry index with
  | error error => exact h.fail _ hR
  | ok entry =>
    obtain ⟨name, binding⟩ := entry
    -- both tables are the same, so both read the value or both report
    cases binding with
    | undefined => exact h.fail _ hR
    | assigned value => exact ⟨rfl, hR⟩
    | constant value => exact ⟨rfl, hR⟩
    | builtIn f => exact h.fail _ hR

/-- An assignment is accepted on both sides or refused on both. -/
theorem assign (h : Comparison k rs rs' R) (index : Nat) (value : α) (hR : R e e') :
    Agree R (e.assign index value) (e'.assign index value) := by
  unfold Evaluation.assign Session.assign
  rw [(h.alike hR).table]
  cases ha : e.session.table.assign index value with
  | error error => exact h.fail _ hR
  | ok table =>
    refine ⟨rfl, h.act hR ((h.alike hR).withTable table) ?_ rfl⟩
    exact SymbolTable.faces_assign ha ▸ List.prefix_rfl

/-- A call has the same result on both sides. -/
theorem apply (h : Comparison k rs rs' R) (index : Nat) (arguments : List α) (hR : R e e') :
    Agree R (e.apply index arguments) (e'.apply index arguments) := by
  unfold Evaluation.apply
  rw [(h.alike hR).table, (h.alike hR).draws]
  cases e.session.table.get index with
  | error error => exact h.fail _ hR
  | ok binding =>
    simp only
    cases binding.call? arguments e.session.draws with
    | none => exact h.fail _ hR
    | some r =>
      -- the numbers are drawn before the result is looked at, also where it is a failure
      have hdraws := h.act hR ((h.alike hR).withDraws r.2) List.prefix_rfl rfl
      obtain ⟨result, draws⟩ := r
      cases result with
      | ok value => exact ⟨rfl, hdraws⟩
      | error error => exact h.fail _ hdraws

/-- The last result becomes the same on both sides. -/
theorem remember (h : Comparison k rs rs' R) (value : α) (hR : R e e') :
    R (e.remember value) (e'.remember value) := by
  obtain ⟨hindex, hintern⟩ := (h.alike hR).intern SymbolTable.last
  -- the name gets the same place in both tables, be it an old or a new one
  have hR' := h.act hR hintern (Session.faces_intern SymbolTable.last e.session) rfl
  unfold Evaluation.remember
  simp only [hindex]
  exact (h.assign _ value hR').2

/-- The current tokens bring the same along, also where they are different ends of statements. -/
theorem payload (h : Comparison k rs rs' R) (hR : R e e') :
    e.current.payload = e'.current.payload := by
  rcases h.content hR with hc | ⟨hk, hk'⟩
  · exact congrArg Prod.snd hc
  · obtain ⟨hs, hs'⟩ := h.settled hR
    rw [hs.payload_of_endsStatement hk, hs'.payload_of_endsStatement hk']

/-- What keeps sessions alike is a simulation. -/
theorem simulation (h : Comparison k rs rs' R) : Simulation (fun _ _ => Eq) R where
  settled := h.settled
  kind hR := (h.content hR).imp_left (congrArg Prod.fst)
  number hR := by rw [Token.number?, Token.number?, h.payload hR]
  -- the tables are the same, so one name has one place in both
  symbol hR hindex hindex' := by
    rw [Token.symbol?, h.payload hR] at hindex
    exact Option.some.inj (hindex.symm.trans hindex')
  places hindex _ _ := hindex
  advance := h.advance
  report problem hR := h.report problem hR
  read := by
    rintro e e' index _ rfl hR
    exact h.read index hR
  assign value := by
    rintro hindex hR
    rw [← hindex]
    exact h.assign _ value hR
  apply arguments := by
    rintro hindex hR
    rw [← hindex]
    exact h.apply _ arguments hR
  remember value hR := h.remember value hR
  errorCount hR hR' := (h.alike hR).errorCount_eq_iff (h.alike hR')

end Comparison

end DeskCalc
