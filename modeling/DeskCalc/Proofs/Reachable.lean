import DeskCalc.Proofs.Lines
import DeskCalc.Proofs.Reports

/-!
# What can be reached

The tables and evaluations that there can be. A table starts with the standard names or with none,
and interning and assigning names is all that ever happens to it.

* `SymbolTable.Reachable`, `Evaluation.Reachable` — the tables; the evaluations between two
  statements of an input.
* `SymbolTable.Reachable.isMutable_last` — the last result can be assigned in every table that has a
  place for it, so that remembering it reports nothing (`reports_rememberStatement`).
* `Evaluation.Reachable.ready_intact` — what holds between two statements.
-/

namespace DeskCalc

variable {α : Type}

/-! ## Tables -/

namespace SymbolTable

/-- The tables that there can be. -/
inductive Reachable [Arithmetic α] : SymbolTable α → Prop
  | empty : Reachable .empty
  | standard : Reachable .standard
  | intern {t : SymbolTable α} (name : String) : Reachable t → Reachable (t.intern name).2
  | assign {t t' : SymbolTable α} {index : Nat} {value : α} :
    Reachable t → t.assign index value = .ok t' → Reachable t'

/-- Behind an assignment, an entry is an old one or has the value. -/
theorem mem_entries_assign {t t' : SymbolTable α} {index : Nat} {value : α}
    (h : t.assign index value = .ok t') {e : SymbolEntry α} (he : e ∈ t'.entries) :
    e ∈ t.entries ∨ e.binding = .assigned value := by
  unfold assign at h
  split at h
  · cases h
  · split at h
    · cases h
      -- only an assignment that succeeds sets an entry
      rcases Array.mem_or_eq_of_mem_setIfInBounds he with hmem | rfl
      · exact Or.inl hmem
      · exact Or.inr rfl
    · cases h

theorem mem_entries_intern {t : SymbolTable α} {name : String} {e : SymbolEntry α}
    (he : e ∈ (t.intern name).2.entries) : e ∈ t.entries ∨ e = ⟨name, .undefined⟩ := by
  unfold intern at he
  split at he
  · exact Or.inl he
  · exact Array.mem_push.1 he

variable [Arithmetic α]

/-- The last result can be assigned. -/
theorem Reachable.isMutable_last {t : SymbolTable α} (h : t.Reachable) {e : SymbolEntry α}
    (he : e ∈ t.entries) (hname : e.name = last) : e.binding.isMutable = true := by
  induction h with
  | empty => simp [SymbolTable.empty] at he
  | standard =>
    simp only [SymbolTable.standard, ofList, standardBindings, constants, functions, last,
      List.map_cons, List.map_nil, List.cons_append, List.nil_append, List.mem_toArray,
      List.mem_cons, List.not_mem_nil, or_false] at he
    -- one standard name after another; only the last one is called so, and it is assigned
    rcases he with h | h | h | h | h | h | h | h | h | h | h | h | h | h | h | h | h <;> subst h <;>
      first | rfl | simp [last] at hname
  | intern name _ ih =>
    rcases mem_entries_intern he with hmem | rfl
    · exact ih hmem
    · rfl
  | assign _ ha ih =>
    rcases mem_entries_assign ha he with hmem | hvalue
    · exact ih hmem
    · rw [hvalue]
      rfl

/-- The place of the last result can be assigned once there is one. -/
theorem Reachable.assign_last {t : SymbolTable α} (h : t.Reachable) (value : α) :
    ∃ t', (t.intern last).2.assign (t.intern last).1 value = .ok t' := by
  -- the place that interning gives out has an entry of that name
  obtain ⟨e, he, hname⟩ : ∃ e, (t.intern last).2.entry (t.intern last).1 = .ok e ∧
      e.name = last := by
    unfold SymbolTable.intern
    cases hi : t.indexOf? last with
    | none => exact ⟨⟨last, .undefined⟩, by simp [entry], rfl⟩
    | some index =>
      obtain ⟨hlt, hname, -⟩ := Array.findIdx?_eq_some_iff_getElem.1 hi
      exact ⟨t.entries[index], by simp [entry, hlt], by simpa using hname⟩
  have hmem : e ∈ (t.intern last).2.entries := by
    unfold entry at he
    split at he
    · next e' he' =>
      cases he
      exact Array.mem_of_getElem? he'
    · cases he
  unfold SymbolTable.assign
  rw [he]
  simp only
  -- and in a table that can be reached, that name is no constant and no function
  rw [if_pos ((h.intern last).isMutable_last hmem hname)]
  exact ⟨_, rfl⟩

end SymbolTable

/-! ## Evaluations -/

variable [Arithmetic α]

namespace Evaluation

/-- An evaluation between two statements of an input. -/
inductive Reachable : Evaluation α → Prop
  | start {source : LineSource} {session : Session α} :
    source.Whole → session.table.Reachable → Reachable (start source session)
  | statement {e : Evaluation α} : Reachable e → Reachable e.statement.2

/-- Reading leaves a table that can be reached. -/
theorem table_reads {m m' : Memory α} (h : m.Reads m') (ht : m.table.Reachable) :
    m'.table.Reachable := by
  obtain ⟨names, hnames⟩ := h.table
  rw [hnames]
  clear hnames
  generalize m.table = t at ht
  induction names generalizing t with
  | nil => exact ht
  | cons name names ih => exact ih _ (ht.intern name)

/-- A step leaves a table that can be reached. -/
theorem Step.table {e e' : Evaluation α} (h : Step e e') (ht : e.session.table.Reachable) :
    e'.session.table.Reachable := by
  cases h with
  | advance => exact table_reads e.reads_advance ht
  | report => exact ht
  | @assign _ index value session ha =>
    unfold Session.assign at ha
    -- the step is one that succeeds, so the table is the one behind the assignment
    cases hassign : e.session.table.assign index value with
    | error error => simp [hassign, Except.map] at ha
    | ok table =>
      simp only [hassign, Except.map, Except.ok.injEq] at ha
      rw [← ha]
      exact ht.assign hassign
  | draw => exact ht

theorem Reaches.table {e e' : Evaluation α} (h : Reaches e e') (ht : e.session.table.Reachable) :
    e'.session.table.Reachable := by
  induction h with
  | refl => exact ht
  | tail _ step ih => exact step.table ih

/-- Ending a statement leaves a table that can be reached. -/
theorem table_conclude (count : Nat) {e : Evaluation α} (ht : e.session.table.Reachable) :
    (e.conclude count).session.table.Reachable := by
  unfold conclude
  split
  · exact ht
  · split
    · exact table_reads (reads_skip _) ht
    · exact table_reads (reads_skip _) ht

theorem table_rememberStatement (statement : Statement α) {e : Evaluation α}
    (ht : e.session.table.Reachable) : (e.rememberStatement statement).session.table.Reachable := by
  cases statement with
  | assignment value => exact ht
  | expression value => exact (reaches_assign _ value _).table (ht.intern SymbolTable.last)

/-- Remembering the last result reports nothing. -/
theorem reports_rememberStatement (statement : Statement α) {e : Evaluation α}
    (ht : e.session.table.Reachable) : (e.rememberStatement statement).reports = e.reports := by
  cases statement with
  | assignment value => rfl
  | expression value =>
    -- the assignment succeeds, so there is no error to report
    obtain ⟨t', ht'⟩ := ht.assign_last value
    have hassign : (e.session.intern SymbolTable.last).2.assign
        (e.session.intern SymbolTable.last).1 value = .ok { e.session with table := t' } := by
      simp [Session.assign, Session.intern, ht', Except.map]
    show (e.remember value).reports = e.reports
    unfold remember assign
    simp only [hassign]
    rfl

/-- What holds between two statements. -/
theorem Reachable.ready_intact {e : Evaluation α} (h : e.Reachable) :
    e.Ready ∧ e.Intact ∧ e.session.table.Reachable := by
  induction h with
  | start hsource htable => exact ⟨ready_start _ _, intact_start hsource _, htable⟩
  | @statement e _ ih =>
    obtain ⟨hready, hintact, htable⟩ := ih
    refine ⟨hready.statement, ?_, ?_⟩
    -- the stream is the one behind skipping, whatever the statement does to the session
    · show e.statement.2.stream.Intact
      rw [hready.read_statement.1]
      exact (hintact.toStatement hready).skip hready.settled_toStatement
    · have hstart := table_reads e.reads_toStatement htable
      by_cases hk : e.toStatement.current.kind = .finish
      · rw [statement_of_finish hk]
        exact hstart
      · rw [statement_of_ne_finish hk]
        exact table_rememberStatement _
          (table_conclude _ (hready.settled_toStatement.reaches_body.table hstart))

end Evaluation

end DeskCalc
