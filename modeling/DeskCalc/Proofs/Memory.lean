import DeskCalc.Proofs.Upcoming

/-!
# What evaluation works on

The counterpart of the view: evaluation sees of a session its *memory*, the bindings, the random
numbers and the problems that it reported. Reading a token may make a place for a new name in the
memory, and no evaluation minds whether that was done before or after it.

* `Memory` — with an operation for everything that happens to values.
* `Evaluation.memory` — the memory of an evaluation. The operations of an evaluation do to it what
  those of the memory do (`memory_operate` and its like).
* `Memory.Reads` — reading does nothing to the memory but make places for names (`reads_advance`).
* `Memory.Persistent` — an operation that does not mind a new name.
* `skip_memory_of_persistent` — such an operation can as well be done when the rest of the statement
  has been read.
-/

namespace DeskCalc

/-- Bindings, random numbers, the line, and what was reported of the things that were read. -/
structure Memory (α : Type) where
  table : SymbolTable α
  draws : Draws α
  line : Nat
  /-- The reports of problems, but of problems of reading; oldest first. -/
  reports : List Report

namespace Memory

variable {α : Type}

/-! ## Operations -/

/-- Records a problem at the line of the memory. -/
def report (problem : Problem) (m : Memory α) : Memory α :=
  { m with reports := m.reports ++ [⟨m.line, problem⟩] }

/-- Makes a place for a name, unless it has one. -/
def intern (m : Memory α) (name : String) : Memory α :=
  { m with table := (m.table.intern name).2 }

variable [Arithmetic α]

/-- A problem is reported, and the value is not a number. -/
def fail (problem : Problem) (m : Memory α) : α × Memory α := (Arithmetic.nan, m.report problem)

/-- The value of a checked function, unless it failed. -/
def checked (result : Except MathError α) (m : Memory α) : α × Memory α :=
  match result with
  | .ok value => (value, m)
  | .error error => m.fail (.math error)

/-- Sums, differences, products, quotients and remainders; zero divides nothing. -/
def operate (op : Operator) (left right : α) (m : Memory α) : α × Memory α :=
  match op with
  | .plus => (left + right, m)
  | .minus => (left - right, m)
  | .times => (left * right, m)
  | .over => if Arithmetic.isZero right then m.fail .divideByZero else (left / right, m)
  | .modulo => if Arithmetic.isZero right then m.fail .divideByZero else (left % right, m)

/-- The value that a name is bound to. -/
def read (index : Nat) (m : Memory α) : α × Memory α :=
  match m.table.entry index with
  | .error error => m.fail (.symbol error)
  | .ok ⟨_, .assigned value⟩ | .ok ⟨_, .constant value⟩ => (value, m)
  | .ok ⟨name, .undefined⟩ => m.fail (.undefinedVariable name)
  | .ok ⟨_, .builtIn _⟩ => m.fail .primaryExpected

/-- Binds a name to a value, unless it must keep its binding. -/
def assign (index : Nat) (value : α) (m : Memory α) : α × Memory α :=
  match m.table.assign index value with
  | .ok table => (value, { m with table })
  | .error error => m.fail (.symbol error)

/-- The value of the function that a name is bound to, at the given arguments. -/
def apply (index : Nat) (arguments : List α) (m : Memory α) : α × Memory α :=
  match m.table.get index with
  | .error error => m.fail (.symbol error)
  | .ok binding =>
    match binding.call? arguments m.draws with
    | some (result, draws) => checked result { m with draws }
    | none => m.fail .primaryExpected

/-- Makes a value the last result. -/
def remember (value : α) (m : Memory α) : Memory α :=
  ((m.intern SymbolTable.last).assign (m.table.intern SymbolTable.last).1 value).2

end Memory

namespace SymbolTable

variable {α : Type}

/-! ## New names leave the old ones alone -/

theorem size_le_intern (t : SymbolTable α) (name : String) : t.size ≤ (t.intern name).2.size := by
  unfold intern
  cases t.indexOf? name with
  | some index => exact Nat.le_refl _
  | none => simp [size]

/-- What is at a place stays there when another name gets its own. -/
theorem entry_intern {t : SymbolTable α} {index : Nat} (h : index < t.size) (name : String) :
    (t.intern name).2.entry index = t.entry index := by
  unfold intern
  cases t.indexOf? name with
  | some _ => rfl
  | none =>
    have hget : (t.entries.push ⟨name, .undefined⟩)[index]? = t.entries[index]? := by
      rw [Array.getElem?_push_lt h, Array.getElem?_eq_getElem h]
    have hlt : index < t.entries.size := h
    simp [entry, hget, hlt]

theorem get_intern {t : SymbolTable α} {index : Nat} (h : index < t.size) (name : String) :
    (t.intern name).2.get index = t.get index := by
  rw [get, get, entry_intern h]

/-- A name can be given its place before or after another one is assigned. -/
theorem assign_intern {t : SymbolTable α} {index : Nat} (h : index < t.size) (name : String)
    (value : α) :
    (t.intern name).2.assign index value =
      (t.assign index value).map fun t' => (t'.intern name).2 := by
  -- whether it can be assigned depends on what is at the place, before and after
  cases ha : t.assign index value with
  | error error =>
    unfold assign at ha ⊢
    rw [entry_intern h]
    split at ha
    · simp [← ha, Except.map]
    · next e he =>
      split at ha
      · simp at ha
      · next hmut => simp [hmut, ← ha, Except.map]
  | ok t' =>
    have hindex : t'.indexOf? name = t.indexOf? name := by
      rw [indexOf?_eq_findIdx?, indexOf?_eq_findIdx?, faces_assign ha]
    unfold assign at ha ⊢
    rw [entry_intern h]
    split at ha
    · simp at ha
    · next e he =>
      split at ha
      · next hmut =>
        simp only [Except.ok.injEq] at ha
        subst ha
        -- a new name comes behind all others, so assigning does not touch it
        have hlt : index < t.entries.size := h
        simp only [hmut, if_true, Except.map, intern, hindex]
        cases hi : t.indexOf? name with
        | some _ => rfl
        | none => simp only [Array.push_eq_append, Array.setIfInBounds_append_left hlt]
      · simp at ha

end SymbolTable

/-! ## Persistent operations -/

namespace Memory

variable {α : Type}

/-- The operation does not mind a new name, once the table has reached the given size. -/
def Persistent (size : Nat) (f : Memory α → α × Memory α) : Prop :=
  ∀ (m : Memory α) (name : String), size ≤ m.table.size →
    f (m.intern name) = ((f m).1, (f m).2.intern name)

/-- An operation that does not mind one new name does not mind several. -/
theorem Persistent.foldl {size : Nat} {f : Memory α → α × Memory α} (hf : Persistent size f)
    (names : List String) {m : Memory α} (h : size ≤ m.table.size) :
    f (names.foldl intern m) = ((f m).1, names.foldl intern (f m).2) := by
  induction names generalizing m with
  | nil => rfl
  | cons name names ih =>
    have hsize : size ≤ (m.intern name).table.size :=
      Nat.le_trans h (m.table.size_le_intern name)
    simp only [List.foldl_cons]
    rw [ih hsize, hf m name h]

/-- All that happened between two memories is reading: lines were counted, and names were given
their places. -/
structure Reads (m m' : Memory α) : Prop where
  table : ∃ names : List String, m'.table = names.foldl (fun t name => (t.intern name).2) m.table
  draws : m'.draws = m.draws
  reports : m'.reports = m.reports

theorem Reads.refl (m : Memory α) : Reads m m := ⟨⟨[], rfl⟩, rfl, rfl⟩

/-- One stretch of reading behind another: the names of both got their places, one after the
other. -/
theorem Reads.trans {m m' m'' : Memory α} (h : Reads m m') (h' : Reads m' m'') : Reads m m'' := by
  obtain ⟨names, hnames⟩ := h.table
  obtain ⟨names', hnames'⟩ := h'.table
  refine ⟨⟨names ++ names', ?_⟩, h'.draws.trans h.draws, h'.reports.trans h.reports⟩
  rw [hnames', hnames, List.foldl_append]

variable [Arithmetic α]

/-- A failure does not look at the table. -/
theorem persistent_fail (problem : Problem) : Persistent (α := α) 0 (fail problem) :=
  fun _ _ _ => rfl

/-- Neither does a check. -/
theorem persistent_checked (result : Except MathError α) : Persistent 0 (checked result) := by
  intro m name _
  cases result <;> rfl

/-- Neither does an operation on values. -/
theorem persistent_operate (op : Operator) (left right : α) :
    Persistent 0 (operate op left right) := by
  intro m name _
  unfold operate
  split
  · rfl
  · rfl
  · rfl
  · split <;> rfl
  · split <;> rfl

/-- Reading a value looks at one place, which has to be there already. -/
theorem persistent_read (index : Nat) : Persistent (α := α) (index + 1) (read index) := by
  intro m name h
  unfold read
  have hentry : (m.intern name).table.entry index = m.table.entry index :=
    SymbolTable.entry_intern h name
  rw [hentry]
  split <;> rfl

/-- Assigning touches one place, and a new name gets another. -/
theorem persistent_assign (index : Nat) (value : α) :
    Persistent (index + 1) (assign index value) := by
  intro m name h
  unfold assign
  have hassign : (m.intern name).table.assign index value =
      (m.table.assign index value).map fun t' => (t'.intern name).2 :=
    SymbolTable.assign_intern h name value
  rw [hassign]
  cases m.table.assign index value <;> rfl

/-- A call looks at the place of its function. -/
theorem persistent_apply (index : Nat) (arguments : List α) :
    Persistent (index + 1) (apply index arguments) := by
  intro m name h
  unfold apply
  have hget : (m.intern name).table.get index = m.table.get index :=
    SymbolTable.get_intern h name
  rw [hget]
  cases m.table.get index with
  | error error => rfl
  | ok binding =>
    simp only
    have hdraws : (m.intern name).draws = m.draws := rfl
    rw [hdraws]
    cases binding.call? arguments m.draws with
    | none => rfl
    -- the random numbers are apart from the table, so what the function gives is the same
    | some r => exact persistent_checked r.1 { m with draws := r.2 } name (Nat.zero_le _)

end Memory

/-! ## The memory of an evaluation -/

variable {α : Type}

/-- The memory of a session. -/
def Session.memory (s : Session α) : Memory α :=
  ⟨s.table, s.draws, s.log.line, s.log.history.toList.filter fun r => !r.ofReading⟩

namespace Session

/-- A report is recorded in the memory unless it is one of reading. -/
theorem memory_report (problem : Problem) (s : Session α) :
    (s.report problem).memory =
      if problem.kind.ofReading then s.memory else s.memory.report problem := by
  cases h : problem.kind.ofReading <;>
    simp [memory, report, ErrorLog.report, List.filter_append, Report.ofReading, Report.kind, h,
      Memory.report]

end Session

namespace Evaluation

/-- The memory of an evaluation. -/
def memory (e : Evaluation α) : Memory α := e.session.memory

/-- What is left of an outcome when the reading is left out. -/
def remembered (r : α × Evaluation α) : α × Memory α := (r.1, r.2.memory)

/-- What comes up in evaluating is recorded. -/
theorem memory_report {problem : Problem} (h : problem.kind.ofReading = false)
    (e : Evaluation α) : (e.report problem).memory = e.memory.report problem := by
  rw [memory, report, Session.memory_report, h]
  rfl

variable [Arithmetic α]

/-- A failure in an evaluation is a failure in its memory. -/
theorem memory_fail {problem : Problem} (h : problem.kind.ofReading = false) (e : Evaluation α) :
    remembered (e.fail problem) = e.memory.fail problem := by
  rw [remembered, fail, Memory.fail, memory_report h]

/-- So is a check that fails. -/
theorem memory_checked (result : Except MathError α) (e : Evaluation α) :
    remembered (e.checked result) = e.memory.checked result := by
  cases result with
  | ok value => rfl
  | error error => exact memory_fail rfl e

/-- An operation does to the memory what it does on its own. -/
theorem memory_operate (op : Operator) (left right : α) (e : Evaluation α) :
    remembered (e.operate op left right) = e.memory.operate op left right := by
  unfold operate Memory.operate
  -- only the division and the remainder by zero report, and they fail on both sides
  split
  · rfl
  · rfl
  · rfl
  · split
    · exact memory_fail rfl e
    · rfl
  · split
    · exact memory_fail rfl e
    · rfl

/-- Reading a value of an evaluation is reading it in its memory. -/
theorem memory_read (index : Nat) (e : Evaluation α) :
    remembered (e.read index) = e.memory.read index := by
  unfold read Memory.read
  have htable : e.memory.table = e.session.table := rfl
  rw [htable]
  -- no entry, an unset name and a function fail; a bound name is read
  cases e.session.table.entry index with
  | error error => exact memory_fail rfl e
  | ok entry =>
    obtain ⟨name, binding⟩ := entry
    cases binding with
    | undefined => exact memory_fail rfl e
    | assigned value => rfl
    | constant value => rfl
    | builtIn f => exact memory_fail rfl e

/-- The table of a session is that of its memory, so assigning is the same in both. -/
theorem memory_assign (index : Nat) (value : α) (e : Evaluation α) :
    remembered (e.assign index value) = e.memory.assign index value := by
  unfold assign Memory.assign Session.assign
  have htable : e.memory.table = e.session.table := rfl
  rw [htable]
  cases e.session.table.assign index value with
  | ok table => rfl
  | error error => exact memory_fail rfl e

/-- A call in an evaluation is a call in its memory. -/
theorem memory_apply (index : Nat) (arguments : List α) (e : Evaluation α) :
    remembered (e.apply index arguments) = e.memory.apply index arguments := by
  unfold apply Memory.apply
  have htable : e.memory.table = e.session.table := rfl
  have hdraws : e.memory.draws = e.session.draws := rfl
  rw [htable, hdraws]
  cases e.session.table.get index with
  | error error => exact memory_fail rfl e
  | ok binding =>
    simp only
    -- what the function gives is checked in the same way on both sides
    cases binding.call? arguments e.session.draws with
    | none => exact memory_fail rfl e
    | some r => exact memory_checked _ _

/-- Binding the last result is two operations, and the memory does both. -/
theorem memory_remember (value : α) (e : Evaluation α) :
    (e.remember value).memory = e.memory.remember value :=
  congrArg Prod.snd (memory_assign (e.session.intern SymbolTable.last).1 value
    { e with session := (e.session.intern SymbolTable.last).2 })

/-! ## Reading only makes places for names -/

omit [Arithmetic α] in
/-- A report of reading leaves no trace in the memory. -/
theorem reads_of_report {s : Session α} {problem : Problem} (h : problem.kind.ofReading = true) :
    Memory.Reads s.memory (s.report problem).memory := by
  rw [Session.memory_report, h]
  exact .refl _

/-- A lexeme gives a name its place or does nothing to the memory. -/
theorem reads_token (l : Lexeme) (s : Session α) : Memory.Reads s.memory (s.token l).2.memory := by
  cases l with
  | newline => exact .refl _
  | mark kind => exact .refl _
  | stray c => exact reads_of_report rfl
  | number n =>
    cases hv : n.value? with
    | none =>
      simp only [Session.token, hv]
      exact reads_of_report rfl
    | some v =>
      simp only [Session.token, hv]
      exact .refl _
  -- only a name is interned
  | name chars => exact ⟨⟨[String.ofList chars], rfl⟩, rfl, rfl⟩

/-- Reading a token counts a line, perhaps, and makes the token. -/
theorem reads_scan (t : TokenStream α) (s : Session α) :
    Memory.Reads s.memory (t.scan s).2.2.memory := by
  -- counting a line does not concern the memory
  have hnext : Memory.Reads s.memory (if t.newlinePending then s.nextLine else s).memory := by
    split
    · exact ⟨⟨[], rfl⟩, rfl, rfl⟩
    · exact .refl _
  refine hnext.trans ?_
  unfold TokenStream.scan
  simp only
  generalize (if t.newlinePending then s.nextLine else s) = r
  split
  · exact .refl _
  · split
    · exact reads_token _ r
    · exact .refl _
    · exact reads_of_report rfl

/-- Taking a token is reading, unless it was looked at before, when nothing is left to be read. -/
theorem reads_advance (e : Evaluation α) : Memory.Reads e.memory e.advance.memory := by
  obtain ⟨t, s⟩ := e
  unfold advance TokenStream.advance
  simp only
  cases t.lookahead with
  | some token => exact .refl _
  | none => exact reads_scan t s

theorem reads_skip (e : Evaluation α) : Memory.Reads e.memory e.skip.memory := by
  fun_induction skip e with
  | case1 e _ => exact .refl _
  | case2 e _ ih => exact e.reads_advance.trans ih

theorem reads_toStatement (e : Evaluation α) : Memory.Reads e.memory e.toStatement.memory := by
  fun_induction toStatement e with
  | case1 e _ ih => exact e.reads_advance.trans ih
  | case2 e _ => exact e.reads_advance

/-- In a statement, taking a token makes a place for at most one name, which depends on the stream
alone. -/
theorem memory_advance_eq_foldl {t : TokenStream α} (hready : t.lookahead = none)
    (hnewline : t.newlinePending = false) :
    ∃ names : List String, ∀ s : Session α,
      (t.advance s).2.memory = names.foldl Memory.intern s.memory := by
  unfold TokenStream.advance TokenStream.scan
  simp only [hready, hnewline, Bool.false_eq_true, if_false]
  split
  · exact ⟨[], fun s => rfl⟩
  · split
    · next l rest source _ =>
      cases l with
      | newline => exact ⟨[], fun s => rfl⟩
      | mark kind => exact ⟨[], fun s => rfl⟩
      -- what is no token is reported, and the memory keeps no reports of reading
      | stray c => exact ⟨[], fun s => s.memory_report _⟩
      | number n =>
        refine ⟨[], fun s => ?_⟩
        cases hv : n.value? with
        | none =>
          simp only [Session.token, hv]
          exact s.memory_report _
        | some v => simp [Session.token, hv]
      | name chars => exact ⟨[String.ofList chars], fun s => rfl⟩
    · exact ⟨[], fun s => rfl⟩
    · exact ⟨[], fun s => s.memory_report _⟩

/-- What skipping the rest of a statement does to the memory depends on the view alone. -/
theorem Settled.memory_skip_eq_foldl {e : Evaluation α} (hs : e.Settled) :
    ∃ names : List String, ∀ e' : Evaluation α, e'.view = e.view →
      e'.skip.memory = names.foldl Memory.intern e'.memory := by
  fun_induction skip e with
  | case1 e hk =>
    refine ⟨[], fun e' hv => ?_⟩
    rw [skip_of_endsStatement (by rwa [current_of_view hv])]
    rfl
  | case2 e hk ih =>
    have hk : e.current.kind.endsStatement = false := by simpa using hk
    obtain ⟨names, hnames⟩ := memory_advance_eq_foldl hs.ready (hs.newlinePending hk)
    obtain ⟨names', hnames'⟩ := ih hs.advance
    -- the names of the current token, and those of the tokens behind it
    refine ⟨names ++ names', fun e' hv => ?_⟩
    have hstream : e'.stream = e.stream := congrArg View.stream hv
    have hadvance : e'.advance.memory = names.foldl Memory.intern e'.memory := by
      rw [← hstream] at hnames
      exact hnames e'.session
    rw [← skip_advance (by rwa [current_of_view hv]), hnames' _ (view_advance hv), hadvance,
      List.foldl_append]

/-- What a persistent operation does, it does as well when the rest of the statement was read. -/
theorem Settled.skip_memory_of_persistent {e : Evaluation α} (hs : e.Settled)
    {f : Memory α → α × Memory α} {size : Nat} (hf : Memory.Persistent size f)
    (hsize : size ≤ e.session.table.size) {r : α × Evaluation α} (hview : r.2.view = e.view)
    (hr : remembered r = f e.memory) : remembered (r.1, r.2.skip) = f e.skip.memory := by
  obtain ⟨names, hnames⟩ := hs.memory_skip_eq_foldl
  have hvalue : r.1 = (f e.memory).1 := congrArg Prod.fst hr
  have hmemory : r.2.memory = (f e.memory).2 := congrArg Prod.snd hr
  -- the operation keeps the view, so the same names are met behind it
  rw [hnames e rfl, hf.foldl names hsize, remembered, hnames r.2 hview, hmemory, hvalue]

end Evaluation

end DeskCalc
