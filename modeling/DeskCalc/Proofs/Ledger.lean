import DeskCalc.Proofs.Moves
import DeskCalc.Proofs.Names
import Mathlib.Data.List.Nodup

/-!
# The table as a ledger

A symbol table answers all that can be asked of it as a plain list of names and bindings would, to
which names are only ever added at the end. Names and places belong to each other for good, and a
binding changes only if it can be assigned.

* `SymbolTable.Operation`, `Answer` — what can be asked of a table.
* `Ledger` — the list, with the same operations.
* `SymbolTable.toList_change`, `answer_eq` — one operation; `answers_eq`, `toList_after` — any number
  of them.
* `Ledger.names_after` — the names stand in the order in which they were first met.
* `SymbolTable.Lawful` — what holds of a table at any time, and `Precedes` — of a table and a later
  one.
* `SymbolTable.keeps_ledger` — all of it, for every sequence of operations and every evaluation.
-/

namespace DeskCalc

variable {α : Type}

namespace SymbolTable

/-! ## Operations -/

/-- What can be asked of a table. -/
inductive Operation (α : Type) where
  | intern (name : String)
  | assign (index : Nat) (value : α)
  | get (index : Nat)
  | nameOf (index : Nat)
  | lookup (name : String)
  /-- All names with their bindings. -/
  | list
  /-- The value of the function with the given name. -/
  | call (name : String) (arguments : List α)

inductive Answer (α : Type) where
  | place (index : Nat)
  | assigned (result : Except SymbolError Unit)
  | binding (result : Except SymbolError (Binding α))
  | nameOf (result : Except SymbolError String)
  | found (binding? : Option (Binding α))
  | entries (entries : List (String × Binding α))
  /-- Nothing where there is no such name, and no result where it is not that of a function of so
  many arguments. -/
  | called (result? : Option (Option (Except MathError α)))

/-- The name that the operation interns. -/
def Operation.interned? : Operation α → Option String
  | .intern name => some name
  | _ => none

/-- The table behind an operation; where that fails, nothing has changed. -/
def change (op : Operation α) (t : SymbolTable α) : SymbolTable α :=
  match op with
  | .intern name => (t.intern name).2
  | .assign index value => (t.assign index value).toOption.getD t
  | _ => t

/-- The table behind some operations. -/
def after (ops : List (Operation α)) (t : SymbolTable α) : SymbolTable α :=
  ops.foldl (fun t op => t.change op) t

/-- What comes of applying a binding, if there is one; and the random numbers that are left. -/
def Answer.ofCall [Arithmetic α] (binding? : Option (Binding α)) (arguments : List α)
    (draws : Draws α) : Answer α × Draws α :=
  match binding?.map fun binding => binding.call? arguments draws with
  | none => (.called none, draws)
  | some none => (.called (some none), draws)
  | some (some (result, draws)) => (.called (some (some result)), draws)

/-- The answer of the table, and the random numbers that are left. -/
def answer [Arithmetic α] (op : Operation α) (t : SymbolTable α) (draws : Draws α) :
    Answer α × Draws α :=
  match op with
  | .intern name => (.place (t.intern name).1, draws)
  | .assign index value => (.assigned ((t.assign index value).map fun _ => ()), draws)
  | .get index => (.binding (t.get index), draws)
  | .nameOf index => (.nameOf (t.name index), draws)
  | .lookup name => (.found (t.lookup name), draws)
  | .list => (.entries t.toList, draws)
  | .call name arguments => Answer.ofCall (t.lookup name) arguments draws

/-- The answers to operations one after another. -/
def answers [Arithmetic α] : List (Operation α) → SymbolTable α → Draws α → List (Answer α)
  | [], _, _ => []
  | op :: ops, t, draws =>
    (t.answer op draws).1 :: answers ops (t.change op) (t.answer op draws).2

end SymbolTable

open SymbolTable

/-! ## The list -/

/-- Names with their bindings, in the order in which they were met. -/
abbrev Ledger (α : Type) := List (String × Binding α)

namespace Ledger

/-- The names in the list, in order. -/
def names (l : Ledger α) : List String := l.map Prod.fst

/-- What stands at a place. -/
def entry (l : Ledger α) (index : Nat) : Except SymbolError (String × Binding α) :=
  match l[index]? with
  | some e => .ok e
  | none => .error (.invalidIndex index l.length)

/-- The list with the name at a place assigned, unless that must not be. -/
def assign (l : Ledger α) (index : Nat) (value : α) : Except SymbolError (Ledger α) :=
  match l.entry index with
  | .error error => .error error
  | .ok (name, binding) =>
    if binding.isMutable then .ok (l.set index (name, .assigned value))
    else .error (.immutable name)

/-- The list behind an operation. -/
def change (op : Operation α) (l : Ledger α) : Ledger α :=
  match op with
  | .intern name => if name ∈ l.names then l else l ++ [(name, .undefined)]
  | .assign index value => (l.assign index value).toOption.getD l
  | _ => l

/-- The list behind some operations. -/
def after (ops : List (Operation α)) (l : Ledger α) : Ledger α :=
  ops.foldl (fun l op => l.change op) l

/-- The answer of the list, and the random numbers that are left. -/
def answer [Arithmetic α] (op : Operation α) (l : Ledger α) (draws : Draws α) :
    Answer α × Draws α :=
  match op with
  | .intern name => (.place (l.names.idxOf name), draws)
  | .assign index value => (.assigned ((l.assign index value).map fun _ => ()), draws)
  | .get index => (.binding ((l.entry index).map Prod.snd), draws)
  | .nameOf index => (.nameOf ((l.entry index).map Prod.fst), draws)
  | .lookup name => (.found (List.lookup name l), draws)
  | .list => (.entries l, draws)
  | .call name arguments => Answer.ofCall (List.lookup name l) arguments draws

/-- The answers to operations one after another. -/
def answers [Arithmetic α] : List (Operation α) → Ledger α → Draws α → List (Answer α)
  | [], _, _ => []
  | op :: ops, l, draws =>
    (l.answer op draws).1 :: answers ops (l.change op) (l.answer op draws).2

end Ledger

/-! ## The table is the list -/

namespace SymbolTable

variable {t : SymbolTable α}

theorem length_toList (t : SymbolTable α) : t.toList.length = t.size := by
  simp [toList, size]

/-- The names of the table, in order. -/
def names (t : SymbolTable α) : List String := Ledger.names t.toList

/-- At every place there is the same, and behind the last one the same error. -/
theorem entry_toList (t : SymbolTable α) (index : Nat) :
    Ledger.entry t.toList index = (t.entry index).map fun e => (e.name, e.binding) := by
  simp only [Ledger.entry, entry, length_toList]
  simp only [toList, List.getElem?_map, Array.getElem?_toList]
  cases t.entries[index]? <;> rfl

theorem get_eq (t : SymbolTable α) (index : Nat) :
    t.get index = (Ledger.entry t.toList index).map Prod.snd := by
  rw [entry_toList, get]
  cases t.entry index <;> rfl

theorem name_eq (t : SymbolTable α) (index : Nat) :
    t.name index = (Ledger.entry t.toList index).map Prod.fst := by
  rw [entry_toList, name]
  cases t.entry index <;> rfl

/-- The table and the list are searched from the front, so the first entry of a name is found. -/
theorem lookup_toList (t : SymbolTable α) (name : String) :
    t.lookup name = List.lookup name t.toList := by
  rw [lookup, toList, ← Array.find?_toList]
  induction t.entries.toList with
  | nil => rfl
  | cons e es ih =>
    rw [List.map_cons, List.lookup_cons, List.find?_cons, BEq.comm (a := name)]
    cases e.name == name with
    | true => rfl
    | false => exact ih

/-- A name that is there has the place at which it came first. -/
theorem indexOf?_toList (t : SymbolTable α) (name : String) :
    t.indexOf? name = if name ∈ t.names then some (t.names.idxOf name) else none := by
  -- searching the array of entries is searching the list of their names
  have hfind : t.indexOf? name = t.names.idxOf? name := by
    rw [List.idxOf?, names, Ledger.names, toList, List.map_map, List.findIdx?_map, indexOf?,
      ← List.findIdx?_toArray]
    rfl
  rw [hfind]
  by_cases h : name ∈ t.names
  · rw [if_pos h]
    exact List.findIdx?_eq_some_iff_findIdx_eq.2 ⟨List.idxOf_lt_length_iff.2 h, rfl⟩
  · rw [if_neg h, List.idxOf?_eq_none_iff.2 h]

/-- The place that interning gives is where the name is in the list, or the end of it. -/
theorem fst_intern_toList (t : SymbolTable α) (name : String) :
    (t.intern name).1 = t.names.idxOf name := by
  unfold intern
  rw [indexOf?_toList]
  by_cases h : name ∈ t.names
  · rw [if_pos h]
  · rw [if_neg h, List.idxOf_eq_length h, names, Ledger.names, List.length_map, length_toList]
    rfl

/-- Interning does the same to both. -/
theorem intern_toList (t : SymbolTable α) (name : String) :
    (t.intern name).2.toList = Ledger.change (.intern name) t.toList := by
  unfold intern
  rw [indexOf?_toList]
  by_cases h : name ∈ t.names
  · rw [if_pos h]
    exact (if_pos h).symm
  · rw [if_neg h]
    refine Eq.trans ?_ (if_neg h).symm
    simp [toList]

/-- Assigning does the same to both, and fails for the same reason. -/
theorem assign_toList (t : SymbolTable α) (index : Nat) (value : α) :
    (t.assign index value).map toList = Ledger.assign t.toList index value := by
  rw [Ledger.assign, entry_toList, assign]
  cases t.entry index with
  | error error => rfl
  | ok e =>
    simp only [Except.map]
    -- it depends on the binding alone whether there is anything to do
    cases e.binding.isMutable with
    | true => simp [toList, List.map_set]
    | false => simp

/-- An operation does the same to the table and to the list. -/
theorem toList_change (op : Operation α) (t : SymbolTable α) :
    (t.change op).toList = Ledger.change op t.toList := by
  cases op with
  | intern name => exact t.intern_toList name
  | assign index value =>
    rw [change, Ledger.change, ← assign_toList]
    cases t.assign index value <;> rfl
  -- the other operations only ask
  | _ => rfl

/-- The table and the list give the same answer. -/
theorem answer_eq [Arithmetic α] (op : Operation α) (t : SymbolTable α) (draws : Draws α) :
    t.answer op draws = Ledger.answer op t.toList draws := by
  cases op with
  | intern name => rw [answer, Ledger.answer, fst_intern_toList]; rfl
  -- only an assignment can leave another table, and its answer does not show that
  | assign index value =>
    rw [answer, Ledger.answer, ← assign_toList]
    cases t.assign index value <;> rfl
  | get index => rw [answer, Ledger.answer, get_eq]
  | nameOf index => rw [answer, Ledger.answer, name_eq]
  | lookup name => rw [answer, Ledger.answer, lookup_toList]
  | list => rfl
  | call name arguments => rw [answer, Ledger.answer, lookup_toList]

/-- Any number of operations do the same to both. The induction is on the operations, with the step
above. -/
theorem toList_after (ops : List (Operation α)) (t : SymbolTable α) :
    (t.after ops).toList = Ledger.after ops t.toList := by
  induction ops generalizing t with
  | nil => rfl
  | cons op ops ih =>
    rw [Ledger.after, List.foldl_cons, ← toList_change]
    exact ih _

/-- So do both give the same answers, one after another. -/
theorem answers_eq [Arithmetic α] (ops : List (Operation α)) (t : SymbolTable α)
    (draws : Draws α) : t.answers ops draws = Ledger.answers ops t.toList draws := by
  induction ops generalizing t draws with
  | nil => rfl
  | cons op ops ih => rw [answers, Ledger.answers, ih, toList_change, answer_eq]

end SymbolTable

/-! ## Names stand in the order in which they were met -/

namespace Ledger

variable {l : Ledger α} {index : Nat} {name : String} {binding : Binding α}

theorem getElem?_names (h : l[index]? = some (name, binding)) : l.names[index]? = some name := by
  rw [names, List.getElem?_map, h]
  rfl

/-- Assigning succeeds just where the binding can be assigned, and then changes nothing else. -/
theorem assign_eq_ok_iff {value : α} {l' : Ledger α} : l.assign index value = .ok l' ↔
    ∃ name binding, l[index]? = some (name, binding) ∧ binding.isMutable = true ∧
      l' = l.set index (name, .assigned value) := by
  unfold assign entry
  cases l[index]? with
  | none => simp
  | some e =>
    obtain ⟨name, binding⟩ := e
    -- the entry is there, so its binding decides
    cases hb : binding.isMutable with
    | true =>
      simp only [hb, if_true, Except.ok.injEq, Option.some.injEq, Prod.mk.injEq]
      constructor
      · rintro rfl
        exact ⟨name, binding, ⟨rfl, rfl⟩, hb, rfl⟩
      · rintro ⟨_, _, ⟨rfl, rfl⟩, -, rfl⟩
        rfl
    | false =>
      simp only [hb, Bool.false_eq_true, if_false, reduceCtorEq, false_iff]
      rintro ⟨_, _, ⟨⟩, hmut, -⟩
      rw [hb] at hmut
      cases hmut

/-- Otherwise it fails because there is nothing at the place, or what is there must not change. -/
theorem assign_eq_error_iff {value : α} {error : SymbolError} :
    l.assign index value = .error error ↔ l[index]? = none ∧ error = .invalidIndex index l.length ∨
      ∃ name binding, l[index]? = some (name, binding) ∧ binding.isMutable = false ∧
        error = .immutable name := by
  unfold assign entry
  cases l[index]? with
  -- no entry: the error names the place and the number of entries
  | none =>
    simp only [Except.error.injEq, true_and, reduceCtorEq, false_and, exists_const]
    constructor
    · exact fun h => Or.inl h.symm
    · rintro (h | ⟨_, ⟨⟩⟩)
      exact h.symm
  -- an entry: the error can only be that its binding must not change
  | some e =>
    obtain ⟨name, binding⟩ := e
    cases hb : binding.isMutable with
    | true =>
      simp only [hb, if_true, reduceCtorEq, false_and, false_or, false_iff]
      rintro ⟨_, _, ⟨⟩, hmut, -⟩
      rw [hb] at hmut
      cases hmut
    | false =>
      simp only [hb, Bool.false_eq_true, if_false, Except.error.injEq, reduceCtorEq, false_and,
        false_or, Option.some.injEq, Prod.mk.injEq]
      constructor
      · rintro rfl
        exact ⟨name, binding, ⟨rfl, rfl⟩, hb, rfl⟩
      · rintro ⟨_, _, ⟨rfl, rfl⟩, -, rfl⟩
        rfl

/-- A new binding for a name leaves the names as they are. -/
theorem names_set (h : l[index]? = some (name, binding)) (binding' : Binding α) :
    names (l.set index (name, binding')) = l.names := by
  -- place by place; at the one that is set, the name is the same
  apply List.ext_getElem?
  intro i
  rw [names, List.map_set, List.getElem?_set]
  split
  · next heq =>
    subst heq
    have hlt := (List.getElem?_eq_some_iff.1 h).1
    rw [getElem?_names h, List.length_map, if_pos hlt]
  · rfl

/-- Interning adds a name that is not there yet, and nothing else changes the names. -/
theorem names_change (op : Operation α) (l : Ledger α) :
    (l.change op).names =
      match op.interned? with
      | some name => if name ∈ l.names then l.names else l.names ++ [name]
      | none => l.names := by
  cases op with
  | intern name =>
    simp only [change, Operation.interned?]
    split
    · rfl
    · simp [names]
  -- an assignment that is refused changes nothing, and another keeps the name of its entry
  | assign index value =>
    simp only [change, Operation.interned?]
    cases ha : l.assign index value with
    | error error => rfl
    | ok l' =>
      obtain ⟨name, binding, hentry, -, rfl⟩ := assign_eq_ok_iff.1 ha
      exact names_set hentry _
  | _ => rfl

/-- An operation adds a name at the end or none. -/
theorem names_prefix_change (op : Operation α) (l : Ledger α) :
    l.names <+: (l.change op).names := by
  rw [names_change]
  cases op.interned? with
  | none => exact List.prefix_rfl
  | some name =>
    simp only
    split
    · exact List.prefix_rfl
    · exact List.prefix_append _ _

/-- Names keep their places. -/
theorem names_prefix_after (ops : List (Operation α)) (l : Ledger α) :
    l.names <+: (l.after ops).names := by
  induction ops generalizing l with
  | nil => exact List.prefix_rfl
  | cons op ops ih => exact (names_prefix_change op l).trans (ih _)

/-- No operation gives a name a second place. -/
theorem nodup_change (h : l.names.Nodup) (op : Operation α) : (l.change op).names.Nodup := by
  rw [names_change]
  cases op.interned? with
  | none => exact h
  | some name =>
    simp only
    split
    · exact h
    -- a name is added only where it is new
    · next hname => exact List.nodup_append_comm.1 (List.nodup_cons.2 ⟨hname, h⟩)

/-- Among different names there is nothing to erase. -/
theorem eraseDups_of_nodup {names : List String} (h : names.Nodup) : names.eraseDups = names := by
  induction names with
  | nil => rfl
  | cons name names ih =>
    obtain ⟨hname, hnames⟩ := List.nodup_cons.1 h
    have hfilter : names.filter (fun other => !other == name) = names := by
      refine List.filter_eq_self.2 fun other hother => ?_
      have hne : other ≠ name := fun heq => hname (heq ▸ hother)
      simp [hne]
    rw [List.eraseDups_cons, hfilter, ih hnames]

/-- The names are those that were there and those that were interned, each where it first came. -/
theorem names_after (h : l.names.Nodup) (ops : List (Operation α)) :
    (l.after ops).names = (l.names ++ ops.filterMap Operation.interned?).eraseDups := by
  induction ops generalizing l with
  | nil =>
    rw [List.filterMap_nil, List.append_nil, eraseDups_of_nodup h]
    rfl
  | cons op ops ih =>
    have hstep : (l.after (op :: ops)).names = ((l.change op).after ops).names := rfl
    rw [hstep, ih (nodup_change h op), names_change]
    cases hop : op.interned? with
    | none => rw [List.filterMap_cons_none hop]
    | some name =>
      simp only [List.filterMap_cons_some hop]
      split
      · next hname =>
        -- a name that is there already is taken off again
        have htaken : (name :: ops.filterMap Operation.interned?).removeAll l.names =
            (ops.filterMap Operation.interned?).removeAll l.names := by
          simp [List.removeAll, hname]
        rw [List.eraseDups_append, List.eraseDups_append, htaken]
      · rw [List.append_assoc, List.singleton_append]

/-- No name ever has two places. -/
theorem nodup_after (h : l.names.Nodup) (ops : List (Operation α)) : (l.after ops).names.Nodup := by
  induction ops generalizing l with
  | nil => exact h
  | cons op ops ih => exact ih (nodup_change h op)

end Ledger

/-! ## Bindings change one way -/

/-- What may become of a binding: it stays, or it is assigned where that is allowed. -/
inductive Binding.Becomes : Binding α → Binding α → Prop
  | same (b : Binding α) : Becomes b b
  | assigned {b : Binding α} (value : α) : b.isMutable = true → Becomes b (.assigned value)

/-- What becomes of a binding in the end it might have become at once: what was assigned can be
assigned again. -/
theorem Binding.Becomes.trans {b b' b'' : Binding α} (h : b.Becomes b') (h' : b'.Becomes b'') :
    b.Becomes b'' := by
  cases h' with
  | same => exact h
  | assigned value hmut =>
    cases h with
    | same => exact .assigned value hmut
    | assigned _ hmut' => exact .assigned value hmut'

namespace Ledger

variable {l : Ledger α} {index : Nat} {name : String} {binding : Binding α}

/-- What stands at a place stays there, and its binding changes one way. -/
theorem entry_change (h : l[index]? = some (name, binding)) (op : Operation α) :
    ∃ binding', (l.change op)[index]? = some (name, binding') ∧ binding.Becomes binding' := by
  have hlt := (List.getElem?_eq_some_iff.1 h).1
  cases op with
  | intern other =>
    refine ⟨binding, ?_, .same binding⟩
    rw [change]
    split
    · exact h
    · rw [List.getElem?_append_left hlt, h]
  | assign index' value =>
    rw [change]
    cases ha : l.assign index' value with
    | error error => exact ⟨binding, h, .same binding⟩
    | ok l' =>
      obtain ⟨name', binding', hentry, hmut, rfl⟩ := assign_eq_ok_iff.1 ha
      -- the place that is assigned may be this one
      by_cases heq : index' = index
      · subst heq
        cases h.symm.trans hentry
        exact ⟨.assigned value, List.getElem?_set_self hlt, .assigned value hmut⟩
      · refine ⟨binding, ?_, .same binding⟩
        rw [Except.toOption, Option.getD_some, List.getElem?_set_ne heq, h]
  | _ => exact ⟨binding, h, .same binding⟩

/-- Over any number of operations a binding changes one way. -/
theorem entry_after (h : l[index]? = some (name, binding)) (ops : List (Operation α)) :
    ∃ binding', (l.after ops)[index]? = some (name, binding') ∧ binding.Becomes binding' := by
  induction ops generalizing l binding with
  | nil => exact ⟨binding, h, .same binding⟩
  | cons op ops ih =>
    obtain ⟨binding', hchange, hbecomes⟩ := entry_change h op
    obtain ⟨binding'', hafter, hbecomes'⟩ := ih hchange
    exact ⟨binding'', hafter, hbecomes.trans hbecomes'⟩

/-- In a list of different names, a name is found at its place. -/
theorem lookup_eq_some_iff (h : l.names.Nodup) : List.lookup name l = some binding ↔
    ∃ index : Nat, l[index]? = some (name, binding) := by
  rw [← List.mem_iff_getElem?, List.lookup_eq_some_iff]
  constructor
  · rintro ⟨before, behind, rfl, -⟩
    exact List.mem_append_right _ List.mem_cons_self
  · intro hmem
    obtain ⟨before, behind, rfl⟩ := List.append_of_mem hmem
    refine ⟨before, behind, rfl, fun e he => ?_⟩
    -- the name stands behind, so it does not stand in front of that
    rw [names, List.map_append, List.map_cons, List.nodup_middle, List.nodup_cons,
      List.mem_append, not_or] at h
    have hne : name ≠ e.1 := fun heq => h.1.1 (List.mem_map.2 ⟨e, he, heq.symm⟩)
    simpa using hne

end Ledger

/-! ## What holds of tables -/

namespace SymbolTable

/-- What holds of a table at any time. -/
structure Lawful (t : SymbolTable α) : Prop where
  distinct : t.names.Nodup
  /-- Behind interning, the name stands at the place that was given, and nowhere else. -/
  place (name : String) (index : Nat) :
    (t.intern name).2.name index = .ok name ↔ index = (t.intern name).1
  known (name : String) : name ∈ t.names → (t.intern name).2 = t
  /-- A new name comes behind all others and is undefined. -/
  new (name : String) : name ∉ t.names → (t.intern name).1 = t.size ∧
    (t.intern name).2.toList = t.toList ++ [(name, .undefined)]
  lookup (name : String) (binding : Binding α) :
    t.lookup name = some binding ↔ ∃ index, t.name index = .ok name ∧ t.get index = .ok binding
  assignable (index : Nat) (value : α) : (∃ t', t.assign index value = .ok t') ↔
    ∃ binding, t.get index = .ok binding ∧ binding.isMutable = true
  assigned (index : Nat) (value : α) (t' : SymbolTable α) : t.assign index value = .ok t' →
    ∃ name, t.name index = .ok name ∧ t'.toList = t.toList.set index (name, .assigned value)
  /-- Where assigning fails, the error tells why, and the table is what it was. -/
  refused (index : Nat) (value : α) (error : SymbolError) : t.assign index value = .error error →
    t.change (.assign index value) = t ∧
      (t.size ≤ index ∧ error = .invalidIndex index t.size ∨
        ∃ name binding, t.name index = .ok name ∧ t.get index = .ok binding ∧
          binding.isMutable = false ∧ error = .immutable name)

/-- What holds of a table and a later one: names keep their places, and bindings change one way. -/
structure Precedes (t t' : SymbolTable α) : Prop where
  names : t.names <+: t'.names
  binding (index : Nat) (binding : Binding α) : t.get index = .ok binding →
    ∃ binding', t'.get index = .ok binding' ∧ binding.Becomes binding'

variable {t : SymbolTable α} {index : Nat} {name : String} {binding : Binding α}

/-- What stands at a place, by the two questions that can be asked about it. -/
theorem getElem?_toList_iff : t.toList[index]? = some (name, binding) ↔
    t.name index = .ok name ∧ t.get index = .ok binding := by
  rw [name_eq, get_eq, Ledger.entry]
  cases t.toList[index]? with
  | none => simp [Except.map]
  | some e => simp [Except.map, Prod.ext_iff]

/-- The name at a place is known just if the list of names has one there. -/
theorem name_eq_ok_iff : t.name index = .ok name ↔ t.names[index]? = some name := by
  rw [name_eq, Ledger.entry, names, Ledger.names, List.getElem?_map]
  cases t.toList[index]? <;> simp [Except.map]

/-- Where there is a binding there is a name that has it. -/
theorem exists_name_of_get (h : t.get index = .ok binding) :
    ∃ name, t.toList[index]? = some (name, binding) := by
  rw [get_eq, Ledger.entry] at h
  cases he : t.toList[index]? with
  | none => simp [he, Except.map] at h
  | some e =>
    simp only [he, Except.map, Except.ok.injEq] at h
    exact ⟨e.1, by rw [← h]⟩

/-- A table of different names is lawful. -/
theorem lawful_of_nodup (h : t.names.Nodup) : t.Lawful where
  distinct := h
  place name index := by
    have hnodup : (t.intern name).2.names.Nodup := by
      rw [names, intern_toList]
      exact Ledger.nodup_change h _
    have hplace := indexOf?_intern t name
    rw [indexOf?_toList] at hplace
    -- the name is in the table now, whether it was before or not
    split at hplace
    · next hmem =>
      rw [name_eq_ok_iff, ← Option.some.inj hplace, List.getElem?_eq_some_iff]
      constructor
      · rintro ⟨hlt, heq⟩
        have hidx := hnodup.idxOf_getElem index hlt
        rw [heq] at hidx
        exact hidx.symm
      · rintro rfl
        exact ⟨List.idxOf_lt_length_iff.2 hmem, List.getElem_idxOf _⟩
    · cases hplace
  known name hname := by
    unfold intern
    rw [indexOf?_toList, if_pos hname]
  new name hname := by
    refine ⟨?_, ?_⟩
    · rw [fst_intern_toList, List.idxOf_eq_length hname, names, Ledger.names, List.length_map,
        length_toList]
    · rw [intern_toList]
      exact if_neg hname
  lookup name binding := by
    rw [lookup_toList, Ledger.lookup_eq_some_iff h]
    exact exists_congr fun _ => getElem?_toList_iff
  assignable index value := by
    constructor
    · rintro ⟨t', ht'⟩
      have hlist := congrArg (Except.map toList) ht'
      rw [assign_toList] at hlist
      obtain ⟨name, binding, hentry, hmut, -⟩ := Ledger.assign_eq_ok_iff.1 hlist
      exact ⟨binding, (getElem?_toList_iff.1 hentry).2, hmut⟩
    · rintro ⟨binding, hget, hmut⟩
      obtain ⟨name, hentry⟩ := exists_name_of_get hget
      have hlist : Ledger.assign t.toList index value =
          .ok (t.toList.set index (name, .assigned value)) :=
        Ledger.assign_eq_ok_iff.2 ⟨name, binding, hentry, hmut, rfl⟩
      rw [← assign_toList] at hlist
      cases ht' : t.assign index value with
      | error error => simp [ht', Except.map] at hlist
      | ok t' => exact ⟨t', rfl⟩
  assigned index value t' ht' := by
    have hlist := congrArg (Except.map toList) ht'
    rw [assign_toList] at hlist
    obtain ⟨name, binding, hentry, -, hset⟩ := Ledger.assign_eq_ok_iff.1 hlist
    exact ⟨name, (getElem?_toList_iff.1 hentry).1, hset⟩
  refused index value error herror := by
    refine ⟨by rw [change, herror]; rfl, ?_⟩
    have hlist := congrArg (Except.map toList) herror
    rw [assign_toList] at hlist
    rcases Ledger.assign_eq_error_iff.1 hlist with ⟨hnone, rfl⟩ | ⟨name, binding, hentry, hmut, rfl⟩
    · rw [List.getElem?_eq_none_iff] at hnone
      exact Or.inl ⟨by rwa [← length_toList], by rw [length_toList]⟩
    · obtain ⟨hname, hget⟩ := getElem?_toList_iff.1 hentry
      exact Or.inr ⟨name, binding, hname, hget, hmut, rfl⟩

/-- Operations lead from a table to a later one. -/
theorem precedes_after (t : SymbolTable α) (ops : List (Operation α)) :
    t.Precedes (t.after ops) where
  names := by
    rw [names, names, toList_after]
    exact Ledger.names_prefix_after ops t.toList
  binding index binding hget := by
    obtain ⟨name, hentry⟩ := exists_name_of_get hget
    -- the entry of the name is followed through the operations in the list
    obtain ⟨binding', hafter, hbecomes⟩ := Ledger.entry_after hentry ops
    rw [← toList_after] at hafter
    exact ⟨binding', (getElem?_toList_iff.1 hafter).2, hbecomes⟩

theorem after_append (ops more : List (Operation α)) (t : SymbolTable α) :
    t.after (ops ++ more) = (t.after ops).after more := List.foldl_append

/-- The tables that there are to start with. -/
inductive Origin where
  | empty
  | standard

/-- The table with no names, and the one in which a session starts. -/
def Origin.table [Arithmetic α] : Origin → SymbolTable α
  | .empty => .empty
  | .standard => .standard

/-- Neither has a name twice. -/
theorem Origin.nodup [Arithmetic α] (origin : Origin) :
    (origin.table : SymbolTable α).names.Nodup := by
  cases origin with
  | empty => simp [Origin.table, names, Ledger.names, SymbolTable.empty, toList]
  | standard =>
    simp [Origin.table, names, Ledger.names, SymbolTable.standard, standardBindings, constants,
      functions, last]

end SymbolTable

/-! ## Evaluations -/

namespace Evaluation

variable [Arithmetic α] {e e' : Evaluation α}

omit [Arithmetic α] in
/-- Reading is interning names. -/
theorem exists_after_of_reads {m m' : Memory α} (h : m.Reads m') :
    ∃ ops, m'.table = m.table.after ops := by
  obtain ⟨names, hnames⟩ := h.table
  exact ⟨names.map .intern, by rw [hnames, SymbolTable.after, List.foldl_map]; rfl⟩

/-- Whatever happens to an evaluation happens to its table by operations. -/
theorem Move.exists_after (h : Move e e') :
    ∃ ops, e'.session.table = e.session.table.after ops := by
  cases h with
  | switch source => exact ⟨[], rfl⟩
  | peek =>
    rw [session_peek]
    exact exists_after_of_reads e.reads_advance
  | advance => exact exists_after_of_reads e.reads_advance
  | report problem => exact ⟨[], rfl⟩
  | intern name => exact ⟨[.intern name], rfl⟩
  -- the session's assignment is the table's, and succeeded
  | @assign _ index value session ha =>
    refine ⟨[.assign index value], ?_⟩
    unfold Session.assign at ha
    cases ht : e.session.table.assign index value with
    | error error => simp [ht, Except.map] at ha
    | ok table =>
      simp only [ht, Except.map, Except.ok.injEq] at ha
      rw [← ha]
      simp [SymbolTable.after, SymbolTable.change, ht, Except.toOption]
  | draw => exact ⟨[], rfl⟩

/-- So whatever moves are made, the table goes through operations. The induction is on the moves. -/
theorem Leads.exists_after (h : Leads e e') :
    ∃ ops, e'.session.table = e.session.table.after ops := by
  induction h with
  | refl => exact ⟨[], rfl⟩
  | tail _ move ih =>
    obtain ⟨ops, hops⟩ := ih
    obtain ⟨more, hmore⟩ := move.exists_after
    exact ⟨ops ++ more, by rw [hmore, hops, SymbolTable.after_append]⟩

end Evaluation

/-! ## The contract of the table -/

/-- From the standard table or the empty one, and by whatever operations: the table answers as the
ledger does, its names are those that were interned in the order of their first time, and what holds
of a table at any time and of a table and a later one holds of it. An evaluation that starts with
the table only ever goes on by operations, up to the end of a run and beyond. -/
theorem SymbolTable.keeps_ledger [Arithmetic α] (origin : Origin)
    (ops more : List (Operation α)) (draws : Draws α) :
    origin.table.answers ops draws = Ledger.answers ops origin.table.toList draws ∧
    (origin.table.after ops).toList = Ledger.after ops origin.table.toList ∧
    (origin.table.after ops).names =
      ((origin.table : SymbolTable α).names ++ ops.filterMap Operation.interned?).eraseDups ∧
    (origin.table.after ops).Lawful ∧
    (origin.table.after ops).Precedes (origin.table.after (ops ++ more)) ∧
    ∀ (log : ErrorLog) (source : LineSource),
      (∀ e, Evaluation.Leads (.start source ⟨origin.table.after ops, log, draws⟩) e →
        ∃ more, e.session.table = origin.table.after (ops ++ more)) ∧
      ∀ w, Evaluation.Leads (.start source ⟨origin.table.after ops, log, draws⟩)
        ((Session.start source ⟨origin.table.after ops, log, draws⟩).run w).2.2 := by
  have hnames := Ledger.names_after origin.nodup ops
  rw [← toList_after] at hnames
  have hnodup : (origin.table.after ops).names.Nodup := by
    rw [names, toList_after]
    exact Ledger.nodup_after origin.nodup ops
  refine ⟨answers_eq ops _ draws, toList_after ops _, hnames, lawful_of_nodup hnodup, ?_, ?_⟩
  · rw [after_append]
    exact precedes_after _ more
  · intro log source
    refine ⟨fun e hleads => ?_, fun w => ?_⟩
    · obtain ⟨more, hmore⟩ := hleads.exists_after
      exact ⟨more, by rw [after_append]; exact hmore⟩
    · -- a run starts from the first line of the source
      exact (Evaluation.Move.switch source _).leads.trans (Evaluation.leads_run w _)

end DeskCalc
