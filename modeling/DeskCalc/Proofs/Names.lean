import DeskCalc.Proofs.Calls
import DeskCalc.Proofs.Reachable

/-!
# What names are bound to

A table by its names. In which order they were met, and so at which places they stand, does not show
then: a name that has no place yet is undefined, and so it is with a place of its own.

* `SymbolTable.binding` — what a name is bound to.
* `entry_of_indexOf?` — at the place of a name stands the name with its binding.
* `indexOf?_of_prefix`, `indexOf?_intern` — a name keeps its place, and interning gives it one.
* `binding_intern`, `binding_assign` — what happens to the bindings.
* `Evaluation.table_remember` — remembering a value binds the last result to it, and does nothing
  else.
* `Evaluation.Ready.binding_last` — so it does behind an expression.
-/

namespace DeskCalc

variable {α : Type}

namespace SymbolTable

variable {t t' : SymbolTable α} {name : String} {index : Nat} {value : α}

/-- What a name is bound to. A name without a place was never assigned. -/
def binding (t : SymbolTable α) (name : String) : Binding α := (t.lookup name).getD .undefined

/-- At the place of a name stands the name with its binding. -/
theorem entry_of_indexOf? (h : t.indexOf? name = some index) :
    t.entry index = .ok ⟨name, t.binding name⟩ := by
  obtain ⟨hlt, hname, -⟩ := Array.findIdx?_eq_some_iff_getElem.1 h
  have hentry : t.entry index = .ok t.entries[index] := by simp [entry, hlt]
  rw [binding, lookup_eq, h, Option.bind_some, get, hentry, ← eq_of_beq hname]
  rfl

theorem get_of_indexOf? (h : t.indexOf? name = some index) :
    t.get index = .ok (t.binding name) := by
  rw [get, entry_of_indexOf? h]
  rfl

theorem value?_eq (t : SymbolTable α) (name : String) :
    t.value? name = (t.binding name).value? := by
  rw [value?, binding]
  cases t.lookup name <;> rfl

theorem binding_of_indexOf?_none (h : t.indexOf? name = none) : t.binding name = .undefined := by
  rw [binding, lookup_eq, h]
  rfl

/-! ## Places -/

/-- A name keeps its place. -/
theorem indexOf?_of_prefix (h : t.indexOf? name = some index) (hfaces : t.faces <+: t'.faces) :
    t'.indexOf? name = some index := by
  obtain ⟨more, hmore⟩ := hfaces
  rw [indexOf?_eq_findIdx?] at h ⊢
  rw [← hmore, List.findIdx?_append, h]
  rfl

/-- Behind interning a name, the name has the place that was given out. -/
theorem indexOf?_intern (t : SymbolTable α) (name : String) :
    (t.intern name).2.indexOf? name = some (t.intern name).1 := by
  rw [indexOf?_eq_findIdx?, faces_intern, fst_intern]
  cases hi : t.indexOf? name with
  | some index =>
    rw [Option.isSome_some, if_pos rfl, ← indexOf?_eq_findIdx?, hi]
    rfl
  | none =>
    rw [indexOf?_eq_findIdx?] at hi
    simp [List.findIdx?_append, hi, length_faces]

/-! ## Bindings -/

/-- Interning a name changes no binding, since a new name is unbound before and behind it. -/
theorem binding_intern (t : SymbolTable α) (name other : String) :
    (t.intern name).2.binding other = t.binding other := by
  unfold intern binding lookup
  cases hi : t.indexOf? name with
  | some index => rfl
  | none =>
    -- the new name comes behind all others and is undefined, as it is without a place
    simp only [Array.push_eq_append, Array.find?_append]
    cases hfind : t.entries.find? (·.name == other) with
    | some entry => simp
    | none => by_cases hother : name = other <;> simp [hother]

/-- Behind an assignment its place has the value, and the other places have what they had. -/
theorem get_assign (h : t.assign index value = .ok t') (i : Nat) :
    t'.get i = if i = index then .ok (.assigned value) else t.get i := by
  unfold assign entry at h
  -- the assignment succeeded, so there is an entry, and its binding can be assigned
  cases he : t.entries[index]? with
  | none => simp [he] at h
  | some e =>
    simp only [he] at h
    split at h
    · cases h
      have hlt := (Array.getElem?_eq_some_iff.1 he).1
      by_cases hi : i = index
      · subst hi
        simp [get, entry, hlt, Except.map]
      · rw [if_neg hi]
        simp [get, entry, Array.getElem?_setIfInBounds_ne (Ne.symm hi), size]
    · cases h

/-- Assigning the place of a name binds the name, and no other one. -/
theorem binding_assign (hindex : t.indexOf? name = some index)
    (h : t.assign index value = .ok t') (other : String) :
    t'.binding other = if other = name then .assigned value else t.binding other := by
  have hplaces : ∀ other, t'.indexOf? other = t.indexOf? other := fun other => by
    rw [indexOf?_eq_findIdx?, indexOf?_eq_findIdx?, faces_assign h]
  by_cases hother : other = name
  · subst hother
    have hget := get_of_indexOf? ((hplaces other).trans hindex)
    rw [get_assign h, if_pos rfl] at hget
    rw [if_pos rfl]
    exact (Except.ok.inj hget).symm
  · rw [if_neg hother]
    cases hi : t.indexOf? other with
    | none =>
      rw [binding_of_indexOf?_none ((hplaces other).trans hi), binding_of_indexOf?_none hi]
    | some i =>
      -- two names do not stand at one place
      have hne : i ≠ index := by
        rintro rfl
        have hsame := (entry_of_indexOf? hi).symm.trans (entry_of_indexOf? hindex)
        exact hother (congrArg SymbolEntry.name (Except.ok.inj hsame))
      have hget := get_of_indexOf? ((hplaces other).trans hi)
      rw [get_assign h, if_neg hne, get_of_indexOf? hi] at hget
      exact (Except.ok.inj hget).symm

/-- What becomes of an assignment depends on the name and its binding alone. -/
theorem assign_of_indexOf? (h : t.indexOf? name = some index) (value : α) :
    (t.binding name).isMutable = true ∧ (∃ t', t.assign index value = .ok t') ∨
      (t.binding name).isMutable = false ∧ t.assign index value = .error (.immutable name) := by
  unfold assign
  rw [entry_of_indexOf? h]
  cases hb : (t.binding name).isMutable with
  | true => exact Or.inl ⟨rfl, _, if_pos hb⟩
  | false => exact Or.inr ⟨rfl, if_neg (by simp [hb])⟩

end SymbolTable

/-! ## The last result -/

namespace Evaluation

variable [Arithmetic α] {e : Evaluation α}

/-- Remembering a value makes it the last result, and does nothing else. -/
theorem table_remember (h : e.session.table.Reachable) (value : α) :
    ∃ t : SymbolTable α, e.remember value = { e with session := { e.session with table := t } } ∧
      ∀ name, t.binding name =
        if name = SymbolTable.last then .assigned value else e.session.table.binding name := by
  obtain ⟨t, ht⟩ := h.assign_last value
  refine ⟨t, ?_, fun name => ?_⟩
  -- the last result can be assigned, so remembering does not report
  · have hassign : (e.session.intern SymbolTable.last).2.assign
        (e.session.intern SymbolTable.last).1 value = .ok { e.session with table := t } := by
      simp [Session.assign, Session.intern, ht, Except.map]
    unfold remember assign
    simp only [hassign]
  · rw [SymbolTable.binding_assign (SymbolTable.indexOf?_intern _ _) ht,
      SymbolTable.binding_intern]

/-- What a statement gives is what its body gives, and there is a first token. -/
theorem eq_body_of_statement {statement : Statement α} (h : e.statement.1 = some statement) :
    e.toStatement.current.kind ≠ .finish ∧ statement = e.toStatement.body.1 := by
  have hne : e.toStatement.current.kind ≠ .finish := by
    intro hk
    rw [statement_of_finish hk] at h
    cases h
  rw [statement_of_ne_finish hne] at h
  exact ⟨hne, (Option.some.inj h).symm⟩

/-- The value of an expression is the last result behind it. -/
theorem Ready.binding_last (hready : e.Ready) (htable : e.session.table.Reachable) {value : α}
    (h : e.statement.1 = some (.expression value)) :
    e.statement.2.session.table.binding SymbolTable.last = .assigned value := by
  -- the value is remembered when the rest of the statement has been passed over
  obtain ⟨hne, hbody⟩ := eq_body_of_statement h
  have hend := table_conclude e.toStatement.session.errorCount
    (hready.settled_toStatement.reaches_body.table (table_reads e.reads_toStatement htable))
  obtain ⟨t, hremember, hbinding⟩ := table_remember hend value
  rw [statement_of_ne_finish hne]
  simp only [← hbody]
  rw [rememberStatement, hremember]
  exact (hbinding SymbolTable.last).trans (if_pos rfl)

end Evaluation

end DeskCalc
