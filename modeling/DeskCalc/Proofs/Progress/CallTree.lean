import Mathlib.Logic.Relation

/-!
# Procedures that call each other

Nothing says of procedures that call each other that a call ever comes to an end. Here a procedure
is what one call of it does: it makes further calls, one after another and each with the answers so
far in hand, and at last it gives its result. Calls are carried out to some depth only, so what does
not end has no result at any depth.

* `CallTree` — what one call does; `ask` makes another one.
* `CallTree.outcome`, `CallTree.calls` — its result and the calls that it makes, given the answers
  to these.
* `Procedures.perform` — carries out a call to some depth.
* `Procedures.Solved` — the answers are known, and every call makes calls of lower rank only. The
  answers matter for that: how far a call has read decides what the next one finds.
* `Solved.perform` — then every call ends, no deeper than its rank.
* `Procedures.Involves` — the calls that a call leads to, at any depth.
-/

namespace DeskCalc

variable {C : Type} {A : C → Type} {R S : Type}

/-- What a call does: it gives its result, or it makes another call and goes on with the answer. -/
inductive CallTree (C : Type) (A : C → Type) (R : Type) where
  | result (r : R)
  | call (c : C) (next : A c → CallTree C A R)

namespace CallTree

protected def bind : CallTree C A R → (R → CallTree C A S) → CallTree C A S
  | .result r, f => f r
  | .call c next, f => .call c fun a => (next a).bind f

instance : Monad (CallTree C A) where
  pure := .result
  bind := .bind

/-- Makes a call and gives its answer. -/
def ask (c : C) : CallTree C A (A c) := .call c .result

/-- The result, given the answers to the calls. -/
def outcome (answer : (c : C) → A c) : CallTree C A R → R
  | .result r => r
  | .call c next => (next (answer c)).outcome answer

/-- The calls that are made if they are answered like that. -/
def calls (answer : (c : C) → A c) : CallTree C A R → List C
  | .result _ => []
  | .call c next => c :: (next (answer c)).calls answer

/-- The result if every call is carried out in the given way, unless one of them comes to none. -/
def within (perform : (c : C) → Option (A c)) : CallTree C A R → Option R
  | .result r => some r
  | .call c next => (perform c).bind fun a => (next a).within perform

section

variable (answer : (c : C) → A c) (c : C) (r : R) (t : CallTree C A R) (f : R → CallTree C A S)

@[simp] theorem outcome_pure : outcome answer (pure r : CallTree C A R) = r := rfl

@[simp] theorem calls_pure : calls answer (pure r : CallTree C A R) = [] := rfl

@[simp] theorem outcome_ask : outcome answer (ask c) = answer c := rfl

@[simp] theorem calls_ask : calls answer (ask c) = [c] := rfl

@[simp] theorem outcome_bind :
    outcome answer (t >>= f) = outcome answer (f (t.outcome answer)) := by
  induction t with
  | result r => rfl
  | call c next ih => exact ih (answer c)

@[simp] theorem calls_bind :
    calls answer (t >>= f) = t.calls answer ++ (f (t.outcome answer)).calls answer := by
  induction t with
  | result r => rfl
  | call c next ih => exact congrArg (c :: ·) (ih (answer c))

theorem mem_calls_ask_bind {answer : (c : C) → A c} {c c' : C} {f : A c → CallTree C A R} :
    c' ∈ calls answer (ask c >>= f) ↔ c' = c ∨ c' ∈ (f (answer c)).calls answer := by
  simp

end

/-- Where all calls come to their answers, so does the whole. -/
theorem within_eq {answer : (c : C) → A c} {perform : (c : C) → Option (A c)} {t : CallTree C A R}
    (h : ∀ c ∈ t.calls answer, perform c = some (answer c)) :
    t.within perform = some (t.outcome answer) := by
  -- by induction on the tree: the answer to the first call decides which calls come next
  induction t with
  | result r => rfl
  | call c next ih =>
    obtain ⟨hc, hnext⟩ := List.forall_mem_cons.1 h
    rw [within, hc, Option.bind_some, ih _ hnext]
    rfl

end CallTree

/-! ## Procedures -/

/-- What each call does. -/
abbrev Procedures (C : Type) (A : C → Type) : Type := (c : C) → CallTree C A (A c)

namespace Procedures

variable {p : Procedures C A} {answer : (c : C) → A c} {Valid : C → Prop} {rank : C → Nat}

/-- Carries out a call, as long as calls are not nested deeper than that. -/
def perform (p : Procedures C A) : Nat → (c : C) → Option (A c)
  | 0, _ => none
  | depth + 1, c => (p c).within (p.perform depth)

/-- One call leads to another, directly or through calls in between. -/
def Involves (p : Procedures C A) (answer : (c : C) → A c) : C → C → Prop :=
  Relation.ReflTransGen fun c c' => c' ∈ (p c).calls answer

/-- Valid calls have these results if the calls that they make are answered like that, and these are
valid calls of lower rank. -/
structure Solved (p : Procedures C A) (answer : (c : C) → A c) (Valid : C → Prop)
    (rank : C → Nat) : Prop where
  outcome : ∀ c, Valid c → (p c).outcome answer = answer c
  calls : ∀ c, Valid c → ∀ c' ∈ (p c).calls answer, Valid c' ∧ rank c' < rank c

/-- Every call ends with its answer, and calls are not nested deeper than its rank says. -/
theorem Solved.perform (h : p.Solved answer Valid rank) {c : C} (hc : Valid c) {depth : Nat}
    (hdepth : rank c < depth) : p.perform depth c = some (answer c) := by
  -- the induction is on the depth, which exceeds the rank; the calls that are made have lower ranks
  induction depth generalizing c with
  | zero => omega
  | succ depth ih =>
    rw [Procedures.perform, ← h.outcome c hc]
    refine CallTree.within_eq fun c' hc' => ?_
    obtain ⟨hvalid, hlt⟩ := h.calls c hc c' hc'
    exact ih hvalid (by omega)

/-- What every call hands on to the calls that it makes holds at any depth. -/
theorem Involves.of_calls {P : C → Prop}
    (h : ∀ c, P c → ∀ c' ∈ (p c).calls answer, P c') {c c' : C} (hc : P c)
    (hinvolves : p.Involves answer c c') : P c' := by
  induction hinvolves with
  | refl => exact hc
  | tail _ hmem ih => exact h _ ih _ hmem

end Procedures

end DeskCalc
