/-!
# Cutting a sequence into lines

`splitAfter stop` cuts a sequence after every element that is `stop`. All pieces but the last end in
`stop`, and together they are the sequence.
-/

namespace DeskCalc.Text

variable {β : Type} [DecidableEq β]

/-- The pieces of a sequence, each up to and including the next `stop`. -/
def splitAfter (stop : β) (xs : List β) : List (List β) :=
  xs.foldr (fun x pieces =>
    if x = stop then [x] :: pieces
    else match pieces with
      | [] => [[x]]
      | piece :: pieces => (x :: piece) :: pieces) []

@[simp] theorem splitAfter_nil (stop : β) : splitAfter stop [] = [] := rfl

theorem splitAfter_stop (stop : β) (xs : List β) :
    splitAfter stop (stop :: xs) = [stop] :: splitAfter stop xs := by
  simp [splitAfter]

theorem splitAfter_cons {stop x : β} (h : x ≠ stop) (xs : List β) :
    splitAfter stop (x :: xs) =
      match splitAfter stop xs with
      | [] => [[x]]
      | piece :: pieces => (x :: piece) :: pieces := by
  simp [splitAfter, h]

/-- The pieces of a sequence put together are the sequence. -/
theorem flatten_splitAfter (stop : β) (xs : List β) : (splitAfter stop xs).flatten = xs := by
  induction xs with
  | nil => rfl
  | cons x xs ih =>
    by_cases h : x = stop
    · subst h
      simp [splitAfter_stop, ih]
    · rw [splitAfter_cons h]
      split <;> simp_all

end DeskCalc.Text
