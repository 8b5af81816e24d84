import DeskCalc.CommandLine.Arguments
import Mathlib.Data.List.Sort

/-!
# Arguments for given inputs

Every list of texts and of files can be asked for by some arguments, as long as no file has the name
of an option: each input behind its own option. The kinds of inputs are collected apart, and are put
back in the order in which they were asked for.

* `Input.arguments` — an option and what it takes.
* `markExpressions_arguments` — no argument needs a mark.
* `matchFrom_arguments` — each input is collected, with its place.
* `readArguments_arguments` — reading the arguments gives the inputs back.
-/

namespace DeskCalc.CommandLine

namespace Input

/-- The arguments that ask for an input. -/
def arguments : Input → List String
  | .text content => ["-e", content]
  | .file path => ["-f", path]
  | .version => ["--version"]

/-- Texts, and files whose names do not look like options. -/
inductive Plain : Input → Prop
  | text (content : String) : Plain (.text content)
  | file (path : String) (h : isHyphenLed path = false) : Plain (.file path)

/-- Marking passes over the arguments of an input, which are none of those that it marks. -/
theorem Plain.markExpressions {input : Input} (h : input.Plain) (rest : List String) :
    markExpressions (input.arguments ++ rest) = input.arguments ++ markExpressions rest := by
  cases h with
  -- the option is passed over together with its value
  | text content =>
    show CommandLine.markExpressions ("-e" :: content :: rest) = _
    rw [CommandLine.markExpressions, if_pos (Or.inl rfl)]
    rfl
  | file path _ =>
    show CommandLine.markExpressions ("-f" :: path :: rest) = _
    rw [CommandLine.markExpressions, if_pos (Or.inr rfl)]
    rfl

/-- The input is collected with its place. -/
theorem Plain.matchFrom {input : Input} (h : input.Plain) (place : Nat) (m : Matches)
    (rest : List String) :
    ∃ m', matchFrom place m (input.arguments ++ rest) = matchFrom (place + 2) m' rest ∧
      m'.placed.Perm ((place + 1, input) :: m.placed) := by
  cases h with
  | text content =>
    refine ⟨m.addExpression (place + 1) content, rfl, ?_⟩
    simp only [Matches.placed, Matches.addExpression, List.map_append, List.append_assoc]
    exact List.perm_middle
  | file path hpath =>
    refine ⟨m.addFile (place + 1) path, if_neg (by simp [hpath]), ?_⟩
    simp only [Matches.placed, Matches.addFile, List.map_append, List.append_assoc]
    exact (List.perm_middle.append_left _).trans List.perm_middle

end Input

/-- The inputs with their places, where each takes an option and a value. -/
def places : Nat → List Input → List (Nat × Input)
  | _, [] => []
  | place, input :: inputs => (place + 1, input) :: places (place + 2) inputs

theorem map_snd_places (place : Nat) (inputs : List Input) :
    (places place inputs).map (·.2) = inputs := by
  induction inputs generalizing place with
  | nil => rfl
  | cons input inputs ih => rw [places, List.map_cons, ih]

/-- Inputs stand behind the place that they are counted from. -/
theorem lt_of_mem_places {place : Nat} {inputs : List Input} {a : Nat × Input}
    (h : a ∈ places place inputs) : place < a.1 := by
  induction inputs generalizing place with
  | nil => cases h
  | cons input inputs ih =>
    rcases List.mem_cons.1 h with rfl | h
    · exact Nat.lt_succ_self place
    · have := ih h
      omega

/-- The places are in the order of the inputs. -/
theorem pairwise_places (place : Nat) (inputs : List Input) :
    (places place inputs).Pairwise fun a b => a.1 < b.1 := by
  induction inputs generalizing place with
  | nil => exact .nil
  | cons input inputs ih =>
    refine .cons (fun b hb => ?_) (ih (place + 2))
    have := lt_of_mem_places hb
    show place + 1 < b.1
    omega

/-- Sorting puts collected inputs back in the order of their places. -/
theorem Matches.inputs_of_increasing {m : Matches} {placed : List (Nat × Input)}
    (h : m.placed.Perm placed) (hplaced : placed.Pairwise fun a b => a.1 < b.1) :
    m.inputs = placed.map (·.2) := by
  have hperm := (List.mergeSort_perm m.placed fun a b => a.1 ≤ b.1).trans h
  have hsorted : (m.placed.mergeSort fun a b => a.1 ≤ b.1).Pairwise fun a b => a.1 ≤ b.1 := by
    simpa only [decide_eq_true_eq] using List.pairwise_mergeSort
      (fun a b c hab hbc => decide_eq_true ((of_decide_eq_true hab).trans (of_decide_eq_true hbc)))
      (fun a b => by simpa using Nat.le_total a.1 b.1) m.placed
  -- no two inputs have the same place, so that there is one order only
  have hdistinct : (m.placed.mergeSort fun a b => a.1 ≤ b.1).Pairwise fun a b => a.1 ≠ b.1 :=
    hperm.symm.pairwise (hplaced.imp Nat.ne_of_lt) Ne.symm
  have hstrict := hsorted.imp₂ (fun a b => Nat.lt_of_le_of_ne) hdistinct
  have hsame := hperm.eq_of_pairwise
    (fun a b _ _ hab hba => absurd hab (Nat.lt_asymm hba)) hstrict hplaced
  rw [Matches.inputs, hsame]

/-- Marking does not change the arguments of inputs. -/
theorem markExpressions_arguments {inputs : List Input} (h : ∀ input ∈ inputs, input.Plain) :
    markExpressions (inputs.flatMap Input.arguments) = inputs.flatMap Input.arguments := by
  induction inputs with
  | nil => rfl
  | cons input inputs ih =>
    have hrest := ih fun input hmem => h input (List.mem_cons_of_mem _ hmem)
    rw [List.flatMap_cons, (h input List.mem_cons_self).markExpressions, hrest]

/-- The arguments of inputs are matched, and all of the inputs are collected with their places. -/
theorem matchFrom_arguments {inputs : List Input} (h : ∀ input ∈ inputs, input.Plain) (place : Nat)
    (m : Matches) : ∃ m', matchFrom place m (inputs.flatMap Input.arguments) = .ok m' ∧
      m'.placed.Perm (places place inputs ++ m.placed) := by
  -- each input takes two arguments, so the places go up by two
  induction inputs generalizing place m with
  | nil => exact ⟨m, rfl, .refl _⟩
  | cons input inputs ih =>
    have hrest := ih fun input hmem => h input (List.mem_cons_of_mem _ hmem)
    rw [List.flatMap_cons]
    obtain ⟨m', hmatch, hperm⟩ := (h input List.mem_cons_self).matchFrom place m
      (inputs.flatMap Input.arguments)
    obtain ⟨m'', hmatch', hperm'⟩ := hrest (place + 2) m'
    refine ⟨m'', hmatch.trans hmatch', hperm'.trans ?_⟩
    calc places (place + 2) inputs ++ m'.placed
        |>.Perm (places (place + 2) inputs ++ (place + 1, input) :: m.placed) :=
          hperm.append_left _
      _ |>.Perm ((place + 1, input) :: (places (place + 2) inputs ++ m.placed)) :=
          List.perm_middle

/-- Reading the arguments that ask for some inputs gives the inputs. -/
theorem readArguments_arguments {inputs : List Input} (h : ∀ input ∈ inputs, input.Plain) :
    readArguments (inputs.flatMap Input.arguments) = .ok inputs := by
  obtain ⟨m, hmatch, hperm⟩ := matchFrom_arguments h 0 {}
  rw [readArguments, markExpressions_arguments h, hmatch]
  have hplaced : m.placed.Perm (places 0 inputs) := hperm.trans (.of_eq (List.append_nil _))
  have hinputs := Matches.inputs_of_increasing hplaced (pairwise_places 0 inputs)
  rw [map_snd_places] at hinputs
  exact congrArg Except.ok hinputs

end DeskCalc.CommandLine
