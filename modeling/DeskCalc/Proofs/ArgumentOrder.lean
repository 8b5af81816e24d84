import DeskCalc.Proofs.Requests

/-!
# Arguments in order

Arguments are dealt with in the order in which they stand, each as it stands. On the way they are
marked, matched with the options, collected kind by kind and put back in order; none of that shows.

The matching itself is left open. All that is asked of a matcher is that it keeps to the options as
they are declared and says at which places it found what (`Conforms`). By their declaration a value
may be attached to the letter of its option, and letters may share a hyphen, so that without the
marks `-e1` would be the text `1`.

* `Asks` — what arguments ask for, read from left to right.
* `Declared` — what arguments are to the declared options, whether they are marked or not.
* `asks_of_declared` — with the marks, the options see what the arguments ask for.
* `Matches.Collects` — what was found at increasing places is collected kind by kind.
* `Matches.Collects.inputs` — put back in order, what was collected is what was found.
* `conforms_matchFrom` — matching from the first argument on keeps to the options.
* `Conforms.inputs_in_order` — so the inputs are those that the arguments ask for.
-/

namespace DeskCalc.CommandLine

/-! ## What arguments ask for -/

/-- The arguments that are no texts, unless they are the value of an option or stand behind `--`. -/
def reserved : List String := ["-e", "-f", "-V", "--version", "--"]

/-- The inputs that arguments ask for. The rules take the arguments off from the left, each of them
once. -/
inductive Asks : List String → List Input → Prop
  | nil : Asks [] []
  /-- Behind `-e` stands a text, whatever it looks like. -/
  | expression {option text : String} {rest : List String} {inputs : List Input} :
    option = "-e" → Asks rest inputs → Asks (option :: text :: rest) (.text text :: inputs)
  | file {option path : String} {rest : List String} {inputs : List Input} :
    option = "-f" → Asks rest inputs → Asks (option :: path :: rest) (.file path :: inputs)
  | version {option : String} {rest : List String} {inputs : List Input} :
    option = "-V" ∨ option = "--version" →
    Asks rest inputs → Asks (option :: rest) (.version :: inputs)
  /-- Behind `--` there are texts only. -/
  | texts {option : String} (rest : List String) :
    option = "--" → Asks (option :: rest) (rest.map .text)
  | text {argument : String} {rest : List String} {inputs : List Input} :
    argument ∉ reserved → Asks rest inputs → Asks (argument :: rest) (.text argument :: inputs)

/-- Arguments ask for one list of inputs at most. -/
theorem Asks.unique {arguments : List String} {inputs inputs' : List Input}
    (h : Asks arguments inputs) (h' : Asks arguments inputs') : inputs' = inputs := by
  -- the first argument decides which rule it is, so the rules of both are the same
  induction h generalizing inputs' with
  | nil =>
    cases h'
    rfl
  | expression hoption _ ih =>
    subst hoption
    cases h' with
    | expression _ h' => rw [ih h']
    | file h | version h | texts _ h => simp at h
    | text h => simp [reserved] at h
  | file hoption _ ih =>
    subst hoption
    cases h' with
    | file _ h' => rw [ih h']
    | expression h | version h | texts _ h => simp at h
    | text h => simp [reserved] at h
  | version hoption _ ih =>
    cases h' with
    | version _ h' => rw [ih h']
    | expression h | file h | texts _ h => simp [h] at hoption
    | text h => rcases hoption with rfl | rfl <;> simp [reserved] at h
  | texts rest hoption =>
    subst hoption
    cases h' with
    | texts => rfl
    | expression h | file h | version h => simp at h
    | text h => simp [reserved] at h
  | text hargument _ ih =>
    cases h' with
    | text _ h' => rw [ih h']
    | expression h | file h | texts _ h => simp [h, reserved] at hargument
    | version h => rcases h with rfl | rfl <;> simp [reserved] at hargument

/-! ## What arguments are to the options -/

/-- What a matcher can find among arguments. -/
inductive Occurrence where
  /-- `-e` and its value. -/
  | expression (text : String)
  /-- `-f` and its value. -/
  | file (path : String)
  /-- An argument that belongs to no option. -/
  | bare (text : String)
  | version
  deriving DecidableEq

/-- The input that was asked for. -/
def Occurrence.input : Occurrence → Input
  | .expression text | .bare text => .text text
  | .file path => .file path
  | .version => .version

/-- The value that is attached to the letter of an option. It may stand behind an equals sign. -/
inductive Attached : List Char → String → Prop
  | equals (value : List Char) : Attached ('=' :: value) (String.ofList value)
  | plain {c : Char} (value : List Char) :
    c ≠ '=' → Attached (c :: value) (String.ofList (c :: value))

/-- What the letters behind one hyphen are to the declared options, and what the next argument has
to give. Letters without values may share the hyphen; `-e` and `-f` take all that is attached to
them, or the next argument. -/
inductive Letters : List Char → List Occurrence → Awaited → Prop
  | nil : Letters [] [] .nothing
  | version {letters : List Char} {found : List Occurrence} {awaited : Awaited} :
    Letters letters found awaited → Letters ('V' :: letters) (.version :: found) awaited
  | expression : Letters ['e'] [] .expression
  | attachedExpression {value : List Char} {text : String} :
    Attached value text → Letters ('e' :: value) [.expression text] .nothing
  | file : Letters ['f'] [] .file
  | attachedFile {value : List Char} {path : String} :
    Attached value path → Letters ('f' :: value) [.file path] .nothing

/-- What there is to find among arguments by the declaration of the options: `-e` takes any value
that stands behind it, `-f` only one that does not look like an option, and behind `--` there are no
options. Nothing else that looks like an option is one. -/
inductive Declared : List String → List Occurrence → Prop
  | nil : Declared [] []
  /-- The letters have all the values that they ask for. -/
  | letters {argument : String} {rest : List String} {letters : List Char}
    {found more : List Occurrence} :
    argument.toList = '-' :: letters → letters ≠ [] → Letters letters found .nothing →
    Declared rest more → Declared (argument :: rest) (found ++ more)
  | expression {argument text : String} {rest : List String} {letters : List Char}
    {found more : List Occurrence} :
    argument.toList = '-' :: letters → Letters letters found .expression →
    Declared rest more → Declared (argument :: text :: rest) (found ++ .expression text :: more)
  | file {argument path : String} {rest : List String} {letters : List Char}
    {found more : List Occurrence} :
    argument.toList = '-' :: letters → Letters letters found .file → isHyphenLed path = false →
    Declared rest more → Declared (argument :: path :: rest) (found ++ .file path :: more)
  | version {option : String} {rest : List String} {found : List Occurrence} :
    option = "--version" → Declared rest found → Declared (option :: rest) (.version :: found)
  | separated {option : String} (rest : List String) :
    option = "--" → Declared (option :: rest) (rest.map .bare)
  | bare {argument : String} {rest : List String} {found : List Occurrence} :
    isHyphenLed argument = false →
    Declared rest found → Declared (argument :: rest) (.bare argument :: found)

example : Declared ["-e1"] [.expression "1"] :=
  .letters rfl (by decide) (.attachedExpression (.plain [] (by decide))) .nil

/-- Whatever is reserved looks like an option. -/
theorem not_mem_reserved {argument : String} (h : isHyphenLed argument = false) :
    argument ∉ reserved := by
  intro hmem
  simp only [reserved, List.mem_cons, List.not_mem_nil, or_false] at hmem
  rcases hmem with rfl | rfl | rfl | rfl | rfl <;> exact absurd h (by decide)

/-- What is reserved is an option, so that nothing reserved is marked. -/
theorem mem_options_of_mem_reserved {argument : String} (h : argument ∈ reserved) :
    argument ∈ options := by
  simp only [reserved, List.mem_cons, List.not_mem_nil, or_false] at h
  rcases h with rfl | rfl | rfl | rfl | rfl <;> decide

/-! ## What the options see of marked arguments

The matcher would take `-e1` for `-e` and its value. The marks leave it nothing of the kind: an
argument that starts with a hyphen is an option by itself, or it is the value of one. -/

/-- `-e` by itself waits for its value. -/
theorem Letters.expression_inv {found : List Occurrence} {awaited : Awaited}
    (h : Letters ['e'] found awaited) : found = [] ∧ awaited = .expression := by
  cases h with
  | expression => exact ⟨rfl, rfl⟩
  | attachedExpression h => cases h

/-- `-f` by itself waits for its value. -/
theorem Letters.file_inv {found : List Occurrence} {awaited : Awaited}
    (h : Letters ['f'] found awaited) : found = [] ∧ awaited = .file := by
  cases h with
  | file => exact ⟨rfl, rfl⟩
  | attachedFile h => cases h

/-- No other option waits for anything, and `-V` is the only one that is found by its letter. -/
theorem Letters.option_inv {option : String} {letters : List Char} {found : List Occurrence}
    {awaited : Awaited} (hoption : option ∈ options) (hvalue : ¬ (option = "-e" ∨ option = "-f"))
    (hletters : option.toList = '-' :: letters) (h : Letters letters found awaited) :
    option = "-V" ∧ found = [.version] ∧ awaited = .nothing := by
  simp only [options, List.mem_cons, List.not_mem_nil, or_false] at hoption
  rcases hoption with rfl | rfl | rfl | rfl | rfl | rfl | rfl | rfl
  · exact absurd (Or.inl rfl) hvalue
  · exact absurd (Or.inr rfl) hvalue
  case inr.inr.inr.inr.inr.inl =>
    -- `-V`, and no letter behind it
    cases (List.cons.inj hletters).2
    cases h with
    | version h =>
      cases h
      exact ⟨rfl, rfl, rfl⟩
  all_goals
    cases (List.cons.inj hletters).2
    cases h

/-- Letters behind a hyphen look like an option. -/
theorem isHyphenLed_of_letters {argument : String} {letters : List Char}
    (h : argument.toList = '-' :: letters) (hne : letters ≠ []) : isHyphenLed argument = true := by
  obtain ⟨letter, letters, rfl⟩ := List.exists_cons_of_ne_nil hne
  rw [isHyphenLed, h]
  rfl

theorem Letters.ne_nil {letters : List Char} {found : List Occurrence} {awaited : Awaited}
    (h : Letters letters found awaited) (hawaited : awaited ≠ .nothing) : letters ≠ [] := by
  rintro rfl
  cases h
  exact hawaited rfl

/-- Behind an option by itself whose letter waits for a value, the next argument is that value. -/
theorem Declared.awaited_inv {option : String} {letter : Char} {awaited : Awaited}
    {rest : List String} {found : List Occurrence} (hoption : option.toList = ['-', letter])
    (hletter : letter ≠ '-') (hawaited : awaited ≠ .nothing)
    (hwaits : ∀ found' awaited', Letters [letter] found' awaited' →
      found' = [] ∧ awaited' = awaited)
    (h : Declared (option :: rest) found) :
    ∃ value rest' found', rest = value :: rest' ∧ Declared rest' found' ∧
      (awaited = .expression ∧ found = .expression value :: found' ∨
        awaited = .file ∧ found = .file value :: found') := by
  -- of the rules for letters, only those that take the next argument remain
  cases h with
  | letters hletters _ h =>
    rw [hoption] at hletters
    cases hletters
    exact absurd (hwaits _ _ h).2.symm hawaited
  | expression hletters h hrest =>
    rw [hoption] at hletters
    cases hletters
    obtain ⟨rfl, rfl⟩ := hwaits _ _ h
    exact ⟨_, _, _, rfl, hrest, Or.inl ⟨rfl, rfl⟩⟩
  | file hletters h _ hrest =>
    rw [hoption] at hletters
    cases hletters
    obtain ⟨rfl, rfl⟩ := hwaits _ _ h
    exact ⟨_, _, _, rfl, hrest, Or.inr ⟨rfl, rfl⟩⟩
  | version h =>
    subst h
    cases hoption
  | separated _ h =>
    subst h
    cases hoption
    exact absurd rfl hletter
  | bare h =>
    rw [isHyphenLed, hoption] at h
    cases h

/-- Behind `-e` there is a value, whatever it looks like. -/
theorem Declared.expression_inv {rest : List String} {found : List Occurrence}
    (h : Declared ("-e" :: rest) found) :
    ∃ text rest' found', rest = text :: rest' ∧ found = .expression text :: found' ∧
      Declared rest' found' := by
  obtain ⟨text, rest', found', hrest, hdeclared, ⟨-, hfound⟩ | ⟨hfile, -⟩⟩ :=
    h.awaited_inv rfl (by decide) (by simp) fun _ _ => Letters.expression_inv
  · exact ⟨text, rest', found', hrest, hfound, hdeclared⟩
  · cases hfile

/-- Behind `-f` there is a value. -/
theorem Declared.file_inv {rest : List String} {found : List Occurrence}
    (h : Declared ("-f" :: rest) found) :
    ∃ path rest' found', rest = path :: rest' ∧ found = .file path :: found' ∧
      Declared rest' found' := by
  obtain ⟨path, rest', found', hrest, hdeclared, ⟨hexpression, -⟩ | ⟨-, hfound⟩⟩ :=
    h.awaited_inv rfl (by decide) (by simp) fun _ _ => Letters.file_inv
  · cases hexpression
  · exact ⟨path, rest', found', hrest, hfound, hdeclared⟩

/-- Behind `--` there are no options. -/
theorem Declared.separated_inv {rest : List String} {found : List Occurrence}
    (h : Declared ("--" :: rest) found) : found = rest.map .bare := by
  -- as letters behind a hyphen it would have to be `-V`
  have hoption : "--" ∈ options := by decide
  have hvalue : ¬ ("--" = "-e" ∨ "--" = "-f") := by decide
  cases h with
  | letters hletters _ h | expression hletters h | file hletters h =>
    exact absurd (h.option_inv hoption hvalue hletters).1 (by decide)
  | version h => simp at h
  | separated => rfl
  | bare h => exact absurd h (by decide)

/-- An argument that needs no mark is a request for the version or belongs to no option. -/
theorem Declared.unmarked_inv {argument : String} {rest : List String} {found : List Occurrence}
    (h : Declared (argument :: rest) found) (hvalue : ¬ (argument = "-e" ∨ argument = "-f"))
    (hseparator : argument ≠ "--") (hmark : ¬ (isHyphenLed argument = true ∧ argument ∉ options)) :
    ∃ found', Declared rest found' ∧
      ((argument = "-V" ∨ argument = "--version") ∧ found = .version :: found' ∨
        isHyphenLed argument = false ∧ found = .bare argument :: found') := by
  -- what looks like an option is one, since it is not marked
  have hoption {letters : List Char} (hletters : argument.toList = '-' :: letters)
      (hne : letters ≠ []) : argument ∈ options := by
    by_contra h
    exact hmark ⟨isHyphenLed_of_letters hletters hne, h⟩
  cases h with
  | letters hletters hne h hrest =>
    obtain ⟨hversion, rfl, -⟩ := h.option_inv (hoption hletters hne) hvalue hletters
    exact ⟨_, hrest, Or.inl ⟨Or.inl hversion, rfl⟩⟩
  | expression hletters h | file hletters h =>
    have hne := h.ne_nil (by simp)
    cases (h.option_inv (hoption hletters hne) hvalue hletters).2.2
  | version hversion hrest => exact ⟨_, hrest, Or.inl ⟨Or.inr hversion, rfl⟩⟩
  | separated _ h => exact absurd h hseparator
  | bare hbare hrest => exact ⟨_, hrest, Or.inr ⟨hbare, rfl⟩⟩

/-- What the options see of marked arguments is what the arguments ask for. -/
theorem asks_of_declared {arguments : List String} {found : List Occurrence}
    (h : Declared (markExpressions arguments) found) :
    Asks arguments (found.map Occurrence.input) := by
  fun_induction markExpressions arguments generalizing found with
  | case1 =>
    cases h
    exact .nil
  | case2 argument hoption =>
    -- an option without its value is nothing to the options
    rcases hoption with rfl | rfl
    · obtain ⟨_, _, _, hrest, -⟩ := h.expression_inv
      cases hrest
    · obtain ⟨_, _, _, hrest, -⟩ := h.file_inv
      cases hrest
  | case3 argument hoption value rest ih =>
    rcases hoption with rfl | rfl
    · obtain ⟨_, _, found, hrest, rfl, h⟩ := h.expression_inv
      cases hrest
      exact .expression rfl (ih h)
    · obtain ⟨_, _, found, hrest, rfl, h⟩ := h.file_inv
      cases hrest
      exact .file rfl (ih h)
  | case4 rest _ =>
    rw [h.separated_inv, List.map_map]
    exact .texts rest rfl
  | case5 argument rest _ _ hmark ih =>
    -- the mark makes the whole argument a text, which it is
    obtain ⟨_, _, found, hrest, rfl, h⟩ := h.expression_inv
    cases hrest
    exact .text (fun hmem => hmark.2 (mem_options_of_mem_reserved hmem)) (ih h)
  | case6 argument rest hoption hseparator hmark ih =>
    obtain ⟨found, hrest, ⟨hversion, rfl⟩ | ⟨hbare, rfl⟩⟩ :=
      h.unmarked_inv hoption hseparator hmark
    · exact .version hversion (ih hrest)
    · exact .text (not_mem_reserved hbare) (ih hrest)

/-! ## What is collected -/

/-- What of one kind was found, with its places. -/
def pick {β : Type} (kind? : Occurrence → Option β) (found : List (Nat × Occurrence)) :
    List (Nat × β) :=
  found.filterMap fun o => (kind? o.2).map (o.1, ·)

theorem pick_append {β : Type} (kind? : Occurrence → Option β)
    (found more : List (Nat × Occurrence)) :
    pick kind? (found ++ more) = pick kind? found ++ pick kind? more :=
  List.filterMap_append

namespace Occurrence

def expression? : Occurrence → Option String
  | .expression text => some text
  | _ => none

def file? : Occurrence → Option String
  | .file path => some path
  | _ => none

def bare? : Occurrence → Option String
  | .bare text => some text
  | _ => none

def version? : Occurrence → Option Unit
  | .version => some ()
  | _ => none

end Occurrence

open Occurrence

/-- The matches are what was found: at places that increase, each kind in order, and the version at
most once. -/
structure Matches.Collects (m : Matches) (found : List (Nat × Occurrence)) : Prop where
  increasing : found.Pairwise fun a b => a.1 < b.1
  expressions : m.expressions = pick expression? found
  files : m.files = pick file? found
  bare : m.bare = pick bare? found
  version : m.version.toList = (pick version? found).map Prod.fst

/-- The kinds together are all that was found. -/
theorem perm_picks (found : List (Nat × Occurrence)) :
    ((pick expression? found).map (fun o => (o.1, Input.text o.2)) ++
      (pick file? found).map (fun o => (o.1, Input.file o.2)) ++
      (pick bare? found).map (fun o => (o.1, Input.text o.2)) ++
      (pick version? found).map (fun o => (o.1, Input.version))).Perm
    (found.map fun o => (o.1, o.2.input)) := by
  induction found with
  | nil => exact .refl _
  | cons o found ih =>
    obtain ⟨place, o⟩ := o
    cases o with
    | expression text => exact ih.cons _
    -- what is found first belongs behind all that was found of the kinds in front of its own
    | file path =>
      refine .trans ?_ (ih.cons _)
      simp only [List.append_assoc]
      exact List.perm_middle
    | bare text =>
      refine .trans ?_ (ih.cons _)
      simp only [List.append_assoc]
      exact (List.perm_middle.append_left _).trans List.perm_middle
    | version => exact List.perm_middle.trans (ih.cons _)

/-- Put back in order, what was collected is what was found. -/
theorem Matches.Collects.inputs {m : Matches} {found : List (Nat × Occurrence)}
    (h : m.Collects found) : m.inputs = found.map (Occurrence.input ∘ (·.2)) := by
  have hplaced : m.placed.Perm (found.map fun o => (o.1, o.2.input)) := by
    have hversion : m.version.toList.map (fun place => (place, Input.version)) =
        (pick version? found).map fun o => (o.1, Input.version) := by
      rw [h.version, List.map_map]
      rfl
    rw [Matches.placed, h.expressions, h.files, h.bare, hversion]
    exact perm_picks found
  have hincreasing : (found.map fun o => (o.1, o.2.input)).Pairwise fun a b => a.1 < b.1 :=
    List.pairwise_map.2 h.increasing
  -- places increase along what was found, so sorting by them restores that order
  rw [Matches.inputs_of_increasing hplaced hincreasing, List.map_map]
  rfl

/-! ## Matchers -/

/-- The matcher keeps to the options as they are declared. It says what it found, and numbers it in
order. This is asked of all arguments, with marks or without. -/
def Conforms (matcher : List String → Except Refusal Matches) : Prop :=
  ∀ arguments m, matcher arguments = .ok m →
    ∃ found, Declared arguments (found.map (·.2)) ∧ m.Collects found

namespace Matches

/-- The matches with one more thing that was found. -/
def add (place : Nat) (o : Occurrence) (m : Matches) : Matches :=
  match o with
  | .expression text => m.addExpression place text
  | .file path => m.addFile place path
  | .bare text => m.addBare place text
  | .version => { m with version := some place }

/-- The second matches are the first ones with what was found from a place on. -/
structure Adds (place : Nat) (m : Matches) (found : List (Nat × Occurrence)) (m' : Matches) :
    Prop where
  increasing : found.Pairwise fun a b => a.1 < b.1
  places : ∀ o ∈ found, place ≤ o.1
  expressions : m'.expressions = m.expressions ++ pick expression? found
  files : m'.files = m.files ++ pick file? found
  bare : m'.bare = m.bare ++ pick bare? found
  version : m'.version.toList = m.version.toList ++ (pick version? found).map Prod.fst

theorem Adds.nil (place : Nat) (m : Matches) : m.Adds place [] m where
  increasing := .nil
  places := List.forall_mem_nil _
  expressions := (List.append_nil _).symm
  files := (List.append_nil _).symm
  bare := (List.append_nil _).symm
  version := (List.append_nil _).symm

/-- The version can be found where it was not found before. -/
theorem Adds.single (place : Nat) {o : Occurrence} {m : Matches}
    (hfirst : o = .version → m.version = none) : m.Adds place [(place, o)] (m.add place o) where
  increasing := List.pairwise_singleton _ _
  places := by simp
  expressions := by cases o <;> simp [add, addExpression, addFile, addBare, pick, expression?]
  files := by cases o <;> simp [add, addExpression, addFile, addBare, pick, file?]
  bare := by cases o <;> simp [add, addExpression, addFile, addBare, pick, bare?]
  version := by
    cases o with
    | version => simp [add, hfirst rfl, pick, version?]
    | _ => simp [add, addExpression, addFile, addBare, pick, version?]

/-- What was found in front of a place and from it on was found together. -/
theorem Adds.append {place place' : Nat} {m m' m'' : Matches}
    {found more : List (Nat × Occurrence)} (h : m.Adds place found m')
    (hbefore : ∀ o ∈ found, o.1 < place') (hle : place ≤ place') (h' : m'.Adds place' more m'') :
    m.Adds place (found ++ more) m'' where
  -- the places of the first part are in front of `place'`, those of the second are not
  increasing := List.pairwise_append.2 ⟨h.increasing, h'.increasing, fun o ho o' ho' =>
    Nat.lt_of_lt_of_le (hbefore o ho) (h'.places o' ho')⟩
  places o ho := (List.mem_append.1 ho).elim (h.places o) fun ho =>
    Nat.le_trans hle (h'.places o ho)
  expressions := by rw [h'.expressions, h.expressions, pick_append, List.append_assoc]
  files := by rw [h'.files, h.files, pick_append, List.append_assoc]
  bare := by rw [h'.bare, h.bare, pick_append, List.append_assoc]
  version := by rw [h'.version, h.version, pick_append, List.map_append, List.append_assoc]

theorem Adds.cons {place place' : Nat} {o : Occurrence} {m m' : Matches}
    {found : List (Nat × Occurrence)} (h : (m.add place o).Adds place' found m')
    (hlt : place < place') (hfirst : o = .version → m.version = none) :
    m.Adds place ((place, o) :: found) m' :=
  (Adds.single place hfirst).append (by simpa using hlt) (Nat.le_of_lt hlt) h

/-- Behind what was found there is a value, and more behind the value. -/
theorem Adds.value {place last : Nat} {o : Occurrence} {m m' m'' : Matches}
    {found more : List (Nat × Occurrence)} (h : m.Adds place found m')
    (hbefore : ∀ o ∈ found, o.1 < last + 1) (hle : place ≤ last) (ho : o ≠ .version)
    (h' : (m'.add (last + 1) o).Adds (last + 2) more m'') :
    m.Adds place (found ++ (last + 1, o) :: more) m'' :=
  h.append hbefore (Nat.le_succ_of_le hle)
    (h'.cons (Nat.lt_succ_self _) fun hversion => absurd hversion ho)

/-- Behind `--` every argument is found. -/
theorem adds_bare (rest : List String) (place : Nat) (m : Matches) :
    m.Adds place ((rest.zipIdx place).map fun o => (o.2, .bare o.1))
      { m with bare := m.bare ++ (rest.zipIdx place).map Prod.swap } := by
  induction rest generalizing place m with
  | nil => simpa using Adds.nil place m
  | cons text rest ih =>
    -- the first argument has been found already when the others are
    have hrest := ih (place + 1) (m.addBare place text)
    rw [addBare, List.append_assoc] at hrest
    exact Adds.cons hrest (Nat.lt_succ_self place) (by simp)

theorem Adds.collects {place : Nat} {m : Matches} {found : List (Nat × Occurrence)}
    (h : Adds place {} found m) : m.Collects found :=
  ⟨h.increasing, h.expressions, h.files, h.bare, h.version⟩

end Matches

/-- What is attached to a letter is its value. -/
theorem attached_attachedValue {value : List Char} (h : value ≠ []) :
    Attached value (attachedValue value) := by
  fun_cases attachedValue value with
  | case1 value => exact .equals value
  | case2 value hplain =>
    obtain ⟨c, value, rfl⟩ := List.exists_cons_of_ne_nil h
    exact .plain value fun hc => hplain value (by rw [hc])

/-- Matching letters finds what they are, each thing at the place of its letter. -/
theorem letters_of_matchLetters {place : Nat} {m m' : Matches} {letters : List Char}
    {awaited : Awaited} (h : matchLetters place m letters = .ok (m', awaited)) :
    ∃ found, Letters letters (found.map (·.2)) awaited ∧ m.Adds place found m' ∧
      ∀ o ∈ found, o.1 < place + letters.length := by
  fun_induction matchLetters place m letters with
  | case1 place m =>
    cases h
    exact ⟨[], .nil, .nil place _, by simp⟩
  | case2 place m =>
    cases h
    exact ⟨[], .expression, .nil place _, by simp⟩
  -- a value is attached, so no letter is left and no argument is taken
  | case3 place m value hvalue =>
    cases h
    exact ⟨[(place, .expression (attachedValue value))],
      .attachedExpression (attached_attachedValue hvalue), .single place (by simp), by simp⟩
  | case4 place m =>
    cases h
    exact ⟨[], .file, .nil place _, by simp⟩
  | case5 place m value hvalue =>
    cases h
    exact ⟨[(place, .file (attachedValue value))],
      .attachedFile (attached_attachedValue hvalue), .single place (by simp), by simp⟩
  -- a letter without a value, with the other letters behind it at later places
  | case7 place m letters hfirst _ _ ih =>
    obtain ⟨found, hletters, hadds, hplaces⟩ := ih h
    refine ⟨(place, .version) :: found, .version hletters,
      hadds.cons (Nat.lt_succ_self place) fun _ => by simpa using hfirst, ?_⟩
    simp only [List.forall_mem_cons, List.length_cons]
    exact ⟨by omega, fun o ho => by have := hplaces o ho; omega⟩
  | _ => cases h

/-- Matching from a place on finds what is declared to be there. -/
theorem declared_of_matchFrom {place : Nat} {m m' : Matches} {arguments : List String}
    (h : matchFrom place m arguments = .ok m') :
    ∃ found, Declared arguments (found.map (·.2)) ∧ m.Adds place found m' := by
  fun_induction matchFrom place m arguments with
  | case1 place m =>
    cases h
    exact ⟨[], .nil, .nil place _⟩
  -- the separator: all that is left is found as it stands
  | case2 place m argument rest hargument =>
    have hseparator : argument = "--" := String.toList_inj.1 hargument
    have hadds := Matches.adds_bare rest (place + 1) m
    cases h
    refine ⟨_, ?_, { hadds with places := fun o ho => Nat.le_of_succ_le (hadds.places o ho) }⟩
    have hrest : ((rest.zipIdx (place + 1)).map fun o => (o.2, Occurrence.bare o.1)).map (·.2) =
        rest.map .bare := by
      rw [List.map_map, ← List.zipIdx_map_fst (place + 1) rest, List.map_map]
      simp
    rw [hrest]
    exact .separated rest hseparator
  | case4 place m rest name _ hfirst _ ih =>
    obtain ⟨found, hdeclared, hadds⟩ := ih h
    exact ⟨(place, .version) :: found, .version rfl hdeclared,
      hadds.cons (Nat.lt_succ_self place) fun _ => by simpa using hfirst⟩
  | case8 place m argument rest letter letters _ hargument last m₁ hletters ih =>
    -- the letters have their places in front of those of the arguments behind them
    obtain ⟨found, hfound, hadds, hplaces⟩ := letters_of_matchLetters hletters
    obtain ⟨more, hdeclared, hmore⟩ := ih h
    refine ⟨found ++ more, ?_, hadds.append hplaces (Nat.le_add_right _ _) hmore⟩
    rw [List.map_append]
    exact .letters hargument (List.cons_ne_nil _ _) hfound hdeclared
  -- the last letter waits for a value, which is the next argument
  | case10 place m argument letter letters _ hargument last m₁ hletters text rest ih =>
    obtain ⟨found, hfound, hadds, hplaces⟩ := letters_of_matchLetters hletters
    obtain ⟨more, hdeclared, hmore⟩ := ih h
    refine ⟨found ++ (last + 1, .expression text) :: more, ?_,
      hadds.value hplaces (Nat.le_add_right _ _) (by simp) hmore⟩
    rw [List.map_append]
    exact .expression hargument hfound hdeclared
  | case13 place m argument letter letters _ hargument last m₁ hletters path rest hpath ih =>
    obtain ⟨found, hfound, hadds, hplaces⟩ := letters_of_matchLetters hletters
    obtain ⟨more, hdeclared, hmore⟩ := ih h
    refine ⟨found ++ (last + 1, .file path) :: more, ?_,
      hadds.value hplaces (Nat.le_add_right _ _) (by simp) hmore⟩
    rw [List.map_append]
    exact .file hargument hfound (by simpa using hpath) hdeclared
  | case14 place m argument rest _ hletters ih =>
    have hbare : isHyphenLed argument = false := by
      fun_cases isHyphenLed argument with
      | case1 letter letters hargument => exact absurd hargument (hletters letter letters)
      | case2 => rfl
    obtain ⟨found, hdeclared, hadds⟩ := ih h
    exact ⟨(place, .bare argument) :: found, .bare hbare hdeclared,
      hadds.cons (Nat.lt_succ_self place) (by simp)⟩
  | _ => cases h

/-- The matcher of the program keeps to the options. -/
theorem conforms_matchFrom : Conforms (matchFrom 0 {}) := by
  intro arguments m h
  obtain ⟨found, hdeclared, hadds⟩ := declared_of_matchFrom h
  exact ⟨found, hdeclared, hadds.collects⟩

/-- What is matched with the marks is what the arguments ask for. -/
theorem Conforms.asks {matcher : List String → Except Refusal Matches} (h : Conforms matcher)
    {arguments : List String} {m : Matches} (hm : matcher (markExpressions arguments) = .ok m) :
    Asks arguments m.inputs := by
  obtain ⟨found, hdeclared, hcollects⟩ := h _ m hm
  have hasks := asks_of_declared hdeclared
  rwa [List.map_map, ← hcollects.inputs] at hasks

/-- The inputs that are read off the arguments are those that the arguments ask for. -/
theorem asks_of_readArguments {arguments : List String} {inputs : List Input}
    (h : readArguments arguments = .ok inputs) : Asks arguments inputs := by
  unfold readArguments at h
  -- reading fails where matching does
  cases hm : matchFrom 0 {} (markExpressions arguments) with
  | error refusal =>
    rw [hm] at h
    cases h
  | ok m =>
    rw [hm] at h
    cases h
    exact conforms_matchFrom.asks hm

/-- Whatever matches the marked arguments as the options are declared: the inputs put back in order
are those that the arguments ask for, and there are no others that they ask for. -/
theorem Conforms.inputs_in_order {matcher : List String → Except Refusal Matches}
    (h : Conforms matcher) {arguments : List String} {m : Matches}
    (hm : matcher (markExpressions arguments) = .ok m) (inputs : List Input) :
    Asks arguments inputs ↔ inputs = m.inputs :=
  ⟨(h.asks hm).unique, fun heq => heq ▸ h.asks hm⟩

/-- What starts with a hyphen is an option, the value of an option or a text. -/
def hyphenLed : List String :=
  ["-3+4", "-e", "-V", "-V", "-e1", "-f", "-", "--2", "--", "-f"]

/-- A text that would be an option of its own is one no longer, once it is marked. -/
theorem Conforms.inputs_in_order_hyphenLed :
    Conforms (matchFrom 0 {}) ∧ ∃ m, matchFrom 0 {} (markExpressions hyphenLed) = .ok m ∧
      [.text "-3+4", .text "-V", .version, .text "-e1", .file "-", .text "--2", .text "-f"] =
        m.inputs := by
  have hasks : Asks hyphenLed
      [.text "-3+4", .text "-V", .version, .text "-e1", .file "-", .text "--2", .text "-f"] :=
    .text (by decide) (.expression rfl (.version (Or.inl rfl) (.text (by decide) (.file rfl
      (.text (by decide) (.texts ["-f"] rfl))))))
  exact ⟨conforms_matchFrom, _, rfl, (conforms_matchFrom.inputs_in_order rfl _).1 hasks⟩

end DeskCalc.CommandLine
