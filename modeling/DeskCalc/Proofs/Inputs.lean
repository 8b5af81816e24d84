import DeskCalc.CommandLine.Execution
import DeskCalc.Double.Checked
import DeskCalc.Proofs.ArgumentOrder
import DeskCalc.Proofs.Endings

/-!
# The inputs of a command line

Inputs given one by one come to the same as all of them at once on the standard input, but for the
lines that reports name. The first file that cannot be opened stops everything.

* `Input.Gives` — the text that an input gives.
* `Session.evaluateAll` — evaluating texts one after another; joining the texts makes no difference
  but to the lines of reports (`Session.evaluate_intercalate`).
* `Progress.takeAll_gives` — what dealing with inputs that give texts leaves.
* `Progress.takeAll_unopenable` — what dealing with inputs leaves if a file cannot be opened.
* `execute_inputs` — what that means for the calls of the program.
-/

namespace DeskCalc

variable {α : Type} [Arithmetic α]

/-! ## Texts one after another -/

namespace Session

/-- Evaluates texts one after another. -/
def evaluateAll : List String → Session α → List (Statement α) × Session α
  | [], s => ([], s)
  | text :: texts, s =>
    let (statements, s) := s.evaluate text
    let (more, s) := evaluateAll texts s
    (statements ++ more, s)

/-- Evaluating a text goes on with the log. -/
theorem continues_evaluate (text : String) (s : Session α) :
    s.log.Continues (s.evaluate text).2.log := by
  have hstart : s.log.Continues (s.start (.ofText text)).session.log := .of_eq rfl rfl rfl
  exact hstart.trans (Evaluation.leads_statements _).continues

theorem continues_evaluateAll (texts : List String) (s : Session α) :
    s.log.Continues (s.evaluateAll texts).2.log := by
  induction texts generalizing s with
  | nil => exact .refl _
  | cons text texts ih => exact (s.continues_evaluate text).trans (ih _)

/-- What evaluating a joint text and evaluating texts one after another have in common: all but the
lines of the reports. -/
structure SameResults (s : Session α) (texts : List String) (joint : String) : Prop where
  statements : (s.evaluate joint).1 = (s.evaluateAll texts).1
  table : (s.evaluate joint).2.table = (s.evaluateAll texts).2.table
  draws : (s.evaluate joint).2.draws = (s.evaluateAll texts).2.draws
  problems : (s.evaluate joint).2.reports.map Report.problem =
    (s.evaluateAll texts).2.reports.map Report.problem

/-- Joining texts by line breaks makes no difference but to the lines of reports. -/
theorem evaluate_intercalate (s : Session α) (text : String) (texts : List String) :
    s.SameResults (text :: texts) ("\n".intercalate (text :: texts)) := by
  induction texts generalizing s text with
  | nil =>
    rw [String.intercalate_singleton]
    exact ⟨(List.append_nil _).symm, rfl, rfl, rfl⟩
  | cons next texts ih =>
    -- the first text is joined to all the others, which are joined already
    have hjoin : s.Joins text ("\n".intercalate (next :: texts))
        ("\n".intercalate (text :: next :: texts)) _ :=
      s.evaluate_join (Or.inl rfl) (by simp [String.intercalate_cons_cons])
    have hrest := ih (s.evaluate text).2 next
    obtain ⟨new, new', hnew, hnew', hjoint⟩ := hjoin.reports
    refine ⟨?_, hjoin.table.trans hrest.table, hjoin.draws.trans hrest.draws, ?_⟩
    · rw [hjoin.statements, hrest.statements]
      rfl
    · refine Eq.trans ?_ hrest.problems
      rw [hjoint, hnew', hnew]
      simp only [List.map_append, List.map_map]
      -- the reports of the other texts are further down, and the same otherwise
      rfl

end Session

/-! ## Dealing with inputs -/

namespace CommandLine

open Session

/-- The input is a text, or a file that can be opened and holds the text. -/
inductive Input.Gives (files : Files) : Input → String → Prop
  | text (text : String) : Gives files (.text text) text
  | file {path text : String} {source : LineSource} :
    path ≠ "-" → files path = .ok source → source.Contains text → Gives files (.file path) text

/-- Every file among the inputs can be opened. -/
def Openable (files : Files) (inputs : List Input) : Prop :=
  ∀ path, .file path ∈ inputs → path ≠ "-" → ∃ source, files path = .ok source

/-- What is said of a file that cannot be opened. -/
def openingFailed (path message : String) : String := s!"error opening '{path}': {message}"

namespace Progress

variable {files : Files} {inputs : List Input}

/-- A run of a source that hands out a text and ends evaluates the text and prints what it shows. -/
theorem runSource_of_contains {source : LineSource} {text : String} (h : source.Contains text)
    (s : Session α) (standardInput : LineSource) (bytes : ByteArray) :
    ∃ rest, runSource source ⟨s, standardInput, .endless bytes⟩ = (.ok (), rest,
      ⟨(s.evaluate text).2, standardInput, .endless (printed bytes (s.evaluate text).1)⟩) := by
  have hrun := (h.run s (.endless bytes)).trans (s.run_endless text bytes)
  simp only [Session.run, Prod.mk.injEq] at hrun
  obtain ⟨hresult, hprinted, hsession⟩ := hrun
  exact ⟨_, by simp only [runSource, hresult, hprinted, hsession]; rfl⟩

/-- Dealing with an input evaluates its text and prints what it shows. -/
theorem take_gives {input : Input} {text : String} (h : input.Gives files text) (s : Session α)
    (standardInput : LineSource) (bytes : ByteArray) :
    take files input ⟨s, standardInput, .endless bytes⟩ = (.ok (),
      ⟨(s.evaluate text).2, standardInput, .endless (printed bytes (s.evaluate text).1)⟩) := by
  cases h with
  | text =>
    obtain ⟨rest, hrun⟩ :=
      runSource_of_contains (LineSource.contains_ofText text) s standardInput bytes
    simp only [take, hrun]
  -- the file is opened, and is no standard input by another name
  | file hpath hopen hcontains =>
    obtain ⟨rest, hrun⟩ := runSource_of_contains hcontains s standardInput bytes
    simp only [take, if_neg hpath, hopen, hrun]

/-- Dealing with inputs that give texts evaluates the texts one after another. -/
theorem takeAll_gives {texts : List String} (h : List.Forall₂ (Input.Gives files) inputs texts)
    (s : Session α) (standardInput : LineSource) (bytes : ByteArray) :
    takeAll files inputs ⟨s, standardInput, .endless bytes⟩ = (.ok (),
      ⟨(s.evaluateAll texts).2, standardInput,
        .endless (printed bytes (s.evaluateAll texts).1)⟩) := by
  -- by induction on the inputs, whatever the session and whatever has been printed
  induction h generalizing s bytes with
  | nil => rfl
  | cons hgives _ ih =>
    rw [takeAll, take_gives hgives]
    refine (ih _ _).trans ?_
    rw [evaluateAll, printed_append]

/-! ## Files that cannot be opened -/

/-- Printing never fails. -/
def Endless (p : Progress α) : Prop := ∃ bytes, p.output = .endless bytes

/-- A run does not fail where printing never does. -/
theorem Endless.runSource {p : Progress α} (h : p.Endless) (source : LineSource) :
    (p.runSource source).1 = .ok () ∧ (p.runSource source).2.2.Endless := by
  obtain ⟨bytes, hbytes⟩ := h
  simp only [Progress.runSource, hbytes, Evaluation.run_endless]
  exact ⟨trivial, _, rfl⟩

/-- Dealing with an input does not fail where its file can be opened. -/
theorem Endless.take {p : Progress α} (h : p.Endless) {input : Input}
    (hopen : ∀ path, input = .file path → path ≠ "-" → ∃ source, files path = .ok source) :
    ∃ q, p.take files input = (.ok (), q) ∧ q.Endless := by
  cases input with
  | text text =>
    obtain ⟨hok, hend⟩ := h.runSource (.ofText text)
    exact ⟨_, Prod.ext hok rfl, hend⟩
  | file path =>
    -- the standard input is always open, all other files are opened first
    by_cases hpath : path = "-"
    · obtain ⟨hok, hend⟩ := h.runSource p.standardInput
      subst hpath
      exact ⟨_, Prod.ext hok rfl, hend⟩
    · obtain ⟨source, hsource⟩ := hopen path rfl hpath
      obtain ⟨hok, hend⟩ := h.runSource source
      have htake : p.take files (.file path) =
          ((p.runSource source).1, (p.runSource source).2.2) := by
        simp only [Progress.take, if_neg hpath, hsource]
      exact ⟨_, htake.trans (Prod.ext hok rfl), hend⟩
  | version =>
    obtain ⟨bytes, hbytes⟩ := h
    simp only [Progress.take, hbytes, Writer.write_endless]
    exact ⟨_, rfl, _, rfl⟩

/-- As long as files can be opened, all inputs are dealt with, and nothing fails. -/
theorem Endless.takeAll {p : Progress α} (h : p.Endless) (hopen : Openable files inputs) :
    ∃ q, p.takeAll files inputs = (.ok (), q) ∧ q.Endless := by
  -- by induction on the inputs; printing is as endless behind each as before
  induction inputs generalizing p with
  | nil => exact ⟨p, rfl, h⟩
  | cons input inputs ih =>
    have hinput : ∀ path, input = .file path → path ≠ "-" → ∃ source, files path = .ok source :=
      fun path hpath => hopen path (hpath ▸ List.mem_cons_self)
    obtain ⟨q, htake, hq⟩ := h.take hinput
    obtain ⟨r, hrest, hr⟩ := ih hq fun path hpath => hopen path (List.mem_cons_of_mem _ hpath)
    exact ⟨r, by rw [Progress.takeAll, htake, ← hrest], hr⟩

/-- Dealing with inputs is dealing with the first ones, and then with the others. -/
theorem takeAll_append (before after : List Input) (p : Progress α) :
    p.takeAll files (before ++ after) =
      match p.takeAll files before with
      | (.ok (), q) => q.takeAll files after
      | (.error message, q) => (.error message, q) := by
  induction before generalizing p with
  | nil => rfl
  | cons input before ih =>
    rw [List.cons_append, takeAll, takeAll]
    -- a failure stops both sides at the same input
    rcases p.take files input with ⟨result, q⟩
    cases result with
    | error message => rfl
    | ok => exact ih q

/-- Dealing with inputs stops at a file that cannot be opened, with what was done before. -/
theorem takeAll_unopenable {before : List Input} {path message : String} {p q : Progress α}
    (hbefore : p.takeAll files before = (.ok (), q)) (hpath : path ≠ "-")
    (hfile : files path = .error message) (after : List Input) :
    p.takeAll files (before ++ .file path :: after) = (.error (openingFailed path message), q) := by
  -- the failure comes before anything of the file is evaluated
  have htake : q.take files (.file path) = (.error (openingFailed path message), q) := by
    rw [take, if_neg hpath, hfile]
    rfl
  rw [takeAll_append, hbefore]
  show takeAll files (.file path :: after) q = _
  rw [takeAll, htake]

/-- Files that are not among the inputs make no difference. -/
theorem takeAll_congr {files' : Files}
    (h : ∀ path, .file path ∈ inputs → files' path = files path) (p : Progress α) :
    p.takeAll files' inputs = p.takeAll files inputs := by
  induction inputs generalizing p with
  | nil => rfl
  | cons input inputs ih =>
    -- the first input opens its own file only
    have htake : p.take files' input = p.take files input := by
      cases input with
      | text text => rfl
      | file path => simp only [take, h path List.mem_cons_self]
      | version => rfl
    rw [takeAll, takeAll, htake]
    rcases p.take files input with ⟨result, q⟩
    cases result with
    | error message => rfl
    | ok => exact ih (fun path hpath => h path (List.mem_cons_of_mem _ hpath)) q

end Progress

/-! ## Calls of the program -/

/-- The program has shown the reports and nothing else on its error output, and its exit status is
the number of them, as far as it goes. -/
structure Outcome.Shows (program : String) (rs : List Report) (o : Outcome) : Prop where
  errors : o.errors = (Report.allShown program rs).toUTF8
  status : o.status = min 255 rs.length
  success : o.status = 0 ↔ rs = []

/-- The session in which a call of the program starts, with nothing printed yet. -/
def starting (program : String) (standardInput : LineSource) (draws : Draws α) : Progress α :=
  ⟨.new program (.writer .unlimited) draws, standardInput, .unlimited⟩

omit [Arithmetic α] in
/-- What a call shows are the reports of its session, and its status counts them. -/
theorem shows_outcome {program : String} {p : Progress α}
    (h : (ErrorLog.new program (.writer .unlimited)).Continues p.session.log) :
    (outcome program (.ok ()) p).Shows program p.session.reports := by
  -- the count is that of the reports, so it is zero if there are none
  have hcount : p.session.errorCount = p.session.reports.length := p.session.log.count_eq
  constructor
  · show p.session.log.sink.written = _
    rw [ErrorLog.Continues.written h]
    rfl
  · show min 255 p.session.errorCount = _
    rw [hcount]
  · show min 255 p.session.errorCount = 0 ↔ _
    rw [hcount, ← List.length_eq_zero_iff]
    omega

/-- A call deals with the inputs that are read off its arguments. -/
theorem execute_eq (program : String) {arguments : List String} {inputs : List Input}
    (hargs : readArguments arguments = .ok inputs) (standardInput : LineSource) (files : Files)
    (draws : Draws α) :
    execute program arguments standardInput files draws =
      outcome program (Progress.run files inputs (starting program standardInput draws)).1
        (Progress.run files inputs (starting program standardInput draws)).2 := by
  unfold execute
  simp only [hargs]
  rfl

/-- A call with inputs that give texts evaluates the texts one after another. -/
theorem execute_gives (program : String) {arguments : List String} {inputs : List Input}
    (hargs : readArguments arguments = .ok inputs) (hne : inputs ≠ []) {files : Files}
    {contents : List String} (h : List.Forall₂ (Input.Gives files) inputs contents)
    (standardInput : LineSource) (draws : Draws α) :
    execute program arguments standardInput files draws = outcome program (.ok ())
      ⟨((starting program standardInput draws).session.evaluateAll contents).2, standardInput,
        .endless (printed .empty
          ((starting program standardInput draws).session.evaluateAll contents).1)⟩ := by
  -- nothing fails, so the outcome is that of the session that is left
  have htake := Progress.takeAll_gives h (starting program standardInput draws).session
    standardInput .empty
  have hrun : Progress.run files inputs (starting program standardInput draws) = _ :=
    (if_neg hne).trans htake
  rw [execute_eq program hargs, hrun]

/-- A call without inputs evaluates the text on the standard input. -/
theorem execute_piped (program : String) {piped : LineSource} {text : String}
    (h : piped.Contains text) (files : Files) (draws : Draws α) :
    ∃ rest, execute program [] piped files draws = outcome program (.ok ())
      ⟨((starting program piped draws).session.evaluate text).2, rest,
        .endless (printed .empty ((starting program piped draws).session.evaluate text).1)⟩ := by
  obtain ⟨rest, hsource⟩ :=
    Progress.runSource_of_contains h (starting program piped draws).session piped .empty
  -- no arguments ask for no inputs, and then the standard input is run
  have hargs : readArguments [] = .ok [] := readArguments_arguments (List.forall_mem_nil _)
  have hrun : Progress.run files [] (starting program piped draws) =
      (.ok (), ⟨((starting program piped draws).session.evaluate text).2, rest,
        .endless (printed .empty ((starting program piped draws).session.evaluate text).1)⟩) := by
    have hstart : (starting program piped draws).runSource
        (starting program piped draws).standardInput = _ := hsource
    rw [Progress.run, if_pos rfl, Progress.runStandardInput, hstart]
  exact ⟨rest, by rw [execute_eq program hargs, hrun]⟩

/-- The inputs are those that the arguments ask for. They come to the same as all of them at once,
joined by line breaks, on the standard input: the same is printed, the same is reported but for the
lines, and the exit status is the number of reports. If a file cannot be opened, what was printed,
reported and bound is what the inputs in front of it leave, nothing behind it is looked at, and the
exit status is one. -/
theorem execute_inputs (program : String) {arguments : List String} {inputs : List Input}
    (hargs : readArguments arguments = .ok inputs) (hne : inputs ≠ []) (standardInput : LineSource)
    (files : Files) (draws : Draws α) :
    Asks arguments inputs ∧
    (∀ contents piped, List.Forall₂ (Input.Gives files) inputs contents →
      LineSource.Contains piped ("\n".intercalate contents) →
      (execute program arguments standardInput files draws).output =
          (execute program [] piped files draws).output ∧
        ∃ rs rs', (execute program arguments standardInput files draws).Shows program rs ∧
          (execute program [] piped files draws).Shows program rs' ∧
          rs'.map Report.problem = rs.map Report.problem) ∧
    ∀ before path after message, inputs = before ++ .file path :: after → path ≠ "-" →
      Openable files before → files path = .error message →
      ∃ q, Progress.takeAll files before (starting program standardInput draws) = (.ok (), q) ∧
        (∀ files' after', (∀ path', .file path' ∈ before ++ [.file path] →
            files' path' = files path') →
          Progress.takeAll files' (before ++ .file path :: after')
            (starting program standardInput draws) = (.error (openingFailed path message), q)) ∧
        execute program arguments standardInput files draws =
          ⟨1, q.output.written, q.session.log.sink.written ++
            (program ++ ": " ++ openingFailed path message ++ "\n").toUTF8⟩ := by
  refine ⟨asks_of_readArguments hargs, ?_, ?_⟩
  · intro contents piped hgives hpiped
    -- the session starts without looking at the standard input
    have hsession : (starting program piped draws).session =
        (starting program standardInput draws).session := rfl
    obtain ⟨rest, hjoint⟩ := execute_piped program hpiped files draws
    rw [execute_gives program hargs hne hgives, hjoint, hsession]
    cases hgives with
    | nil => exact absurd rfl hne
    | @cons _ text _ texts =>
      -- one after another or joined by line breaks, the texts differ only in the lines of the
      -- reports
      have hsame := (starting program standardInput draws).session.evaluate_intercalate text texts
      refine ⟨?_, _, _, shows_outcome ?_, shows_outcome ?_, hsame.problems⟩
      · show printed .empty _ = printed .empty _
        rw [hsame.statements]
      · exact continues_evaluateAll _ (starting program standardInput draws).session
      · exact continues_evaluate _ (starting program standardInput draws).session
  · rintro before path after message rfl hpath hopen hfile
    have hendless : (starting program standardInput draws).Endless := ⟨.empty, rfl⟩
    -- the inputs in front of the missing file are dealt with, and leave `q`
    obtain ⟨q, hbefore, -⟩ := hendless.takeAll hopen
    refine ⟨q, hbefore, ?_, ?_⟩
    · intro files' after' hsame
      have hbefore' : Progress.takeAll files' before (starting program standardInput draws) = _ :=
        (Progress.takeAll_congr (fun path' h => hsame path' (List.mem_append_left _ h)) _).trans
          hbefore
      exact Progress.takeAll_unopenable hbefore' hpath
        ((hsame path (List.mem_append_right _ List.mem_cons_self)).trans hfile) after'
    · have hrun : Progress.run files (before ++ .file path :: after)
          (starting program standardInput draws) = _ :=
        (if_neg hne).trans (Progress.takeAll_unopenable hbefore hpath hfile after)
      rw [execute_eq program hargs, hrun]
      rfl

/-- There is one file, of two lines. -/
def oneFile (path : String) : Except String LineSource :=
  if path = "a.calc" then .ok (.ofText "r * 2\nr / 0")
  else .error "No such file or directory (os error 2)"

/-- A file between two texts, and one that is missing there. -/
theorem execute_inputs_oneFile :
    readArguments ["-e", "r = 3", "-f", "a.calc", "-e", "-r"] =
        .ok [.text "r = 3", .file "a.calc", .text "-r"] ∧
      (execute "calc" ["-e", "r = 3", "-f", "a.calc", "-e", "-r"] (.ofText "") oneFile
          (Double.draws 0)).output =
        (execute "calc" [] (.ofText "r = 3\nr * 2\nr / 0\n-r") oneFile (Double.draws 0)).output ∧
      readArguments ["-e", "r = 3", "-f", "b.calc", "-e", "r"] =
        .ok [.text "r = 3", .file "b.calc", .text "r"] ∧
      (execute "calc" ["-e", "r = 3", "-f", "b.calc", "-e", "r"] (.ofText "") oneFile
        (Double.draws 0)).status = 1 := by
  have hplain : ∀ input ∈ [.text "r = 3", .file "a.calc", .text "-r"], Input.Plain input := by
    simp only [List.forall_mem_cons]
    exact ⟨.text _, .file _ (by decide), .text _, List.forall_mem_nil _⟩
  have hplain' : ∀ input ∈ [.text "r = 3", .file "b.calc", .text "r"], Input.Plain input := by
    simp only [List.forall_mem_cons]
    exact ⟨.text _, .file _ (by decide), .text _, List.forall_mem_nil _⟩
  have hargs := readArguments_arguments hplain
  have hargs' := readArguments_arguments hplain'
  have hopen : oneFile "a.calc" = .ok (.ofText "r * 2\nr / 0") := if_pos rfl
  have hmissing : oneFile "b.calc" = .error "No such file or directory (os error 2)" :=
    if_neg (by decide)
  -- the text of the file does not end in a line break; joining the texts puts one there
  have hgives : List.Forall₂ (Input.Gives oneFile)
      [.text "r = 3", .file "a.calc", .text "-r"] ["r = 3", "r * 2\nr / 0", "-r"] :=
    .cons (.text _) (.cons (.file (by decide) hopen (LineSource.contains_ofText _))
      (.cons (.text _) .nil))
  have hpiped : (LineSource.ofText "r = 3\nr * 2\nr / 0\n-r").Contains
      ("\n".intercalate ["r = 3", "r * 2\nr / 0", "-r"]) := LineSource.contains_ofText _
  obtain ⟨-, hall, -⟩ := execute_inputs "calc" hargs (by simp) (.ofText "") oneFile (Double.draws 0)
  obtain ⟨-, -, hstop⟩ := execute_inputs "calc" hargs' (by simp) (.ofText "") oneFile (Double.draws 0)
  have hbefore : Openable oneFile [.text "r = 3"] := by
    intro path hpath
    simp at hpath
  obtain ⟨q, -, -, hexecute⟩ := hstop [.text "r = 3"] "b.calc" [.text "r"] _ rfl (by decide)
    hbefore hmissing
  exact ⟨hargs, (hall _ _ hgives hpiped).1, hargs', congrArg Outcome.status hexecute⟩

end CommandLine

end DeskCalc
