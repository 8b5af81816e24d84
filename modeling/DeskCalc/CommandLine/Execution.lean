import DeskCalc.CommandLine.Arguments
import DeskCalc.Run

/-!
# The command line

The calculator deals with its inputs one after another in one session. It reads the standard input
where the file `-` stands, and where there is no input at all. It stops at the first file that cannot
be opened, and at the first failure to print.

* `Progress.take`, `Progress.takeAll`: dealing with inputs;
* `execute`: the exit status and everything that is written, for the given arguments;
* `programName`: the name reports start with.
-/

namespace DeskCalc.CommandLine

/-- What a path stands for: a source to read, or a message that says why it cannot be opened. -/
abbrev Files := String → Except String LineSource

/-- A session in which some inputs have been dealt with. -/
structure Progress (α : Type) where
  session : Session α
  standardInput : LineSource
  output : Writer

def versionText : String := "calc 1.0.0\n"

namespace Progress

variable {α : Type} [Arithmetic α]

/-- Runs a source, and returns what is left of it. -/
def runSource (source : LineSource) (p : Progress α) :
    Except String Unit × LineSource × Progress α :=
  let (result, output, e) := (p.session.start source).run p.output
  (result, e.stream.source, { p with session := e.session, output })

/-- Runs what is left of the standard input. -/
def runStandardInput (p : Progress α) : Except String Unit × Progress α :=
  let (result, standardInput, p) := p.runSource p.standardInput
  (result, { p with standardInput })

def take (files : Files) (input : Input) (p : Progress α) : Except String Unit × Progress α :=
  match input with
  | .text text =>
    let (result, _, p) := p.runSource (.ofText text)
    (result, p)
  | .file path =>
    if path = "-" then p.runStandardInput
    else
      match files path with
      | .ok source =>
        let (result, _, p) := p.runSource source
        (result, p)
      | .error message => (.error s!"error opening '{path}': {message}", p)
  | .version =>
    let (result, output) := p.output.write versionText
    (result, { p with output })

/-- Deals with inputs in order, up to the first that fails. -/
def takeAll (files : Files) : List Input → Progress α → Except String Unit × Progress α
  | [], p => (.ok (), p)
  | input :: inputs, p =>
    match p.take files input with
    | (.ok (), p) => takeAll files inputs p
    | (.error message, p) => (.error message, p)

/-- Deals with the given inputs, or with the standard input if there are none. -/
def run (files : Files) (inputs : List Input) (p : Progress α) : Except String Unit × Progress α :=
  if inputs = [] then p.runStandardInput else p.takeAll files inputs

end Progress

def exitStatus (reports : Nat) : Nat := min 255 reports

structure Outcome where
  status : Nat
  output : ByteArray
  errors : ByteArray

/-- The help text of the program of the given name, which is shown as plain text. -/
def helpText (program : String) : String :=
  "An interactive floating-point calculator: " ++
  "a recursive-descent hoc port with checked math built-ins\n\n" ++
  "Usage: " ++ Text.plain program ++ " [OPTIONS] [EXPR]...\n\n" ++
  "Arguments:\n" ++
  "  [EXPR]...  Expression strings, evaluated like -e\n\n" ++
  "Options:\n" ++
  "  -e <EXPR>      Evaluate an expression string\n" ++
  "  -f <FILE>      Evaluate a file (\"-\" reads standard input)\n" ++
  "  -V, --version  Print the version and carry on\n" ++
  "  -h, --help     Print help\n"

def outcome {α : Type} (program : String) (result : Except String Unit) (p : Progress α) :
    Outcome :=
  let reports := p.session.log.sink.written
  match result with
  | .ok () => ⟨exitStatus p.session.errorCount, p.output.written, reports⟩
  | .error message =>
    ⟨1, p.output.written, reports ++ (program ++ ": " ++ message ++ "\n").toUTF8⟩

/-- Calls the program of the given name. -/
def execute {α : Type} [Arithmetic α] (program : String) (arguments : List String)
    (standardInput : LineSource) (files : Files) (draws : Draws α) : Outcome :=
  match readArguments arguments with
  | .error .help => ⟨0, (helpText program).toUTF8, .empty⟩
  | .error (.usage error) => ⟨2, .empty, (error.message ++ "\n").toUTF8⟩
  | .ok inputs =>
    let session := Session.new program (.writer .unlimited) draws
    let (result, p) := Progress.run files inputs ⟨session, standardInput, .unlimited⟩
    outcome program result p

/-- The name used where the path of the program has none. -/
def defaultName : String := "calc"

/--
The name of the program at a path: the last part of the path, unless that leads to the directory
above.
-/
def programName (path : String) : String :=
  let parts := (path.toList.splitOn '/').filter fun part => part ≠ [] ∧ part ≠ ['.']
  match parts.getLast? with
  | none => defaultName
  | some part => if part = ['.', '.'] then defaultName else String.ofList part

end DeskCalc.CommandLine
