import DeskCalc.Text.Plain

/-!
# Arguments

What the arguments of the command line ask for. Expressions, files and requests for the version may
be mixed, and they are dealt with in the order in which they were given.

An expression may start with a hyphen, so reading the arguments takes three steps: whatever starts
with a hyphen and is no option is marked as an expression (`markExpressions`); the options are
matched with their values, each kind collected with the places where it occurred (`Matches`); and
the inputs of all kinds are put back in order (`Matches.inputs`).
-/

namespace DeskCalc.CommandLine

/-- Something the calculator is asked to deal with. -/
inductive Input where
  /-- Evaluate an expression, or several. -/
  | text (text : String)
  | file (path : String)
  | version
  deriving DecidableEq

inductive UsageError where
  /-- The option, shown with what it takes, has no value. -/
  | valueRequired (option : String)
  | repeated (option : String)
  | unexpectedArgument (argument : String)
  | unexpectedValue (value option : String)
  deriving DecidableEq

/-- The text shown for a usage error, in which arguments are shown as plain text. -/
def UsageError.message : UsageError → String
  | .valueRequired option => s!"error: a value is required for '{option}' but none was supplied"
  | .repeated option => s!"error: the argument '{option}' cannot be used multiple times"
  | .unexpectedArgument argument => s!"error: unexpected argument '{Text.plain argument}' found"
  | .unexpectedValue value option =>
    s!"error: unexpected value '{Text.plain value}' for '{option}' found; no more were expected"

inductive Refusal where
  | help
  | usage (error : UsageError)
  deriving DecidableEq

/-! ### Marking expressions -/

def options : List String := ["-e", "-f", "-h", "-?", "--help", "-V", "--version", "--"]

/-- Is there anything behind a hyphen at the front? -/
def isHyphenLed (argument : String) : Bool :=
  match argument.toList with
  | '-' :: _ :: _ => true
  | _ => false

/--
Puts `-e` in front of every argument that starts with a hyphen, is no option, and is neither the
value of an option nor behind `--`.
-/
def markExpressions : List String → List String
  | [] => []
  | argument :: rest =>
    if argument = "-e" ∨ argument = "-f" then
      match rest with
      | [] => [argument]
      | value :: rest => argument :: value :: markExpressions rest
    else if argument = "--" then argument :: rest
    else if isHyphenLed argument ∧ argument ∉ options then
      "-e" :: argument :: markExpressions rest
    else argument :: markExpressions rest

/-! ### Matching options -/

/--
The options and their values. Each value comes with its place among the arguments; the values of one
option are in order.
-/
structure Matches where
  expressions : List (Nat × String) := []
  files : List (Nat × String) := []
  bare : List (Nat × String) := []
  version : Option Nat := none
  deriving DecidableEq

namespace Matches

/-- One more value of `-e`. -/
def addExpression (place : Nat) (text : String) (m : Matches) : Matches :=
  { m with expressions := m.expressions ++ [(place, text)] }

def addFile (place : Nat) (path : String) (m : Matches) : Matches :=
  { m with files := m.files ++ [(place, path)] }

def addBare (place : Nat) (text : String) (m : Matches) : Matches :=
  { m with bare := m.bare ++ [(place, text)] }

/-- The inputs, each with its place, kind by kind. -/
def placed (m : Matches) : List (Nat × Input) :=
  m.expressions.map (fun (place, text) => (place, .text text)) ++
    m.files.map (fun (place, path) => (place, .file path)) ++
    m.bare.map (fun (place, text) => (place, .text text)) ++
    m.version.toList.map (fun place => (place, .version))

/-- The inputs in the order of their places. -/
def inputs (m : Matches) : List Input :=
  (m.placed.mergeSort fun a b => a.1 ≤ b.1).map (·.2)

end Matches

/-- The letters of the options that have one. -/
def optionLetters : List Char := ['e', 'f', 'h', '?', 'V']

def longOptions : List String := ["--help", "--version"]

/-- What is wrong with a name behind two hyphens that is no long option by itself: it is none, or
it is one with a value, which none of them takes. -/
def refusedLong (name : List Char) : UsageError :=
  let option := String.ofList ('-' :: '-' :: name.takeWhile (· ≠ '='))
  match name.dropWhile (· ≠ '=') with
  | _ :: value =>
    if option ∈ longOptions then .unexpectedValue (String.ofList value) option
    else .unexpectedArgument option
  | [] => .unexpectedArgument option

/--
What is wrong with an argument that stands where the value of `-f` should be and starts with a
hyphen: it is an option, so that `-f` has no value, or it is no option at all.
-/
def missingFile (argument : String) : UsageError :=
  match argument.toList with
  | '-' :: '-' :: name =>
    if argument = "--" ∨ argument ∈ longOptions then .valueRequired "-f <FILE>"
    else refusedLong name
  | '-' :: letter :: _ =>
    if letter ∈ optionLetters then .valueRequired "-f <FILE>"
    else .unexpectedArgument (String.ofList ['-', letter])
  | _ => .valueRequired "-f <FILE>"

/-- The value that is attached to the letter of an option. It may stand behind an equals sign. -/
def attachedValue : List Char → String
  | '=' :: value => String.ofList value
  | value => String.ofList value

/-- The value that the letters of an argument still ask for, which is the next argument. -/
inductive Awaited where
  | nothing
  | expression
  | file

/--
Matches the letters that share a hyphen, each of which has a place of its own. A letter that takes
a value takes all that is attached to it, or waits for the next argument.
-/
def matchLetters (place : Nat) (m : Matches) : List Char → Except Refusal (Matches × Awaited)
  | [] => .ok (m, .nothing)
  | letter :: letters =>
    if letter = 'e' then
      if letters = [] then .ok (m, .expression)
      else .ok (m.addExpression place (attachedValue letters), .nothing)
    else if letter = 'f' then
      if letters = [] then .ok (m, .file)
      else .ok (m.addFile place (attachedValue letters), .nothing)
    else if letter = 'V' then
      if m.version.isSome then .error (.usage (.repeated "--version"))
      else matchLetters (place + 1) { m with version := some place } letters
    else if letter = 'h' ∨ letter = '?' then .error .help
    else .error (.usage (.unexpectedArgument (String.ofList ['-', letter])))

/-- Matches the arguments from the given place on, in addition to those matched before. -/
def matchFrom (place : Nat) (m : Matches) : List String → Except Refusal Matches
  | [] => .ok m
  | argument :: rest =>
    match argument.toList with
    | '-' :: '-' :: name =>
      if name = [] then
        .ok { m with bare := m.bare ++ (rest.zipIdx (place + 1)).map Prod.swap }
      else if argument = "--version" then
        if m.version.isSome then .error (.usage (.repeated "--version"))
        else matchFrom (place + 1) { m with version := some place } rest
      else if argument = "--help" then .error .help
      else .error (.usage (refusedLong name))
    | '-' :: letter :: letters =>
      let last := place + letters.length
      match matchLetters place m (letter :: letters) with
      | .error refusal => .error refusal
      | .ok (m, .nothing) => matchFrom (last + 1) m rest
      | .ok (m, .expression) =>
        match rest with
        | [] => .error (.usage (.valueRequired "-e <EXPR>"))
        | text :: rest => matchFrom (last + 2) (m.addExpression (last + 1) text) rest
      | .ok (m, .file) =>
        match rest with
        | [] => .error (.usage (.valueRequired "-f <FILE>"))
        | path :: rest =>
          if isHyphenLed path then .error (.usage (missingFile path))
          else matchFrom (last + 2) (m.addFile (last + 1) path) rest
    | _ => matchFrom (place + 1) (m.addBare place argument) rest

/-- The inputs that the arguments ask for, in order. -/
def readArguments (arguments : List String) : Except Refusal (List Input) :=
  (matchFrom 0 {} (markExpressions arguments)).map Matches.inputs

end DeskCalc.CommandLine
