import DeskCalc.CommandLine.Execution
import DeskCalc.Double.Checked

/-!
# The program

Connects the command line with the machine: reads files and the standard input, and writes what the
calculator prints and reports. The standard input is evaluated line by line, so that whoever types it
sees each value at once.
-/

namespace DeskCalc.Program

open CommandLine

def failureText : IO.Error → String
  | .noFileOrDirectory _ code details => s!"{details} (os error {code})"
  | .permissionDenied _ code details => s!"{details} (os error {code})"
  | .invalidArgument _ code details => s!"{details} (os error {code})"
  | .inappropriateType _ code details => s!"{details} (os error {code})"
  | .otherError code details => s!"{details} (os error {code})"
  | failure => toString failure

/-- Reads an open file. What fails only now is a source that cannot be read. -/
def readFile (handle : IO.FS.Handle) : IO LineSource := do
  try
    return { LineSource.ofBytes (← handle.readBinToEnd) with owned := true }
  catch failure => return .failing "" (failureText failure)

def openFile (path : String) : IO (Except String LineSource) := do
  try
    let source ← readFile (← IO.FS.Handle.mk path .read)
    return .ok source
  catch failure => return .error (failureText failure)

/-- Writes what was printed and reported since the last time. -/
def drain (p : Progress Float) : IO (Progress Float) := do
  let output ← IO.getStdout
  output.write p.output.written
  output.flush
  let errors ← IO.getStderr
  errors.write p.session.log.sink.written
  errors.flush
  let log := { p.session.log with sink := .writer .unlimited }
  return { p with session := { p.session with log }, output := .unlimited }

partial def readLine (input : IO.FS.Stream) (line : ByteArray) : IO ByteArray := do
  let bytes ← input.read 1
  if bytes.isEmpty then return line
  else if bytes.data.contains 10 then return line ++ bytes
  else readLine input (line ++ bytes)

/-- Evaluates the standard input line by line, going on with the line count of the session. -/
partial def takeLines (p : Progress Float) : IO (Progress Float) := do
  let bytes ← readLine (← IO.getStdin) .empty
  if bytes.isEmpty then return p
  let line := LineSource.decodeLine bytes.data.toList
  let (_, output, e) := (Evaluation.start ⟨[line], .clean, false⟩ p.session).run p.output
  let p ← drain { p with session := e.session, output }
  if line = .undecodable then return p else takeLines p

/-- Deals with inputs in order, up to the first that fails. -/
def takeInputs : List Input → Progress Float → IO (Except String Unit × Progress Float)
  | [], p => return (.ok (), p)
  | .file "-" :: inputs, p => do
    let p ← takeLines { p with session := p.session.resetLine }
    takeInputs inputs p
  | input :: inputs, p => do
    let opened ← match input with
      | .file path => openFile path
      | _ => pure (.error "")
    let (result, p) := p.take (fun _ => opened) input
    let p ← drain p
    match result with
    | .ok () => takeInputs inputs p
    | .error message => return (.error message, p)

def call (arguments : List String) : IO UInt32 := do
  let name := programName (← IO.appPath).toString
  match readArguments arguments with
  | .error .help =>
    IO.print (helpText name)
    return 0
  | .error (.usage error) =>
    IO.eprintln error.message
    return 2
  | .ok inputs =>
    let seed := (← IO.getRandomBytes 8).data.foldl (fun seed byte => seed * 256 + byte.toUInt64) 0
    let session := Session.new name (.writer .unlimited) (Double.draws seed)
    let inputs := if inputs = [] then [.file "-"] else inputs
    let (result, p) ← takeInputs inputs ⟨session, .ofText "", .unlimited⟩
    match result with
    | .ok () => return UInt32.ofNat (exitStatus p.session.errorCount)
    | .error message =>
      IO.eprintln (name ++ ": " ++ message)
      return 1

end DeskCalc.Program

/-- Evaluates what the arguments of the command line ask for. -/
def main (arguments : List String) : IO UInt32 := DeskCalc.Program.call arguments
