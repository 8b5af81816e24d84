import DeskCalc.Statement

/-!
# Running an input

An input is evaluated statement by statement to its end. Running it prints the value of each
expression as soon as it is known, and stops where printing fails; evaluating it collects the
statements.
-/

namespace DeskCalc

/-- Prints what a statement shows: the value of an expression on a line of its own. -/
def Statement.print {α : Type} [Arithmetic α] (statement : Statement α) (w : Writer) :
    Except String Unit × Writer :=
  match statement with
  | .assignment _ => (.ok (), w)
  | .expression value =>
    match w.write ("\t" ++ Arithmetic.format value ++ "\n") with
    | (.ok (), w) => (w.flush, w)
    | (.error message, w) => (.error message, w)

namespace Evaluation

variable {α : Type} [Arithmetic α]

/-- Evaluates the statements that are left. -/
def statements (e : Evaluation α) : List (Statement α) × Evaluation α :=
  match _h : e.statement with
  | (none, e') => ([], e')
  | (some statement, e') =>
    let (rest, e'') := e'.statements
    (statement :: rest, e'')
termination_by e.pending
decreasing_by exact pending_statement_lt _h

/-- Evaluates the statements that are left and prints them, as long as printing does not fail. -/
def run (w : Writer) (e : Evaluation α) : Except String Unit × Writer × Evaluation α :=
  match _h : e.statement with
  | (none, e') => (.ok (), w, e')
  | (some statement, e') =>
    match statement.print w with
    | (.ok (), w) => e'.run w
    | (.error message, w) => (.error message, w, e')
termination_by e.pending
decreasing_by exact pending_statement_lt _h

end Evaluation

namespace Session

variable {α : Type} [Arithmetic α]

/-- An evaluation of a source from its first line. -/
def start (source : LineSource) (s : Session α) : Evaluation α := .start source s.resetLine

/-- Runs a source: evaluates it to its end and prints the value of every expression. -/
def run (source : LineSource) (w : Writer) (s : Session α) :
    Except String Unit × Writer × Session α :=
  let (result, w, e) := (s.start source).run w
  (result, w, e.session)

/-- Evaluates a text. -/
def evaluate (text : String) (s : Session α) : List (Statement α) × Session α :=
  let (statements, e) := (s.start (.ofText text)).statements
  (statements, e.session)

end Session

end DeskCalc
