import DeskCalc.Problem
import DeskCalc.Text.Quoted
import DeskCalc.Writer

/-!
# The error log

The log knows the line that the input has reached, records each problem with it, and shows it where
someone is looking.

* `Report`, `ErrorLog.render`: a recorded problem and the line shown for it;
* `ErrorLog.report`: records and shows a problem;
* `ErrorLog.nextLine`, `resetLine`: the line the input has reached;
* `ErrorLog.describe`: the whole log as a text.
-/

namespace DeskCalc

structure Report where
  /-- The line the input had reached. -/
  line : Nat
  problem : Problem
  deriving DecidableEq

namespace Report

def kind (r : Report) : ProblemKind := r.problem.kind

def message (r : Report) : String := r.problem.message

end Report

inductive Sink where
  /-- Nowhere. -/
  | silent
  | writer (w : Writer)

namespace Sink

/-- Shows a text. What cannot be written is lost, and nobody is told. -/
def print (text : String) : Sink → Sink
  | .silent => .silent
  | .writer w => .writer (w.write text).2

def written : Sink → ByteArray
  | .silent => .empty
  | .writer w => w.written

end Sink

structure ErrorLog where
  /-- The name that reports start with. -/
  program : String
  /-- The line the input has reached, counted from one. -/
  line : Nat
  /-- How many problems were recorded. -/
  errors : Nat
  history : Array Report
  sink : Sink
  counted : errors = history.size

namespace ErrorLog

def new (program : String) (sink : Sink) : ErrorLog where
  program := program
  line := 1
  errors := 0
  history := #[]
  sink := sink
  counted := rfl

def count (log : ErrorLog) : Nat := log.errors

def render (log : ErrorLog) (r : Report) : String :=
  s!"{log.program}: {r.message} near line {r.line}"

/-- Records a problem at the line the input has reached, and shows it. -/
def report (problem : Problem) (log : ErrorLog) : ErrorLog :=
  let r : Report := ⟨log.line, problem⟩
  { log with
    errors := log.errors + 1
    history := log.history.push r
    sink := log.sink.print (log.render r ++ "\n")
    counted := by rw [log.counted, Array.size_push] }

def nextLine (log : ErrorLog) : ErrorLog := { log with line := log.line + 1 }

def resetLine (log : ErrorLog) : ErrorLog := { log with line := 1 }

/-- A report as it appears in the description of a log. -/
def describeReport (r : Report) : String :=
  "Reported \x7b line: " ++ toString r.line ++ ", kind: " ++ r.kind.name ++ ", message: " ++
    Text.quoted r.message ++ " \x7d"

/-- The log as a text: its program, the number of problems, the line and all reports. -/
def describe (log : ErrorLog) : String :=
  "Diagnostics \x7b prog_name: " ++ Text.quoted log.program ++ ", errors: " ++ toString log.count ++
    ", line: " ++ toString log.line ++ ", history: [" ++
    ", ".intercalate (log.history.toList.map describeReport) ++ "], .. \x7d"

theorem count_eq (log : ErrorLog) : log.count = log.history.size := log.counted

@[simp] theorem count_report (problem : Problem) (log : ErrorLog) :
    (log.report problem).count = log.count + 1 := rfl

@[simp] theorem line_report (problem : Problem) (log : ErrorLog) :
    (log.report problem).line = log.line := rfl

end ErrorLog

end DeskCalc
