import DeskCalc.ErrorLog
import DeskCalc.SymbolTable

/-!
# Sessions

What outlives a single input: the symbol table, the error log and the supply of random numbers.
-/

namespace DeskCalc

/-- The state that one input hands on to the next. -/
structure Session (α : Type) where
  table : SymbolTable α
  log : ErrorLog
  draws : Draws α

namespace Session

variable {α : Type}

/-- A session with the standard names and nothing reported. -/
def new [Arithmetic α] (program : String) (sink : Sink) (draws : Draws α) : Session α :=
  ⟨.standard, .new program sink, draws⟩

def report (problem : Problem) (s : Session α) : Session α :=
  { s with log := s.log.report problem }

def nextLine (s : Session α) : Session α := { s with log := s.log.nextLine }

def resetLine (s : Session α) : Session α := { s with log := s.log.resetLine }

/-- The place of a name in the table, made for it if it has none. -/
def intern (name : String) (s : Session α) : Nat × Session α :=
  ((s.table.intern name).1, { s with table := (s.table.intern name).2 })

/-- Assigns the name at a place, or reports why that must not be. -/
def assign (index : Nat) (value : α) (s : Session α) : Except SymbolError (Session α) :=
  (s.table.assign index value).map fun table => { s with table := table }

def errorCount (s : Session α) : Nat := s.log.count

def value? (s : Session α) (name : String) : Option α := s.table.value? name

end Session

end DeskCalc
