import DeskCalc.CommandLine.Folder
import DeskCalc.Main
import DeskCalc.Proofs.Upcoming
import DeskCalc.Proofs.Memory
import DeskCalc.Proofs.Syntax.Tree
import DeskCalc.Proofs.Syntax.Reading
import DeskCalc.Proofs.Syntax.Sentence
import DeskCalc.Proofs.Syntax.Greedy
import DeskCalc.Proofs.Boundaries
import DeskCalc.Proofs.Reports
import DeskCalc.Proofs.Refinement
import DeskCalc.Proofs.Syntax.Totality
import DeskCalc.Proofs.Breaks
import DeskCalc.Proofs.Lines
import DeskCalc.Proofs.Syntax.Gaps
import DeskCalc.Proofs.Reachable
import DeskCalc.Proofs.Acceptance
import DeskCalc.Proofs.Runs
import DeskCalc.Proofs.Resynchronisation
import DeskCalc.Proofs.Remainder
import DeskCalc.Proofs.Simulation
import DeskCalc.Proofs.Alike
import DeskCalc.Proofs.Printing
import DeskCalc.Proofs.Concatenation
import DeskCalc.Proofs.Lexing
import DeskCalc.Proofs.Literals
import DeskCalc.Proofs.Encoding
import DeskCalc.Proofs.Calls
import DeskCalc.Proofs.Coherence
import DeskCalc.Proofs.DeadBranches
import DeskCalc.Proofs.NotANumber
import DeskCalc.Proofs.Names
import DeskCalc.Proofs.Propagation
import DeskCalc.Proofs.ErrorsShow
import DeskCalc.Proofs.Correspondence
import DeskCalc.Proofs.Quiet
import DeskCalc.Proofs.Bindings
import DeskCalc.Proofs.Ledger
import DeskCalc.Proofs.Display
import DeskCalc.Proofs.Lockstep
import DeskCalc.Proofs.Sinks
import DeskCalc.Proofs.Endings
import DeskCalc.Proofs.ReadFailure
import DeskCalc.Proofs.Inputs
import DeskCalc.Proofs.Script
import DeskCalc.Proofs.ReportLines
import DeskCalc.Proofs.Frame
import DeskCalc.Proofs.Interruption
import DeskCalc.Proofs.ReadAhead
import DeskCalc.Proofs.ArgumentOrder
import DeskCalc.Proofs.NumberTokens
import DeskCalc.Proofs.Rounding
import DeskCalc.Proofs.FiniteDoubles
import DeskCalc.Proofs.PrintedDecimals
import DeskCalc.Proofs.ReadBack
import DeskCalc.Proofs.FiniteResults
import DeskCalc.Proofs.CheckedMath
import DeskCalc.Proofs.Progress.CallTree
import DeskCalc.Proofs.Progress.Scanning
import DeskCalc.Proofs.Progress.Parsing
import DeskCalc.Proofs.Progress.Descent
import DeskCalc.Proofs.Progress.Loops
