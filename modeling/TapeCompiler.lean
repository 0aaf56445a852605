import TapeCompiler.Machine.Run
import TapeCompiler.Main
import TapeCompiler.Proofs.Checker
import TapeCompiler.Proofs.Correctness
import TapeCompiler.Proofs.Loading
import TapeCompiler.Proofs.Pipeline
import TapeCompiler.Proofs.Temporaries
import TapeCompiler.Proofs.Bookkeeping
import TapeCompiler.Proofs.Syntax.Lexical
import TapeCompiler.Proofs.Syntax.Rescan
import TapeCompiler.Proofs.Syntax.Trivia
import TapeCompiler.Proofs.Syntax.Writable
import TapeCompiler.Proofs.Syntax.RoundTrip
import TapeCompiler.Proofs.CellCode.Tidy
import TapeCompiler.Proofs.CellCode.Blocked
import TapeCompiler.Proofs.Places
import TapeCompiler.Proofs.Guards
import TapeCompiler.Proofs.Machine.Balanced
import TapeCompiler.Proofs.History
import TapeCompiler.Proofs.Joined
import TapeCompiler.Proofs.Demand
import TapeCompiler.Proofs.Machine.Brackets
import TapeCompiler.Proofs.Syntax.Shape
import TapeCompiler.Proofs.Assignment
import TapeCompiler.Proofs.Exchange
import TapeCompiler.Proofs.Machine.Limits
import TapeCompiler.Proofs.LexicalScope
import TapeCompiler.Proofs.CellCode.Ring
import TapeCompiler.Proofs.TargetOrder
import TapeCompiler.Proofs.LineEnds
import TapeCompiler.Proofs.Reports
import TapeCompiler.Proofs.Assembly
import TapeCompiler.Proofs.Remarks
import TapeCompiler.Proofs.Syntax.Pushback
