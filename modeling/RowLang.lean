import RowLang.Binary64.Arith
import RowLang.Binary64.Basic
import RowLang.Binary64.Decimal
import RowLang.Binary64.Places
import RowLang.CommandLine.Arguments
import RowLang.CommandLine.Outcome
import RowLang.Decimal.Integer
import RowLang.Eval.Basic
import RowLang.Eval.Document
import RowLang.Eval.Format
import RowLang.Eval.Show
import RowLang.Eval.World
import RowLang.Expr.Basic
import RowLang.Expr.Grammar
import RowLang.Expr.Numeral
import RowLang.Expr.Outline
import RowLang.Expr.Printer
import RowLang.Grammar.Advice
import RowLang.Grammar.Word
import RowLang.Json.Document
import RowLang.Lazy.Basic
import RowLang.Lazy.Reader
import RowLang.Library
import RowLang.Location
import RowLang.Main
import RowLang.Operator
import RowLang.Parser.Basic
import RowLang.Parser.Token
import RowLang.Parser.Whole
import RowLang.Pattern.Basic
import RowLang.Pattern.Grammar
import RowLang.Pattern.Printer
import RowLang.Proofs.Eval.Operators
import RowLang.Proofs.Eval.Runs
import RowLang.Proofs.Expr.Tidy
import RowLang.Proofs.Row.Lookup
import RowLang.Proofs.Row.Sorted
import RowLang.Proofs.Run
import RowLang.Proofs.Solver.Decision
import RowLang.Proofs.Solver.Elimination
import RowLang.Proofs.Solver.Key
import RowLang.Proofs.Solver.Memo
import RowLang.Proofs.Solver.Outcome
import RowLang.Proofs.Solver.Parts
import RowLang.Proofs.Solver.Rounds
import RowLang.Proofs.Solver.Sound
import RowLang.Proofs.Solver.Verdict
import RowLang.Proofs.Solver.Grows
import RowLang.Proofs.Text.Word
import RowLang.Proofs.Tree.Basic
import RowLang.Proofs.Ty.Comparable
import RowLang.Proofs.Ty.Good
import RowLang.Proofs.Ty.Likeness
import RowLang.Proofs.Ty.Meaning
import RowLang.Proofs.Ty.Placed
import RowLang.Proofs.Ty.Reading
import RowLang.Proofs.Ty.Role
import RowLang.Proofs.Ty.Tidy
import RowLang.Proofs.Ty.Variables
import RowLang.Proofs.Typing.Judgement
import RowLang.Proofs.Typing.Safe
import RowLang.Proofs.Typing.Setting
import RowLang.Proofs.Typing.Solution
import RowLang.Proofs.Value.Typed
import RowLang.Report.Basic
import RowLang.Report.Picture
import RowLang.Row.Basic
import RowLang.Row.Order
import RowLang.Scope
import RowLang.Session
import RowLang.Solver.Basic
import RowLang.Solver.Equate
import RowLang.Solver.Solve
import RowLang.Text.Class
import RowLang.Text.Capital
import RowLang.Text.Directive
import RowLang.Text.Printable
import RowLang.Text.Quoted
import RowLang.Ty.Basic
import RowLang.Ty.Grammar
import RowLang.Ty.Printer
import RowLang.Typing.Deduction
import RowLang.Typing.Infer
import RowLang.Value.Arith
import RowLang.Value.Basic
import RowLang.Value.Compare
import RowLang.Value.Fault
import RowLang.Value.Origin
import RowLang.Proofs.Solver.Failure
import RowLang.Proofs.Ty.Capture
import RowLang.Proofs.Solver.Mismatch
import RowLang.Proofs.Eval.Document
import RowLang.Proofs.Typing.Soundness
import RowLang.Proofs.Solver.Parallel
import RowLang.Proofs.Ty.Chain
import RowLang.Proofs.Typing.Lossless
import RowLang.Proofs.Solver.Equivariant
import RowLang.Proofs.Typing.Instance
import RowLang.Proofs.Session.Answers
import RowLang.Proofs.Expr.RoundTrip
import RowLang.Proofs.Expr.Single
import RowLang.Proofs.Eval.Explored
import RowLang.Proofs.Eval.Resolving
import RowLang.Proofs.Ty.Sameness
import RowLang.Proofs.Expr.Stable
import RowLang.Proofs.Typing.Uncaptured
import RowLang.Proofs.Typing.Stepped
import RowLang.Proofs.Eval.Alike
import RowLang.Proofs.Eval.Filled
import RowLang.Proofs.Eval.Forcing
import RowLang.Proofs.Eval.Loading
import RowLang.Proofs.Expr.Forms
import RowLang.Proofs.Report.Picture
import RowLang.Proofs.Session.Pictured
import RowLang.Proofs.Session.Agreement
import RowLang.Proofs.Session.Cached
import RowLang.Proofs.Eval.Untyped
import RowLang.Proofs.Parser.Repeated
import RowLang.Proofs.Ty.Inside
import RowLang.Proofs.Ty.Founded
import RowLang.Proofs.Solver.Ending
import RowLang.Proofs.Lazy.Cells
import RowLang.Proofs.Lazy.History
import RowLang.Proofs.Lazy.Promises
import RowLang.Proofs.Lazy.Order
import RowLang.Proofs.Session.Asked
import RowLang.Proofs.Grammar.Built
import RowLang.Proofs.Parser.Built
import RowLang.Proofs.Expr.Grouping
import RowLang.Proofs.Eval.Deeper
import RowLang.Proofs.Eval.Unfolded
import RowLang.Proofs.Eval.Cycles
import RowLang.Proofs.Pattern.Printed
import RowLang.Proofs.Row.Positional
import RowLang.Proofs.Solver.Tied
import RowLang.Proofs.Ty.Merged
import RowLang.Proofs.Ty.Pretty
