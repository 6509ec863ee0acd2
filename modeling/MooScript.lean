import MooScript.Main
import MooScript.Proofs.Aggregate
import MooScript.Proofs.Arithmetic
import MooScript.Proofs.Binary64.Integer
import MooScript.Proofs.Builtin.Frame
import MooScript.Proofs.Clean.Session
import MooScript.Proofs.Encoding.Canonical
import MooScript.Proofs.Encoding.Effort
import MooScript.Proofs.Encoding.Extension
import MooScript.Proofs.Environment
import MooScript.Proofs.Evaluation.Boundary
import MooScript.Proofs.Evaluation.Coincidence
import MooScript.Proofs.Evaluation.Fatal
import MooScript.Proofs.Evaluation.Grouping
import MooScript.Proofs.Evaluation.Limit
import MooScript.Proofs.Evaluation.Recovery
import MooScript.Proofs.Evaluation.Scopes
import MooScript.Proofs.Evaluation.Unrolling
import MooScript.Proofs.Lexing.Lines
import MooScript.Proofs.Lexing.Offence
import MooScript.Proofs.Literal.Legible
import MooScript.Proofs.Literal.Reread
import MooScript.Proofs.Location.Failure
import MooScript.Proofs.Location.Layout
import MooScript.Proofs.Location.LineIndex
import MooScript.Proofs.Order.Comparison
import MooScript.Proofs.Order.Extremes
import MooScript.Proofs.Order.Operators
import MooScript.Proofs.Order.Quota
import MooScript.Proofs.Order.Range
import MooScript.Proofs.Order.Text
import MooScript.Proofs.Store.Refinement
import MooScript.Proofs.Syntax.Lookahead.Joining
import MooScript.Proofs.Syntax.Lookahead.Program
import MooScript.Proofs.Syntax.Progress.Program
import MooScript.Source.LineIndex
