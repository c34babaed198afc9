import Formulary.Decimal.Literal
import Formulary.Number.Elementary
import Formulary.Number.Exact
import Formulary.Expr.Build
import Formulary.Expr.Display
import Formulary.Json.Read
import Formulary.Diagnostic.Lines
import Formulary.Identifier
import Formulary.Assumption.Read
import Formulary.Sign
import Formulary.Radical.Combine
import Formulary.Code.Render
import Formulary.Definition
import Formulary.Code.Emit
import Formulary.Code.Token
import Formulary.Code.Read
import Formulary.Evaluation.SpotCheck
import Formulary.Request.Basic
import Formulary.Storage.Output
import Formulary.Storage.Tree
import Formulary.Main
import Formulary.Proofs.Radical.Settling
import Formulary.Proofs.Radical.DefaultRule
import Formulary.Proofs.Radical.Exhaustion
import Formulary.Proofs.Code.RoundTrip
import Formulary.Proofs.Code.Denotation
import Formulary.Proofs.Code.Retarget
import Formulary.Proofs.Code.Exact
import Formulary.Proofs.Code.Parameters
import Formulary.Proofs.Expr.Built
import Formulary.Proofs.CommandLine
import Formulary.Proofs.Sign.Monotone
import Formulary.Proofs.Radical.PositiveRoots
import Formulary.Proofs.Code.Lexeme
import Formulary.Proofs.Code.Tokenization
import Formulary.Proofs.Code.Foresight
import Formulary.Proofs.Code.Failure
import Formulary.Proofs.Assumption.Word
import Formulary.Proofs.Assumption.Clause
import Formulary.Proofs.Assumption.Bound
import Formulary.Proofs.Assumption.Read
import Formulary.Proofs.Number.Ratio
import Formulary.Proofs.Identifier
import Formulary.Proofs.Definition
import Formulary.Proofs.Assumption.Written
import Formulary.Proofs.CommandLine.Arguments
import Formulary.Proofs.Evaluation.Range
import Formulary.Proofs.Evaluation.Report
import Formulary.Proofs.Display.Meaning
import Formulary.Proofs.Evaluation.Power
import Formulary.Proofs.Radical.Merging
import Formulary.Proofs.Request.Work
