import LedgerFields.Cell
import LedgerFields.Command.Arguments
import LedgerFields.Command.Run
import LedgerFields.Delimited.Guess
import LedgerFields.Delimited.Load
import LedgerFields.Delimited.Record
import LedgerFields.File.Path
import LedgerFields.File.Tree
import LedgerFields.Formula.Evaluate
import LedgerFields.Formula.Expr
import LedgerFields.Formula.Fault
import LedgerFields.Formula.Outcome
import LedgerFields.Formula.Parse
import LedgerFields.Formula.Token
import LedgerFields.Json.Fault
import LedgerFields.Json.Parse
import LedgerFields.Json.Scan
import LedgerFields.Json.Value
import LedgerFields.Main
import LedgerFields.Notice
import LedgerFields.Number.Binary64
import LedgerFields.Number.Decimal
import LedgerFields.Number.Hundredths
import LedgerFields.Number.Layout
import LedgerFields.Number.Numeral
import LedgerFields.Proofs.Cell
import LedgerFields.Proofs.Delimited.Header
import LedgerFields.Proofs.Delimited.Keys
import LedgerFields.Proofs.Delimited.Load
import LedgerFields.Proofs.Delimited.Promise
import LedgerFields.Proofs.Delimited.Splitting
import LedgerFields.Proofs.Delimited.Suffix
import LedgerFields.Proofs.Delimited.Trimmed
import LedgerFields.Proofs.Delimited.Unique
import LedgerFields.Proofs.Fallible
import LedgerFields.Proofs.Formula.Acceptance
import LedgerFields.Proofs.Formula.Blame
import LedgerFields.Proofs.Formula.Evaluation.Amounts
import LedgerFields.Proofs.Formula.Evaluation.Depth
import LedgerFields.Proofs.Formula.Evaluation.Division
import LedgerFields.Proofs.Formula.Evaluation.Equations
import LedgerFields.Proofs.Formula.Evaluation.Faults
import LedgerFields.Proofs.Formula.Evaluation.Flexible
import LedgerFields.Proofs.Formula.Evaluation.Limit
import LedgerFields.Proofs.Formula.Evaluation.NegativeZero
import LedgerFields.Proofs.Formula.Evaluation.Overflow
import LedgerFields.Proofs.Formula.Evaluation.Recursive
import LedgerFields.Proofs.Formula.Evaluation.Values
import LedgerFields.Proofs.Formula.Grammar
import LedgerFields.Proofs.Formula.Leaves
import LedgerFields.Proofs.Formula.Lossless
import LedgerFields.Proofs.Formula.Messages
import LedgerFields.Proofs.Formula.Munch
import LedgerFields.Proofs.Formula.Nesting
import LedgerFields.Proofs.Formula.Reading.Completeness
import LedgerFields.Proofs.Formula.Reading.Limit
import LedgerFields.Proofs.Formula.Reading.Soundness
import LedgerFields.Proofs.Formula.Reading.Step
import LedgerFields.Proofs.Formula.Reading.Viable
import LedgerFields.Proofs.Formula.Reference
import LedgerFields.Proofs.Formula.Rendering.RoundTrip
import LedgerFields.Proofs.Formula.Rendering.Tokens
import LedgerFields.Proofs.Formula.Spelling
import LedgerFields.Proofs.Number.Arithmetic
import LedgerFields.Proofs.Number.Encoding
import LedgerFields.Proofs.Number.Finite
import LedgerFields.Proofs.Number.Hundredths
import LedgerFields.Proofs.Number.Nearest
import LedgerFields.Proofs.Number.Operations
import LedgerFields.Proofs.Number.Quarters
import LedgerFields.Proofs.Number.Rounding
import LedgerFields.Proofs.Number.ScaledDecimal
import LedgerFields.Proofs.Number.Scientific
import LedgerFields.Proofs.Number.Shortest
import LedgerFields.Proofs.Number.Signed
import LedgerFields.Proofs.Number.Spacing
import LedgerFields.Proofs.Number.Text
import LedgerFields.Proofs.Report.Agreement
import LedgerFields.Proofs.Report.Batch
import LedgerFields.Proofs.Report.Cleaning
import LedgerFields.Proofs.Report.Conclusive
import LedgerFields.Proofs.Report.Division
import LedgerFields.Proofs.Report.Document
import LedgerFields.Proofs.Report.Finite
import LedgerFields.Proofs.Report.Identity
import LedgerFields.Proofs.Report.Independence
import LedgerFields.Proofs.Report.Lines
import LedgerFields.Proofs.Report.Opening
import LedgerFields.Proofs.Report.Order
import LedgerFields.Proofs.Report.Overflow
import LedgerFields.Proofs.Report.Sum
import LedgerFields.Proofs.Report.Trimmed
import LedgerFields.Proofs.Report.View
import LedgerFields.Proofs.Stateful
import LedgerFields.Proofs.Table.History
import LedgerFields.Proofs.Table.Index
import LedgerFields.Proofs.Table.Reachable
import LedgerFields.Proofs.Table.Rearranged
import LedgerFields.Proofs.Table.Repeated
import LedgerFields.Proofs.Table.Reports
import LedgerFields.Proofs.Table.Sound
import LedgerFields.Proofs.Table.Trimmed
import LedgerFields.Proofs.Text.Pieces
import LedgerFields.Proofs.Text.Trim
import LedgerFields.Proofs.Text.Utf8
import LedgerFields.Report.Batch
import LedgerFields.Report.Direct
import LedgerFields.Report.Document
import LedgerFields.Report.Fault
import LedgerFields.Table
import LedgerFields.Text
