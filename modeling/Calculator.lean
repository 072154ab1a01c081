import Calculator.Answer
import Calculator.Binary64
import Calculator.CommandLine
import Calculator.Decimal
import Calculator.Decimal.Layout
import Calculator.Decimal.Literal
import Calculator.Decimal.Shortest
import Calculator.Diagnostic
import Calculator.Diagnostic.Marks
import Calculator.Diagnostic.SourceLine
import Calculator.Evaluation
import Calculator.Fault
import Calculator.Json
import Calculator.Json.Quoted
import Calculator.Program
import Calculator.Proofs.Forest
import Calculator.Proofs.Grammar
import Calculator.Proofs.Juxtaposition
import Calculator.Proofs.Parentheses
import Calculator.Proofs.Reordering
import Calculator.Proofs.Runs
import Calculator.Proofs.Scan
import Calculator.Proofs.Tokenization
import Calculator.Proofs.Tree
import Calculator.Report
import Calculator.Script
import Calculator.Session
import Calculator.Settings
import Calculator.Settings.Document
import Calculator.Settings.File
import Calculator.Settings.Integer
import Calculator.Settings.Quoted
import Calculator.Span
import Calculator.Style
import Calculator.Text.Blank
import Calculator.Text.Lines
import Calculator.Text.Width
import Calculator.Text.Width.Wide
import Calculator.Text.Width.Zero
import Calculator.Token
import Calculator.Token.Postfix
import Calculator.Token.Scan
import Calculator.Main
import Calculator.Proofs.FaultSpans
import Calculator.Proofs.Respan
import Calculator.Proofs.BlankInsertion
import Calculator.Proofs.Marks
import Calculator.Proofs.Underlining
import Calculator.Proofs.JsonText
import Calculator.Proofs.Lines
import Calculator.Proofs.Reports
import Calculator.Proofs.Scripts
import Calculator.Proofs.Bytes
import Calculator.Proofs.Checks
import Calculator.Proofs.Blocks
import Calculator.Proofs.Sessions
import Calculator.Proofs.Patterns
import Calculator.Proofs.Overflow
import Calculator.Proofs.ReleaseOrder
import Calculator.Proofs.Arguments
import Calculator.Proofs.Colour
import Calculator.Proofs.SettingsLines
import Calculator.Proofs.Sources
import Calculator.Proofs.Mismatch
import Calculator.Proofs.Groups
import Calculator.Proofs.TokenLines
import Calculator.Proofs.Divisors
import Calculator.Proofs.Midpoints
import Calculator.Proofs.FloatValues
import Calculator.Proofs.DecimalValues
import Calculator.Proofs.Literals
import Calculator.Proofs.ShortestDecimals
import Calculator.Proofs.NumberTexts
import Calculator.Proofs.ReportReading
import Calculator.Proofs.Breaks
import Calculator.Proofs.Places
import Calculator.Proofs.PlainNumbers
import Calculator.Proofs.FixedPlaces
import Calculator.Proofs.SettingsFiles
import Calculator.Proofs.Separator
import Calculator.Proofs.Alignment
import Calculator.Proofs.Waiting
