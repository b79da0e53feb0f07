import BatteryParams.Consistency
import BatteryParams.Decimal.Layout
import BatteryParams.Decimal.Magnitude
import BatteryParams.Decimal.Numeral
import BatteryParams.Decimal.Shortest
import BatteryParams.Decimal.Text
import BatteryParams.Document.Basic
import BatteryParams.Document.Reader
import BatteryParams.Document.Values
import BatteryParams.Document.Writer
import BatteryParams.Expr.Basic
import BatteryParams.Expr.Eval
import BatteryParams.Expr.Parser
import BatteryParams.Expr.Registry
import BatteryParams.Expr.Token
import BatteryParams.Field.Basic
import BatteryParams.Field.Tables
import BatteryParams.Increasing
import BatteryParams.Intake
import BatteryParams.Issue
import BatteryParams.Json.Basic
import BatteryParams.Json.Parser
import BatteryParams.Json.Pointer
import BatteryParams.Json.Printer
import BatteryParams.Model
import BatteryParams.Named
import BatteryParams.Proofs.Consistency.Cutoffs
import BatteryParams.Proofs.Consistency.UnusedFields
import BatteryParams.Proofs.Decimal.Numeral
import BatteryParams.Proofs.Decimal.Value
import BatteryParams.Proofs.Document.Acceptance
import BatteryParams.Proofs.Document.Electrode
import BatteryParams.Proofs.Document.Faithful
import BatteryParams.Proofs.Document.Independence
import BatteryParams.Proofs.Document.Issues
import BatteryParams.Proofs.Document.Leaves
import BatteryParams.Proofs.Document.Lossless
import BatteryParams.Proofs.Document.Pairs
import BatteryParams.Proofs.Document.Parts
import BatteryParams.Proofs.Document.Paths
import BatteryParams.Proofs.Document.Places
import BatteryParams.Proofs.Document.Relabel
import BatteryParams.Proofs.Document.Reports
import BatteryParams.Proofs.Document.RoundTrip
import BatteryParams.Proofs.Document.SectionReports
import BatteryParams.Proofs.Document.Sections
import BatteryParams.Proofs.Document.Spelling
import BatteryParams.Proofs.Document.UserDefined
import BatteryParams.Proofs.Document.WellFormed
import BatteryParams.Proofs.Document.Written
import BatteryParams.Proofs.Except
import BatteryParams.Proofs.Expr.Checked
import BatteryParams.Proofs.Expr.Completeness
import BatteryParams.Proofs.Expr.Exactness
import BatteryParams.Proofs.Expr.Finite
import BatteryParams.Proofs.Expr.Grammar
import BatteryParams.Proofs.Expr.Height
import BatteryParams.Proofs.Expr.Restriction
import BatteryParams.Proofs.Expr.Samples
import BatteryParams.Proofs.Expr.Scan
import BatteryParams.Proofs.Expr.Shape
import BatteryParams.Proofs.Expr.Soundness
import BatteryParams.Proofs.Expr.Spelling
import BatteryParams.Proofs.Expr.WellFormed
import BatteryParams.Proofs.Float.Arithmetic
import BatteryParams.Proofs.Float.Integers
import BatteryParams.Proofs.Float.Nearest
import BatteryParams.Proofs.Float.Order
import BatteryParams.Proofs.Float.Rounding
import BatteryParams.Proofs.Json.Doubles
import BatteryParams.Proofs.Json.Filed
import BatteryParams.Proofs.Json.Place
import BatteryParams.Proofs.Json.Spelling
import BatteryParams.Proofs.Named
import BatteryParams.Proofs.Pointwise
import BatteryParams.Proofs.Reading
import BatteryParams.Proofs.Schema.Agreement
import BatteryParams.Proofs.Schema.Fields
import BatteryParams.Proofs.Schema.Meaning
import BatteryParams.Proofs.Schema.Records
import BatteryParams.Proofs.Schema.Sections
import BatteryParams.Proofs.Schema.UserDefined
import BatteryParams.Proofs.Schema.Validity
import BatteryParams.Proofs.Service.Answers
import BatteryParams.Proofs.Service.Finite
import BatteryParams.Proofs.Strictness
import BatteryParams.Proofs.Table.Breakpoints
import BatteryParams.Proofs.Table.Range
import BatteryParams.Proofs.Value
import BatteryParams.Reading
import BatteryParams.Schema.Basic
import BatteryParams.Schema.Document
import BatteryParams.Service.Router
import BatteryParams.Settings
import BatteryParams.StateOfCharge
import BatteryParams.Table
import BatteryParams.Text.Blank
import BatteryParams.Value
import BatteryParams.Version
import BatteryParams.Proofs.Table.Segment
import BatteryParams.Proofs.Table.Curve
import BatteryParams.Proofs.Document.TimeAxis
import BatteryParams.Proofs.Expr.Access
import BatteryParams.Proofs.Expr.Places
import BatteryParams.Proofs.Expr.Positions
import BatteryParams.Proofs.Expr.Layout
import BatteryParams.Proofs.Expr.Recursion
import BatteryParams.Proofs.StateOfCharge
