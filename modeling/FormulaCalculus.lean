import FormulaCalculus.AlgebraTerm
import FormulaCalculus.Batch
import FormulaCalculus.Count
import FormulaCalculus.Decimal.Basic
import FormulaCalculus.Decimal.Notation
import FormulaCalculus.Decimal.Reader
import FormulaCalculus.Decimal.Shortest
import FormulaCalculus.Derivative
import FormulaCalculus.Equation
import FormulaCalculus.Evaluation
import FormulaCalculus.Fault
import FormulaCalculus.Formula.Reader
import FormulaCalculus.Formula.Token
import FormulaCalculus.Log
import FormulaCalculus.Op
import FormulaCalculus.Print.Graph
import FormulaCalculus.Print.Infix
import FormulaCalculus.Print.Latex
import FormulaCalculus.Print.Outline
import FormulaCalculus.Scalar
import FormulaCalculus.Settings
import FormulaCalculus.Simplify
import FormulaCalculus.Taylor
import FormulaCalculus.Text.Blank
import FormulaCalculus.Text.Digit
import FormulaCalculus.Text.Lines
import FormulaCalculus.Text.Printable
import FormulaCalculus.Text.Quoted
import FormulaCalculus.Text.Utf8
import FormulaCalculus.Tolerance
import FormulaCalculus.Traced
import FormulaCalculus.Tree.Basic
import FormulaCalculus.Tree.Traversal
import FormulaCalculus.Tree.WellFormed
import FormulaCalculus.Workbook
import FormulaCalculus.CommandLine.Help
import FormulaCalculus.CommandLine.Options
import FormulaCalculus.CommandLine.Run
import FormulaCalculus.Disk.Folder
import FormulaCalculus.Main
import FormulaCalculus.Proofs.Simplify.Pass
import FormulaCalculus.Proofs.Simplify.Settled
import FormulaCalculus.Proofs.Double.Order
import FormulaCalculus.Proofs.Simplify.FixedPoint
import FormulaCalculus.Proofs.Exact
import FormulaCalculus.Proofs.Simplify.Meaning
import FormulaCalculus.Proofs.Formula.Scanning
import FormulaCalculus.Proofs.Formula.Grammar
import FormulaCalculus.Proofs.Formula.Steps
import FormulaCalculus.Proofs.Formula.Completeness
import FormulaCalculus.Proofs.Formula.Soundness
import FormulaCalculus.Proofs.Formula.Acceptance
import FormulaCalculus.Proofs.Formula.Limit
import FormulaCalculus.Proofs.Print.Spelling
import FormulaCalculus.Proofs.Print.Minimal
import FormulaCalculus.Proofs.Print.Full
import FormulaCalculus.Proofs.Double.Rounding
import FormulaCalculus.Proofs.Double.Packing
import FormulaCalculus.Proofs.Double.Reading
import FormulaCalculus.Proofs.Decimal.Shortest
import FormulaCalculus.Proofs.Decimal.PlainText
import FormulaCalculus.Proofs.Print.RoundTrip
import FormulaCalculus.Proofs.Derivative.Dual
import FormulaCalculus.Proofs.Taylor.PolynomialTree
import FormulaCalculus.Proofs.Taylor.Reproduction
import FormulaCalculus.Proofs.Tree.Copy
import FormulaCalculus.Proofs.Tree.ExactValue
import FormulaCalculus.Proofs.Tree.Deep
import FormulaCalculus.Proofs.Derivative.Rules
import FormulaCalculus.Proofs.Double.Alike
import FormulaCalculus.Proofs.Double.NotANumber
import FormulaCalculus.Proofs.Batch.Operators
import FormulaCalculus.Proofs.Batch.Rows
import FormulaCalculus.Proofs.Batch.Agreement
import FormulaCalculus.Proofs.Print.ReadBack
import FormulaCalculus.Proofs.Latex.Grammar
import FormulaCalculus.Proofs.Latex.Unambiguous
import FormulaCalculus.Proofs.Latex.Injective
import FormulaCalculus.Proofs.Tree.Validity
import FormulaCalculus.Proofs.Simplify.Validity
import FormulaCalculus.Proofs.Derivative.Validity
import FormulaCalculus.Proofs.Latex.Minus
import FormulaCalculus.Proofs.Equation.Good
import FormulaCalculus.Proofs.Equation.Runs
import FormulaCalculus.Proofs.Equality.Operators
import FormulaCalculus.Proofs.Equality.Trees
import FormulaCalculus.Proofs.Equality.Passes
import FormulaCalculus.Proofs.Print.Brackets
import FormulaCalculus.Proofs.Equation.Outcomes
import FormulaCalculus.Proofs.Formula.Faults
import FormulaCalculus.Proofs.Print.Total
import FormulaCalculus.Proofs.Taylor.Faults
import FormulaCalculus.Proofs.CommandLine.Exit
import FormulaCalculus.Proofs.Double.Identities
import FormulaCalculus.Proofs.Simplify.Domain
import FormulaCalculus.Proofs.Simplify.Powers
import FormulaCalculus.Proofs.Simplify.Folding
import FormulaCalculus.Proofs.Simplify.Interruption
import FormulaCalculus.Proofs.Simplify.Weight
import FormulaCalculus.Proofs.Settings
import FormulaCalculus.Proofs.Derivative.Vanishing
import FormulaCalculus.Proofs.Taylor.Orders
import FormulaCalculus.Proofs.Taylor.AtPoint
import FormulaCalculus.Proofs.Derivative.Jet
import FormulaCalculus.Proofs.Derivative.Mixed
import FormulaCalculus.Proofs.Derivative.Malformed
import FormulaCalculus.Proofs.Equation.Exhaustion
import FormulaCalculus.Proofs.Formula.Cuts
import FormulaCalculus.Proofs.Decimal.Literal
import FormulaCalculus.Proofs.Formula.Completion
import FormulaCalculus.Proofs.Formula.Places
import FormulaCalculus.Proofs.Formula.Spacing
import FormulaCalculus.Proofs.Derivative.Growth
import FormulaCalculus.Proofs.Tree.Traversal
import FormulaCalculus.Proofs.Print.Graph
import FormulaCalculus.Proofs.Log.Handlers
import FormulaCalculus.Proofs.Log.File
import FormulaCalculus.Proofs.Algebra.Meaning
import FormulaCalculus.Proofs.Double.Ceiling
import FormulaCalculus.Proofs.Settings.Runs
import FormulaCalculus.Proofs.Formula.Tiling
