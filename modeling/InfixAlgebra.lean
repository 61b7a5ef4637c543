import InfixAlgebra.CommandLine.Outcome
import InfixAlgebra.Main
import InfixAlgebra.Scalar.Double
import InfixAlgebra.Proofs.Parser.Completeness
import InfixAlgebra.Proofs.Parser.Language
import InfixAlgebra.Proofs.Decimal.Layout
import InfixAlgebra.Proofs.Double.Bits
import InfixAlgebra.Proofs.Double.Sign
import InfixAlgebra.Proofs.Double.Unsigned
import InfixAlgebra.Proofs.Double.Display
import InfixAlgebra.Proofs.Printer.Scanning
import InfixAlgebra.Proofs.Printer.Operand
import InfixAlgebra.Proofs.Printer.RoundTrip
import InfixAlgebra.Proofs.Canonical.Running
import InfixAlgebra.Proofs.Canonical.Steps
import InfixAlgebra.Proofs.Canonical.Induction
import InfixAlgebra.Proofs.Exact.Basic
import InfixAlgebra.Proofs.Exact.Denotation
import InfixAlgebra.Proofs.Exact.Terms
import InfixAlgebra.Proofs.Exact.Powers
import InfixAlgebra.Proofs.Exact.Canonical
import InfixAlgebra.Proofs.Exact.Rational
import InfixAlgebra.Proofs.Canonical.Merging
import InfixAlgebra.Proofs.Normal.Regular
import InfixAlgebra.Proofs.Normal.Basic
import InfixAlgebra.Proofs.Normal.Writing
import InfixAlgebra.Proofs.Normal.Fixed
import InfixAlgebra.Proofs.Normal.Weight
import InfixAlgebra.Proofs.Normal.Sums
import InfixAlgebra.Proofs.Normal.Products
import InfixAlgebra.Proofs.Normal.Idempotence
import InfixAlgebra.Proofs.Normal.Kinds
import InfixAlgebra.Proofs.Double.Regular
import InfixAlgebra.Proofs.Exact.Arithmetic
import InfixAlgebra.Proofs.Derivative.Folding
import InfixAlgebra.Proofs.Derivative.Steps
import InfixAlgebra.Proofs.Derivative.Rules
import InfixAlgebra.Proofs.Fraction.Steps
import InfixAlgebra.Proofs.Fraction.Powers
import InfixAlgebra.Proofs.Fraction.Splitting
import InfixAlgebra.Proofs.Fraction.Expansion
import InfixAlgebra.Proofs.Fraction.Reduction
import InfixAlgebra.Proofs.Fraction.Rational
import InfixAlgebra.Proofs.Polynomial.Monomial
import InfixAlgebra.Proofs.Polynomial.Ordering
import InfixAlgebra.Proofs.Polynomial.Denotation
import InfixAlgebra.Proofs.Polynomial.Expansion
import InfixAlgebra.Proofs.Polynomial.Rationalization
import InfixAlgebra.Proofs.Polynomial.Identity
import InfixAlgebra.Proofs.Linear.Forms
import InfixAlgebra.Proofs.Linear.Identity
import InfixAlgebra.Proofs.LinearSystem.Entries
import InfixAlgebra.Proofs.LinearSystem.Elimination
import InfixAlgebra.Proofs.LinearSystem.Factorization
import InfixAlgebra.Proofs.LinearSystem.Substitution
import InfixAlgebra.Proofs.LinearSystem.Snapping
import InfixAlgebra.Proofs.LinearSystem.Solving
import InfixAlgebra.Proofs.Limits.Running
import InfixAlgebra.Proofs.Limits.Evaluation
import InfixAlgebra.Proofs.Limits.Requests
import InfixAlgebra.Proofs.Depth.Reach
import InfixAlgebra.Proofs.Depth.Simplification
import InfixAlgebra.Proofs.Parser.Prefix
import InfixAlgebra.Proofs.Parser.Outcome
import InfixAlgebra.Proofs.Parser.Prediction
import InfixAlgebra.Proofs.Parser.Positions
import InfixAlgebra.Proofs.Parser.ErrorPosition
import InfixAlgebra.Proofs.Ingredients.Basic
import InfixAlgebra.Proofs.Ingredients.Canonical
import InfixAlgebra.Proofs.Ingredients.Derivative
import InfixAlgebra.Proofs.Ingredients.Fraction
import InfixAlgebra.Proofs.Transport.Basic
import InfixAlgebra.Proofs.Transport.Running
import InfixAlgebra.Proofs.Transport.Canonical
import InfixAlgebra.Proofs.Transport.Derivative
import InfixAlgebra.Proofs.Transport.Fraction
import InfixAlgebra.Proofs.Double.Finite
import InfixAlgebra.Proofs.Double.Alike
import InfixAlgebra.Proofs.Overflow.Watched
import InfixAlgebra.Proofs.Overflow.Results
import InfixAlgebra.Proofs.Evaluation.Visits
import InfixAlgebra.Proofs.Evaluation.Outcome
import InfixAlgebra.Proofs.Evaluation.Shapes
import InfixAlgebra.Proofs.LinearSystem.Access
import InfixAlgebra.Proofs.Matrix.Produced
import InfixAlgebra.Proofs.Termination.Ending
import InfixAlgebra.Proofs.Termination.Rounds
import InfixAlgebra.Proofs.Termination.Simplification
import InfixAlgebra.Proofs.Termination.Rationalization
import InfixAlgebra.Proofs.Folding.Numeric
import InfixAlgebra.Proofs.Folding.Double
import InfixAlgebra.Proofs.Double.Ordered
import InfixAlgebra.Proofs.MultipliedOut.Shape
import InfixAlgebra.Proofs.MultipliedOut.Canonical
import InfixAlgebra.Proofs.MultipliedOut.Fraction
import InfixAlgebra.Proofs.MultipliedOut.Double
import InfixAlgebra.Proofs.Canonical.Keyed
import InfixAlgebra.Proofs.Canonical.Determinacy
import InfixAlgebra.Proofs.Printer.Outline
import InfixAlgebra.Proofs.Printer.Lines
import InfixAlgebra.Proofs.Printer.Distinct
import InfixAlgebra.Proofs.Commuted.Total
import InfixAlgebra.Proofs.Commuted.Tidy
import InfixAlgebra.Proofs.Commuted.Confluence
import InfixAlgebra.Proofs.Commuted.Canonical
import InfixAlgebra.Proofs.Double.NotANumber
import InfixAlgebra.Proofs.LinearSystem.Spreading
import InfixAlgebra.Proofs.LinearSystem.Dependent
import InfixAlgebra.Proofs.Matrix.Tables
import InfixAlgebra.Proofs.Matrix.Products
import InfixAlgebra.Proofs.Derivative.Visits
import InfixAlgebra.Proofs.Depth.Derivative
import InfixAlgebra.Proofs.Evaluation.Unbound
import InfixAlgebra.Proofs.Ingredients.Names
import InfixAlgebra.Proofs.Tokens.Numerals
import InfixAlgebra.Proofs.Tokens.Longest
import InfixAlgebra.Proofs.Tokens.Spacing
import InfixAlgebra.Proofs.Json.Reading
import InfixAlgebra.Proofs.Json.Writing
import InfixAlgebra.Proofs.LinearSystem.Naming
import InfixAlgebra.Proofs.Decimal.DataNumeral
import InfixAlgebra.Proofs.Double.DataText
import InfixAlgebra.Proofs.Interchange.Matrices
import InfixAlgebra.Proofs.Interchange.Results
import InfixAlgebra.Proofs.Double.Rounding
import InfixAlgebra.Proofs.Double.Quotient
import InfixAlgebra.Proofs.Fraction.Coefficients
import InfixAlgebra.Proofs.CommandLine.Reading
import InfixAlgebra.Proofs.CommandLine.Added
import InfixAlgebra.Proofs.CommandLine.Asked
import InfixAlgebra.Proofs.CommandLine.Requests
import InfixAlgebra.Proofs.CommandLine.Agreement
