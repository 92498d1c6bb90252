import Terse.Source
import Terse.Text.Blank
import Terse.Text.Split
import Terse.Text.Capital
import Terse.Text.Quoted
import Terse.Decimal.Division
import Terse.Decimal.Root
import Terse.Decimal.Whole
import Terse.Dictionary
import Terse.Operator
import Terse.Token.Lexeme
import Terse.Main
import Terse.Proofs.Label
import Terse.Proofs.Store
import Terse.Proofs.Invariant
import Terse.Proofs.Honest
import Terse.Proofs.Conversions
import Terse.Proofs.Operators
import Terse.Proofs.Runs
import Terse.Proofs.Soundness
import Terse.Proofs.Lockstep
import Terse.Proofs.Reached
import Terse.Proofs.Laziness
import Terse.Proofs.Cache
import Terse.Proofs.Frame
import Terse.Proofs.Grouping
import Terse.Proofs.Precedence
import Terse.Proofs.Derivation
import Terse.Proofs.Totality
import Terse.Proofs.Depth
import Terse.Proofs.Accepted
import Terse.Proofs.Conformance
import Terse.Proofs.WellFormed
import Terse.Proofs.Arity
import Terse.Proofs.Completeness
import Terse.Proofs.Digits
import Terse.Proofs.Printing
import Terse.Proofs.RoundTrip
import Terse.Proofs.Coverage
import Terse.Proofs.Visibility
import Terse.Proofs.OperatorFold
import Terse.Proofs.Convergence
import Terse.Proofs.Materialized
import Terse.Proofs.Packed
import Terse.Proofs.Watched
import Terse.Proofs.ExponentRange
import Terse.Proofs.Nesting
import Terse.Proofs.Enclosed
import Terse.Proofs.Delimited
import Terse.Proofs.Places
import Terse.Proofs.Behind
import Terse.Proofs.Wrapped
import Terse.Proofs.CombinedFold
import Terse.Proofs.Brackets
import Terse.Proofs.Rational
import Terse.Proofs.Reread
import Terse.Proofs.Rounding
import Terse.Proofs.Powers
import Terse.Proofs.Nearest
import Terse.Proofs.Quotients
import Terse.Proofs.Escapes
import Terse.Proofs.Numerals
import Terse.Proofs.Equality
import Terse.Proofs.Readback
import Terse.Proofs.Known
import Terse.Proofs.Remainders
import Terse.Proofs.Ranges
import Terse.Proofs.Groups
import Terse.Proofs.Sorting
import Terse.Proofs.Calls
import Terse.Proofs.Statistics
import Terse.Proofs.Radix
import Terse.Proofs.Factorial
import Terse.Proofs.Separators
import Terse.Proofs.Segments
