import LazyExpr.Arena
import LazyExpr.Inspect
import LazyExpr.Reading
import LazyExpr.Session
import LazyExpr.Proofs.Likeness
import LazyExpr.Proofs.Judgement
import LazyExpr.Proofs.Lockstep
import LazyExpr.Proofs.Simulation
import LazyExpr.Proofs.Agreement
import LazyExpr.Proofs.Diagonal
import LazyExpr.Proofs.Invariant
import LazyExpr.Proofs.Immutability
import LazyExpr.Proofs.Locality
import LazyExpr.Proofs.History
import LazyExpr.Proofs.Conformity
import LazyExpr.Proofs.Layout
import LazyExpr.Proofs.Validity
import LazyExpr.Proofs.Termination
import LazyExpr.Proofs.Supervision
import LazyExpr.Proofs.Strictness
import LazyExpr.Proofs.Nesting
import LazyExpr.Proofs.CallLimit
import LazyExpr.Proofs.Growth
import LazyExpr.Proofs.Splitting
import LazyExpr.Proofs.Reading
import LazyExpr.Proofs.RoundTrip
import LazyExpr.Proofs.Building
import LazyExpr.Proofs.Renaming
import LazyExpr.Proofs.Host
import LazyExpr.Proofs.Interning
import LazyExpr.Proofs.Numbering
import LazyExpr.Proofs.Decimal.Value
import LazyExpr.Proofs.Decimal.Notation
import LazyExpr.Proofs.Decimal.Rounding
import LazyExpr.Proofs.Decimal.Power
import LazyExpr.Proofs.Decimal.Series
import LazyExpr.Proofs.Place
import LazyExpr.Proofs.Integrity
import LazyExpr.Proofs.Allocation
import LazyExpr.Proofs.Separation
import LazyExpr.Proofs.Decimal.Trigonometry
import LazyExpr.Proofs.Decimal.Logarithm
import LazyExpr.Proofs.Decimal.FractionalPower
import LazyExpr.Proofs.Decimal.Monotonicity
import LazyExpr.Proofs.Decimal.Tangent
import LazyExpr.Proofs.Decimal.Parity
import LazyExpr.Proofs.Decimal.PowerOfOne
import LazyExpr.Proofs.Decimal.Remainder
import LazyExpr.Proofs.IndexAssignment
import LazyExpr.Proofs.Escape
import LazyExpr.Proofs.Ledger
import LazyExpr.Proofs.Tree
import LazyExpr.Proofs.Construction
import LazyExpr.Proofs.Declaration
import LazyExpr.Proofs.Printing
import LazyExpr.Proofs.Repetition
import LazyExpr.Proofs.Range
import LazyExpr.Proofs.Location
import LazyExpr.Proofs.Payload
import LazyExpr.Proofs.Decimal.Halting
import LazyExpr.Proofs.Conversion
import LazyExpr.Proofs.Character
