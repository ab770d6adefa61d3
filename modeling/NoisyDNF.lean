import NoisyDNF.Scalar
import NoisyDNF.Text.Blank
import NoisyDNF.Text.Problem
import NoisyDNF.Text.Pairs
import NoisyDNF.Decimal.Basic
import NoisyDNF.Decimal.Literal
import NoisyDNF.Decimal.Shortest
import NoisyDNF.Decimal.Layout
import NoisyDNF.Var
import NoisyDNF.VarMap
import NoisyDNF.Assignment
import NoisyDNF.Noise
import NoisyDNF.Formula.Basic
import NoisyDNF.Formula.Token
import NoisyDNF.Formula.Parser
import NoisyDNF.Formula.Printer
import NoisyDNF.Formula.Dnf
import NoisyDNF.Error
import NoisyDNF.Likelihood
import NoisyDNF.ZeroOne.Model
import NoisyDNF.ZeroOne.Printer
import NoisyDNF.ZeroOne.Solution
import NoisyDNF.ZeroOne.Enumeration
import NoisyDNF.ZeroOne.Node
import NoisyDNF.ZeroOne.Propagation
import NoisyDNF.ZeroOne.Bound
import NoisyDNF.ZeroOne.Marks
import NoisyDNF.ZeroOne.Search
import NoisyDNF.Scenario.Basic
import NoisyDNF.Scenario.Exhaustive
import NoisyDNF.Scenario.Encoding
import NoisyDNF.Scenario.Risk
import NoisyDNF.Scenario.RiskyVariables
import NoisyDNF.Proofs.Binary64.Arithmetic
import NoisyDNF.Proofs.Binary64.Grid
import NoisyDNF.Proofs.Binary64.Monotonicity
import NoisyDNF.Proofs.Binary64.Operations
import NoisyDNF.Proofs.Binary64.Order
import NoisyDNF.Proofs.Binary64.Packing
import NoisyDNF.Proofs.Binary64.Probability
import NoisyDNF.Proofs.Binary64.Rounding
import NoisyDNF.Proofs.ExactArithmetic
import NoisyDNF.Proofs.Formula.Evaluation
import NoisyDNF.Proofs.Formula.Grammar
import NoisyDNF.Proofs.Formula.Normal
import NoisyDNF.Proofs.Formula.RoundTrip
import NoisyDNF.Proofs.Formula.Tokens
import NoisyDNF.Proofs.MonotoneArithmetic
import NoisyDNF.Proofs.RealArithmetic
import NoisyDNF.Proofs.Scenario.Encoding
import NoisyDNF.Proofs.Scenario.Exhaustive
import NoisyDNF.Proofs.Scenario.Failures
import NoisyDNF.Proofs.Scenario.FalsifyingSide
import NoisyDNF.Proofs.Scenario.LeastTruth
import NoisyDNF.Proofs.Scenario.Likelihood
import NoisyDNF.Proofs.Scenario.LogLikelihood
import NoisyDNF.Proofs.Scenario.RiskyVariables
import NoisyDNF.Proofs.Scenario.SatisfyingSide
import NoisyDNF.Proofs.Scenario.ShortCircuit
import NoisyDNF.Proofs.Scenario.Silencing
import NoisyDNF.Proofs.Scenario.Validity
import NoisyDNF.Proofs.VarMap
import NoisyDNF.Proofs.ZeroOne.Activity
import NoisyDNF.Proofs.ZeroOne.Admissible
import NoisyDNF.Proofs.ZeroOne.Backtracking
import NoisyDNF.Proofs.ZeroOne.Consistency
import NoisyDNF.Proofs.ZeroOne.Construction
import NoisyDNF.Proofs.ZeroOne.Coverage
import NoisyDNF.Proofs.ZeroOne.DisjointTerms
import NoisyDNF.Proofs.ZeroOne.Enumeration
import NoisyDNF.Proofs.ZeroOne.ExactBound
import NoisyDNF.Proofs.ZeroOne.ExactSums
import NoisyDNF.Proofs.ZeroOne.Feasibility
import NoisyDNF.Proofs.ZeroOne.FirstBest
import NoisyDNF.Proofs.ZeroOne.FirstDive
import NoisyDNF.Proofs.ZeroOne.Incumbents
import NoisyDNF.Proofs.ZeroOne.Optimality
import NoisyDNF.Proofs.ZeroOne.RoundedOptimality
import NoisyDNF.Proofs.ZeroOne.Status
import NoisyDNF.Proofs.ZeroOne.Tracking
import NoisyDNF.Proofs.ZeroOne.WellFormed
import NoisyDNF.Proofs.Formula.Completion
import NoisyDNF.Proofs.Formula.Recognition
import NoisyDNF.Proofs.Scenario.Acceptance
import NoisyDNF.Proofs.SignedZero
import NoisyDNF.Proofs.Binary64.SignedZero
import NoisyDNF.Proofs.Scenario.Sweep
import NoisyDNF.Proofs.Scenario.Sensitivity
import NoisyDNF.Proofs.Scenario.RiskRange
import NoisyDNF.Proofs.Formula.ViablePrefix
import NoisyDNF.Proofs.ZeroOne.Marks
import NoisyDNF.Proofs.ZeroOne.BoundConsistency
import NoisyDNF.Proofs.NoiseModel
import NoisyDNF.Proofs.FirstFailure
import NoisyDNF.Proofs.Formula.Splitting
import NoisyDNF.Proofs.Text.Pieces
import NoisyDNF.Proofs.Text.Spelling
import NoisyDNF.Proofs.Text.Pairs
import NoisyDNF.Proofs.Text.Trimming
import NoisyDNF.Proofs.Text.RoundTrip
import NoisyDNF.Proofs.Formula.TermLists
import NoisyDNF.Proofs.Union
import NoisyDNF.Proofs.ZeroOne.LeastExtension
import NoisyDNF.Proofs.ZeroOne.CallTree
