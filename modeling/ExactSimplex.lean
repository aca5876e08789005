import ExactSimplex.Cutting.Report
import ExactSimplex.Number.Binary64
import ExactSimplex.Program.Meaning
import ExactSimplex.Program.Reader
import ExactSimplex.Proofs.Algebra.Cost
import ExactSimplex.Proofs.Algebra.LargeNumber
import ExactSimplex.Proofs.Algebra.Weigh
import ExactSimplex.Proofs.Algebra.Whole
import ExactSimplex.Proofs.Checked.Cutting
import ExactSimplex.Proofs.Checked.Pipeline
import ExactSimplex.Proofs.Checked.Simplex
import ExactSimplex.Proofs.Checked.Start
import ExactSimplex.Proofs.Cutting.Answer
import ExactSimplex.Proofs.Cutting.Completion
import ExactSimplex.Proofs.Cutting.CutRow
import ExactSimplex.Proofs.Cutting.DeadEnd
import ExactSimplex.Proofs.Cutting.DualFeasibility
import ExactSimplex.Proofs.Cutting.DualRatio
import ExactSimplex.Proofs.Cutting.IntegerOptimum
import ExactSimplex.Proofs.Cutting.Outcomes
import ExactSimplex.Proofs.Cutting.Record
import ExactSimplex.Proofs.Cutting.Relaxation
import ExactSimplex.Proofs.Cutting.Replay
import ExactSimplex.Proofs.Cutting.Runs
import ExactSimplex.Proofs.Cutting.Shown
import ExactSimplex.Proofs.Cutting.Totality
import ExactSimplex.Proofs.Cutting.Validity
import ExactSimplex.Proofs.Cutting.Verdicts
import ExactSimplex.Proofs.Lockstep
import ExactSimplex.Proofs.Optimum
import ExactSimplex.Proofs.Program.Columns
import ExactSimplex.Proofs.Program.Costs
import ExactSimplex.Proofs.Program.Homogeneous
import ExactSimplex.Proofs.Program.Integral
import ExactSimplex.Proofs.Program.Rewriting
import ExactSimplex.Proofs.Program.StandardForm
import ExactSimplex.Proofs.Program.Transformed
import ExactSimplex.Proofs.Program.UnitBasis
import ExactSimplex.Proofs.Reaches
import ExactSimplex.Proofs.Scaling.Costs
import ExactSimplex.Proofs.Scaling.Cutting
import ExactSimplex.Proofs.Scaling.Pipeline
import ExactSimplex.Proofs.Scaling.Simplex
import ExactSimplex.Proofs.Scaling.Tableaus
import ExactSimplex.Proofs.Simplex.Answer
import ExactSimplex.Proofs.Simplex.Certificate
import ExactSimplex.Proofs.Simplex.Equivalence
import ExactSimplex.Proofs.Simplex.Expulsion
import ExactSimplex.Proofs.Simplex.Finality
import ExactSimplex.Proofs.Simplex.Invariant
import ExactSimplex.Proofs.Simplex.LargeNumber
import ExactSimplex.Proofs.Simplex.Optimality
import ExactSimplex.Proofs.Simplex.PivotElement
import ExactSimplex.Proofs.Simplex.Pricing
import ExactSimplex.Proofs.Simplex.Progress
import ExactSimplex.Proofs.Simplex.Ratio
import ExactSimplex.Proofs.Simplex.Rays
import ExactSimplex.Proofs.Simplex.Record
import ExactSimplex.Proofs.Simplex.Removals
import ExactSimplex.Proofs.Simplex.Replay
import ExactSimplex.Proofs.Simplex.Result
import ExactSimplex.Proofs.Simplex.Runs
import ExactSimplex.Proofs.Simplex.Termination
import ExactSimplex.Proofs.Simplex.Totality
import ExactSimplex.Proofs.Simplex.Verdicts
import ExactSimplex.Proofs.Tableau.Directions
import ExactSimplex.Proofs.Tableau.Entries
import ExactSimplex.Proofs.Tableau.Equations
import ExactSimplex.Proofs.Tableau.Exchange
import ExactSimplex.Proofs.Tableau.NameScan
import ExactSimplex.Proofs.Tableau.Objective
import ExactSimplex.Proofs.Tableau.Operations
import ExactSimplex.Proofs.Tableau.Rank
import ExactSimplex.Proofs.Tableau.RowSpace
import ExactSimplex.Proofs.Tableau.Start
import ExactSimplex.Proofs.Tableau.WellFormed
import ExactSimplex.Simplex.Report
import ExactSimplex.Solution
import ExactSimplex.Tableau.Meaning
import ExactSimplex.Proofs.Number.Grammar
import ExactSimplex.Proofs.Number.RoundTrip
import ExactSimplex.Proofs.Simplex.StartingBasis
import ExactSimplex.Proofs.Simplex.Canonical
import ExactSimplex.Proofs.Algebra.Order
import ExactSimplex.Proofs.Simplex.Selection
import ExactSimplex.Proofs.Number.WrittenCost
import ExactSimplex.Proofs.Tableau.Minors
import ExactSimplex.Proofs.Program.Fallback
import ExactSimplex.Proofs.Program.BasisChoice
import ExactSimplex.Proofs.Simplex.FallbackBasis
import ExactSimplex.Proofs.Tableau.Stored
import ExactSimplex.Proofs.Tableau.StoredOperations
