/-!
# Ways in which solving ends

The Simplex method and the cutting plane method end with a tableau that solves their problem, or fail
with a reason. That an operation on the way found its precondition broken is an end of its own.
-/

namespace ExactSimplex

/-- Why a method stopped without a solution. -/
inductive Failure
  /-- No assignment satisfies all constraints. -/
  | infeasible
  /-- The variable of a column improves the objective and nothing limits it. -/
  | unbounded (column : Nat)
  /-- A row has no variable that could be basic in it from the start. -/
  | noInitialBasis (row : Nat)
  /-- The row a cut is to be derived from has whole coefficients only. -/
  | noFractionalCoefficient (row : Nat)
  /-- A row with a negative right-hand side has no negative coefficient. -/
  | noPivotColumn (row : Nat)
  /-- No cut was needed. -/
  | alreadyInteger
  deriving DecidableEq, Repr

/-- The message states the reason. -/
def Failure.message : Failure → String
  | .infeasible => "the problem is infeasible"
  | .unbounded column =>
    "the problem is unbounded along the variable of column " ++ toString column
  | .noInitialBasis row => "no initial basic variable for row " ++ toString row
  | .noFractionalCoefficient row =>
    "row " ++ toString row ++ " has no fractional coefficient to derive a cut from, no integer solution"
  | .noPivotColumn row =>
    "row " ++ toString row ++ " has no negative entry to pivot on, no integer solution"
  | .alreadyInteger => "the solution is already integer"

end ExactSimplex
