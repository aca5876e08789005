import ExactSimplex.Choice
import ExactSimplex.Simplex.Move
import ExactSimplex.Tableau.Resize

/-!
# The ratio test

An entering variable grows until the first basic variable reaches zero. The rows with a positive entry in
its column limit it, each to the ratio of right-hand side and entry; the first row with the smallest ratio
is left. Without such a row nothing limits the variable.
-/

namespace ExactSimplex

/-- How far each row lets the variable of column `j` grow. -/
def Tableau.limits (t : Tableau) (j : Nat) : List (Option Rat) :=
  t.rows.map fun r => if 0 < r.entry j then some (r.bound / r.entry j) else none

/-- The position of the first smallest ratio. -/
def leastRatio (ratios : List (Option Rat)) : Option Nat :=
  (firstBest (fun a b => decide (a < b)) ratios).map (·.1)

namespace Simplex

/-- What entering the variable of column `j` leads to: the next tableau, or no row limits it. -/
inductive Entry
  | pivoted (pivot : Pivot) (before after : Tableau)
  | unlimited (tableau : Tableau)

/-- Records the ratios of column `j`, and exchanges its variable for that of the row with the least. -/
def enter (t : Tableau) (j : Nat) : Except Fault Entry := do
  let limits := t.limits j
  let before ← t.record (.primal limits)
  match leastRatio limits with
  | none => return .unlimited before
  | some i => return .pivoted ⟨i, j⟩ before (← before.pivot i j)

end Simplex

end ExactSimplex
