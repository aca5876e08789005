import ExactSimplex.Cutting.Move
import ExactSimplex.Simplex.Ratio
import ExactSimplex.Tableau.Resize

/-!
# The dual ratio test

After a cut some right-hand sides are negative. The row with the most negative one is pivoted on a
negative entry, in the column where the reduced cost is smallest in proportion to the entry; that keeps
the tableau optimal. Ratios are compared as plain numbers, so the reduced costs in question must not
contain the large constant.
-/

namespace ExactSimplex.Cutting

/-- The row with the smallest right-hand side, of several the first, if that is negative. -/
def leavingRow? (t : Tableau) : Option (Nat × Row) :=
  match leastRatio (t.rows.map fun r => some r.bound) with
  | none => none
  | some i =>
    match t.rows[i]? with
    | none => none
    | some r => if r.bound < 0 then some (i, r) else none

/-- The ratio of column `j` for a leaving row, if the column may enter in it. -/
def dualRatio (t : Tableau) (r : Row) (j : Nat) : Except Fault (Option Rat) :=
  if 0 < j ∧ r.entry j < 0 then
    if (t.reducedCost j).IsFinite then .ok (some ((t.reducedCost j).finite / r.entry j).abs)
    else .error .penaltyLeft
  else .ok none

/-- The ratios of all columns for a leaving row. -/
def dualRatios (t : Tableau) (r : Row) : Except Fault (List (Option Rat)) :=
  (List.range t.columns.length).mapM (dualRatio t r)

/-- What restoring a row leads to: the next tableau, or no column may enter. -/
inductive Restoration
  | pivoted (pivot : Pivot) (before after : Tableau)
  | blocked (tableau : Tableau)

/-- Records the ratios for row `i`, and exchanges its variable for that of the column with the least. -/
def restore (t : Tableau) (i : Nat) (r : Row) : Except Fault Restoration := do
  let ratios ← dualRatios t r
  let before ← t.record (.dual ratios)
  match leastRatio ratios with
  | none => return .blocked before
  | some j => return .pivoted ⟨i, j⟩ before (← before.pivot i j)

end ExactSimplex.Cutting
