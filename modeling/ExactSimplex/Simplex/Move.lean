import ExactSimplex.Tableau.Pivot

/-!
# The moves of the Simplex method

The method keeps a record of everything it does to its tableau. A step of the record is a tableau with the
pivot that was made on it; the removal of a redundant row is no step.
-/

namespace ExactSimplex

/-- A tableau at one moment and the pivot made on it, if one was made. -/
structure Step where
  pivot : Option Pivot
  tableau : Tableau
  deriving DecidableEq

namespace Simplex

/-- What the method did, with the tableau before and after it. -/
inductive Move
  /-- A variable that improves the objective entered. The tableau before holds the ratios. -/
  | enter (pivot : Pivot) (before after : Tableau)
  /-- An artificial variable that was basic at zero was exchanged for one that is not artificial. -/
  | expel (pivot : Pivot) (before after : Tableau)
  /-- A row that no longer contains a variable that is not artificial was removed. -/
  | drop (row : Nat) (before after : Tableau)
  /-- The method found that it cannot go on. -/
  | stuck (tableau : Tableau)
  deriving DecidableEq

/-- The step that is recorded for a move. -/
def Move.step? : Move → Option Step
  | .enter pivot before _ => some ⟨some pivot, before⟩
  | .expel pivot before _ => some ⟨some pivot, before⟩
  | .drop _ _ _ => none
  | .stuck tableau => some ⟨none, tableau⟩

end Simplex

end ExactSimplex
