import ExactSimplex.Cutting.Cut
import ExactSimplex.Cutting.Source
import ExactSimplex.Simplex.Move

/-!
# The moves of the cutting plane method

The method keeps a record of everything it does to its tableau. Read back, the record is a list of cuts,
each with the steps that were taken to apply it: for every pivot the tableau before it and the one after.
-/

namespace ExactSimplex.Cutting

/-- What the method did, with the tableau before and after it. -/
inductive Move
  /-- A cut was derived and its row appended. -/
  | cut (source : Source) (cut : Cut) (before after : Tableau)
  /-- A negative right-hand side was pivoted away. The tableau before holds the ratios. -/
  | restore (pivot : Pivot) (before after : Tableau)
  /-- The method found that it cannot go on. -/
  | stuck (tableau : Tableau)
  deriving DecidableEq

/-- A cut, where it came from, and the steps taken to apply it. -/
structure Application where
  source : Source
  cut : Cut
  steps : List Step
  deriving DecidableEq

/-- The tableau that the last step left, if there was a step. -/
def Application.last? (a : Application) : Option Tableau := a.steps.getLast?.map (·.tableau)

/-- The steps in front of the first cut, and the cuts with the steps that follow each of them. -/
def grouped : List Move → List Step × List Application
  | [] => ([], [])
  | move :: moves =>
    let rest := grouped moves
    match move with
    | .cut source cut _ _ => ([], ⟨source, cut, rest.1⟩ :: rest.2)
    | .restore pivot before after => (⟨some pivot, before⟩ :: ⟨none, after⟩ :: rest.1, rest.2)
    | .stuck tableau => (⟨none, tableau⟩ :: rest.1, rest.2)

/-- The cuts of a record, in order. -/
def applications (moves : List Move) : List Application := (grouped moves).2

end ExactSimplex.Cutting
