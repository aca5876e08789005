import ExactSimplex.Choice
import ExactSimplex.Number.Rounding
import ExactSimplex.Tableau.Basic

/-!
# The source of a cut

A cut is derived from the row of a decision variable whose value is not whole: the one with the largest
fractional part, of several the first. A variable that is not basic is zero and needs no cut.
-/

namespace ExactSimplex.Cutting

/-- A basic variable with its row and its value. -/
structure Source where
  /-- The column of the variable. -/
  column : Nat
  row : Nat
  value : Rat
  deriving DecidableEq, Repr

/-- How far the value lies above the whole number below it. -/
def Source.fraction (s : Source) : Rat := s.value - truncate s.value

/-- The decision variable of column `j`, if it is basic with a positive fractional part. -/
def candidate? (t : Tableau) (j : Nat) : Option Source :=
  match t.rowOf? (variableName j) with
  | none => none
  | some i =>
    let source : Source := ⟨j, i, t.entry i 0⟩
    if 0 < source.fraction then some source else none

/-- The first of the first `decisions` variables with the largest fractional part. -/
def source? (t : Tableau) (decisions : Nat) : Option Source :=
  (firstBest (fun a b => decide (b.fraction < a.fraction))
    ((List.range' 1 decisions).map (candidate? t))).map (·.2)

end ExactSimplex.Cutting
