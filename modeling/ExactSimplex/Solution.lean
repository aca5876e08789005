import ExactSimplex.Number.Numeral
import ExactSimplex.Number.Rounding
import ExactSimplex.Tableau.Basic

/-!
# Solutions

A solution gives the objective value and the value of every decision variable. Variables that were
appended while solving are not part of it.
-/

namespace ExactSimplex

/-- An objective value with the values of the decision variables, by name. -/
structure Solution where
  objectiveValue : Rat
  values : List (String × Rat)
  deriving DecidableEq, Repr

namespace Solution

/-- The basic solution of a tableau, restricted to the first `decisions` variables. Its objective value
must not contain the large constant. -/
def ofTableau (t : Tableau) (decisions : Nat) : Except Fault Solution :=
  if t.objectiveValue.IsFinite then
    .ok {
      objectiveValue := t.objectiveValue.finite
      values := (List.range' 1 decisions).map fun j => (variableName j, t.variableValue j) }
  else .error .penaltyLeft

/-- Every decision variable has a whole value. -/
def IsIntegral (s : Solution) : Prop := ∀ v ∈ s.values, IsWhole v.2

instance (s : Solution) : Decidable s.IsIntegral :=
  inferInstanceAs (Decidable (∀ v ∈ s.values, IsWhole v.2))

/-- Writes the values, then the objective value, as in `x1 = 2, x2 = 6, F = 36`. -/
def text (s : Solution) : String :=
  ", ".intercalate
    (s.values.map (fun v => v.1 ++ " = " ++ Numeral.write v.2) ++ ["F = " ++ Numeral.write s.objectiveValue])

example : text ⟨3 / 2, [("x1", 1), ("x2", 0)]⟩ = "x1 = 1, x2 = 0, F = 3/2" := by cbv

end Solution

end ExactSimplex
