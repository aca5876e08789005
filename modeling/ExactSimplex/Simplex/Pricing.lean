import ExactSimplex.Choice
import ExactSimplex.Tableau.Basic

/-!
# Pricing

The variable that enters the basis must promise a better objective. Among those that do, a pricing rule
takes the one with the best reduced cost, or simply the first. The column of right-hand sides never
enters.
-/

namespace ExactSimplex

/-- How the entering variable is chosen. -/
inductive Pricing
  /-- The most improving reduced cost, the leftmost on a tie. -/
  | steepest
  /-- The leftmost improving reduced cost. -/
  | first
  deriving DecidableEq, Repr

/-- Where no rule is named, the steepest column enters. -/
instance : Inhabited Pricing := ⟨.steepest⟩

/-- The reduced costs that promise a better objective, by column. -/
def Tableau.improvements (t : Tableau) : List (Option Cost) :=
  none :: t.reducedCosts.tail.map fun c => if t.sense.Improving c then some c else none

namespace Pricing

/-- A reduced cost is preferred to another that it improves on. -/
def prefers (rule : Pricing) (sense : Sense) (a b : Cost) : Bool :=
  match rule with
  | .steepest => decide (sense.Improving (a - b))
  | .first => false

/-- The column of the entering variable with its reduced cost. -/
def select (rule : Pricing) (t : Tableau) : Option (Nat × Cost) :=
  firstBest (rule.prefers t.sense) t.improvements

/-- No variable is selected exactly when none promises a better objective. -/
theorem select_eq_none_iff (rule : Pricing) (t : Tableau) : rule.select t = none ↔ t.IsOptimal := by
  rw [select, firstBest_eq_none_iff, Tableau.improvements, Tableau.IsOptimal]
  constructor
  · intro h c hc himproving
    have hnone := h (some c) (List.mem_cons_of_mem _ (List.mem_map.mpr ⟨c, hc, if_pos himproving⟩))
    cases hnone
  · intro h o ho
    rcases List.mem_cons.mp ho with rfl | ho
    · rfl
    · obtain ⟨c, hc, rfl⟩ := List.mem_map.mp ho
      exact if_neg (h c hc)

end Pricing

end ExactSimplex
