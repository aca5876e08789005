import ExactSimplex.Proofs.Simplex.Certificate

/-!
# The certificate of optimality

Once no artificial variable is basic, the reduced costs of all other variables are finite. In an optimal
tableau they certify that no feasible assignment has a better objective than the basic solution.
-/

namespace ExactSimplex.Simplex

open Finset

variable {q p : Program} {t : Tableau} {j : Nat} {x : Assignment}

namespace Represents

variable (h : Represents q t)

include h

/-- The finite part of the costs is the objective of the program. -/
theorem finite_costAt : (t.costAt x).finite = q.objectiveAt x := by
  have hlength : q.objective.length < t.columns.length := by
    rw [h.length_columns, Program.variableCount, Program.decisions]
    omega
  apply Tableau.finite_costAt_eq_weigh hlength
  intro j hpos hlt
  by_cases hdecision : j ≤ q.decisions
  · rw [Tableau.price_decision h.columns hpos hdecision, Cost.finite_ofRat]
  · have hnone : q.objective[j - 1]? = none := by
      unfold Program.decisions at hdecision
      exact List.getElem?_eq_none (by omega)
    rw [hnone, Option.getD_none]
    by_cases hslack : j ≤ q.decisions + q.slacks
    · rw [Tableau.price_slack h.priced h.columns (by omega) hslack, Cost.finite_zero]
    · rw [Tableau.price_artificial h.priced h.columns (by omega) hlt, Sense.finite_artificialCost]

variable (hfinite : ∀ r ∈ t.rows, ¬ r.IsArtificial)

include hfinite

/-- Where no artificial variable is basic, the reduced costs of all other variables are finite. -/
theorem penalty_reducedCost_eq_zero (hj : j ≤ q.decisions + q.slacks) : (t.reducedCost j).penalty = 0 := by
  have hlt : j < t.columns.length := by
    rw [h.length_columns, Program.variableCount]
    omega
  refine Tableau.penalty_reducedCost_eq_zero (fun i hi => ?_) ?_
  · have hrow := List.getElem?_eq_getElem hi
    rw [Tableau.basicCost_of_getElem? hrow]
    exact not_not.mp (hfinite _ (List.getElem_mem hi))
  · rw [h.penalty_price hlt, if_neg (by omega)]

/-- Where no artificial variable is basic, the objective value is finite. -/
theorem isFinite_objectiveValue : t.objectiveValue.IsFinite :=
  h.penalty_reducedCost_eq_zero hfinite (Nat.zero_le _)

/-- In an optimal tableau without artificial variables no nonnegative solution of the equations has a better
objective than the basic one. -/
theorem objectiveAt_le (hopt : t.IsOptimal) (hx : ∀ j, 0 < j → 0 ≤ x j) (hzero : ZeroArtificials q x)
    (htight : q.Tight x) : q.sense.sign * q.objectiveAt x ≤ q.sense.sign * t.objectiveValue.finite := by
  have hholds := (h.holds_iff x hzero).mpr htight
  rw [← h.finite_costAt]
  apply h.wellFormed.finite_costAt_le hholds
  intro j hpos hlt
  by_cases hartificial : q.decisions + q.slacks < j
  · exact .inl (hzero j hartificial)
  · right
    have hpenalty := h.penalty_reducedCost_eq_zero hfinite (not_lt.mp hartificial)
    have hreduced := (Tableau.isOptimal_iff t).mp hopt j hpos hlt
    rw [h.sense] at hreduced
    exact ⟨hx j hpos, Sense.finite_nonneg_of_not_improving hreduced hpenalty⟩

end Represents

/-! What this means for the program itself. -/

section Accepted

variable (hp : p.Accepted) (h : Represents p.augmented t)

include h

/-- The objective value is that of the basic solution. -/
theorem objectiveAt_variableValue : p.objectiveAt t.variableValue = t.objectiveValue.finite := by
  rw [← h.wellFormed.costAt_variableValue, h.finite_costAt]
  rfl

include hp

/-- In an optimal tableau without artificial variables no feasible assignment has a better objective than the
basic solution. -/
theorem not_better_of_feasible (hfinite : ∀ r ∈ t.rows, ¬ r.IsArtificial) (hopt : t.IsOptimal)
    (hx : p.Feasible x) : ¬ p.sense.Better (p.objectiveAt x) t.objectiveValue.finite := by
  obtain ⟨z, hnonneg, hzero, htight, hvalue⟩ := hp.exists_tight_augmented hx
  have hle : p.sense.sign * p.objectiveAt z ≤ p.sense.sign * t.objectiveValue.finite :=
    h.objectiveAt_le hfinite hopt hnonneg hzero htight
  rw [hvalue] at hle
  rw [Sense.better_iff]
  exact not_lt.mpr hle

end Accepted

end ExactSimplex.Simplex
