import ExactSimplex.Proofs.Algebra.Cost
import ExactSimplex.Proofs.Algebra.Weigh
import Mathlib.Algebra.Module.BigOperators

/-!
# The costs of the variables

A decision variable has its coefficient in the objective as cost. Where a slack variable costs nothing, and an
artificial variable the large constant, against the direction of optimization, the artificial variables are those whose
cost contains the large constant, and an assignment costs its objective value and their sum times that constant.
-/

namespace ExactSimplex.Program

variable {p : Program} {j : Nat}

/-- The variables that were appended have the costs that belong to them: slack variables none, artificial variables the
penalty for the direction of optimization. -/
structure Priced (p : Program) : Prop where
  slack : ∀ c ∈ p.slackCosts, c = 0
  artificial : ∀ c ∈ p.artificialCosts, c = p.sense.artificialCost

theorem Priced.slackCosts_eq (h : p.Priced) : p.slackCosts = List.replicate p.slacks 0 :=
  List.eq_replicate_iff.mpr ⟨rfl, h.slack⟩

theorem Priced.artificialCosts_eq (h : p.Priced) :
    p.artificialCosts = List.replicate p.artificials p.sense.artificialCost :=
  List.eq_replicate_iff.mpr ⟨rfl, h.artificial⟩

/-! What the transformations keep. -/

/-- An accepted program has no variables but its decision variables. -/
theorem Accepted.priced (hp : p.Accepted) : p.Priced := by
  obtain ⟨-, -, -, hslacks, hartificials⟩ := (accepted_iff p).mp hp
  refine ⟨fun c hc => ?_, fun c hc => ?_⟩
  · rw [List.eq_nil_of_length_eq_zero hslacks] at hc
    cases hc
  · rw [List.eq_nil_of_length_eq_zero hartificials] at hc
    cases hc

theorem Priced.canonicalize (h : p.Priced) : p.canonicalize.Priced := ⟨h.slack, h.artificial⟩

theorem Priced.addSlacks {result : Program × Nat} (h : p.Priced) (hresult : p.addSlacks = .ok result) :
    result.1.Priced := by
  obtain ⟨-, rfl⟩ := addSlacks_eq_ok_iff.mp hresult
  exact ⟨List.forall_mem_append.mpr ⟨h.slack, fun _ hc => List.eq_of_mem_replicate hc⟩, h.artificial⟩

theorem Priced.addArtificials (h : p.Priced) : p.addArtificials.1.Priced :=
  ⟨h.slack, List.forall_mem_append.mpr ⟨h.artificial, fun _ hc => List.eq_of_mem_replicate hc⟩⟩

/-! One variable. -/

theorem getElem?_costs_decision (hj : j < p.decisions) :
    p.costs[j]? = some (Cost.ofRat (p.objective[j]?.getD 0)) := by
  rw [costs, List.append_assoc, List.getElem?_append_left (by rwa [List.length_map]), List.getElem?_map,
    List.getElem?_eq_getElem hj]
  rfl

/-- The cost of a slack variable is kept behind those of the decision variables. -/
theorem getElem?_costs_add_decisions (hj : j < p.slacks) :
    p.costs[p.decisions + j]? = p.slackCosts[j]?.map Cost.ofRat := by
  have hfront : (p.objective.map Cost.ofRat).length = p.decisions := List.length_map ..
  have hboth : p.decisions + j < (p.objective.map Cost.ofRat ++ p.slackCosts.map Cost.ofRat).length := by
    rw [List.length_append, hfront, List.length_map]
    exact Nat.add_lt_add_left hj _
  rw [costs, List.getElem?_append_left hboth, List.getElem?_append_right (hfront.trans_le (Nat.le_add_right _ _)),
    hfront, Nat.add_sub_cancel_left, List.getElem?_map]

/-- Behind those the costs of the artificial variables are kept. -/
theorem getElem?_costs_add_slacks (p : Program) (j : Nat) :
    p.costs[p.decisions + p.slacks + j]? = p.artificialCosts[j]? := by
  have hfront : (p.objective.map Cost.ofRat ++ p.slackCosts.map Cost.ofRat).length = p.decisions + p.slacks := by
    rw [List.length_append, List.length_map, List.length_map, decisions, slacks]
  rw [costs, List.getElem?_append_right (hfront.trans_le (Nat.le_add_right _ _)), hfront, Nat.add_sub_cancel_left]

theorem Priced.getElem?_costs_slack (h : p.Priced) (hj : p.decisions ≤ j) (hlt : j < p.decisions + p.slacks) :
    p.costs[j]? = some 0 := by
  obtain ⟨k, rfl⟩ := Nat.exists_eq_add_of_le hj
  have hk : k < p.slackCosts.length := Nat.lt_of_add_lt_add_left hlt
  rw [getElem?_costs_add_decisions hk, List.getElem?_eq_getElem hk, Option.map_some,
    h.slack _ (List.getElem_mem hk)]
  rfl

theorem Priced.getElem?_costs_artificial (h : p.Priced) (hj : p.decisions + p.slacks ≤ j)
    (hlt : j < p.variableCount) : p.costs[j]? = some p.sense.artificialCost := by
  obtain ⟨k, rfl⟩ := Nat.exists_eq_add_of_le hj
  have hk : k < p.artificialCosts.length := Nat.lt_of_add_lt_add_left hlt
  rw [getElem?_costs_add_slacks, List.getElem?_eq_getElem hk, h.artificial _ (List.getElem_mem hk)]

/-- The artificial variables are those whose cost contains the large constant. -/
theorem Priced.isArtificial_iff {c : Cost} (h : p.Priced) (hc : p.costs[j]? = some c) :
    p.IsArtificial j ↔ ¬ c.IsFinite := by
  have hlt : j < p.variableCount := by
    rw [← length_costs]
    exact (List.getElem?_eq_some_iff.mp hc).1
  by_cases hartificial : p.decisions + p.slacks ≤ j
  · rw [h.getElem?_costs_artificial hartificial hlt] at hc
    cases hc
    refine iff_of_true hartificial ?_
    rw [Cost.IsFinite, Sense.penalty_artificialCost]
    cases p.sense <;> norm_num [Sense.sign]
  · refine iff_of_false hartificial (not_not.mpr ?_)
    by_cases hdecision : j < p.decisions
    · rw [getElem?_costs_decision hdecision] at hc
      cases hc
      rfl
    · rw [h.getElem?_costs_slack (not_lt.mp hdecision) (not_le.mp hartificial)] at hc
      cases hc
      rfl

/-! All variables. -/

/-- What the values of the variables cost together. -/
def costAt (p : Program) (x : Assignment) : Cost :=
  ∑ j ∈ Finset.range p.variableCount, x (j + 1) • p.costs[j]?.getD 0

/-- The decision variables cost the objective value. -/
theorem sum_decision_costs (p : Program) (x : Assignment) :
    ∑ j ∈ Finset.range p.decisions, x (j + 1) • p.costs[j]?.getD 0 = Cost.ofRat (p.objectiveAt x) := by
  have hcost : ∀ j ∈ Finset.range p.decisions,
      x (j + 1) • p.costs[j]?.getD 0 = Cost.ofRat (x (j + 1) * p.objective[j]?.getD 0) := by
    intro j hj
    rw [getElem?_costs_decision (Finset.mem_range.mp hj), Option.getD_some]
    exact Cost.ext (mul_zero _) rfl
  rw [Finset.sum_congr rfl hcost, objectiveAt, weigh_eq_sum, Finset.sum_Ico_eq_sum_range, Nat.add_sub_cancel_left]
  apply Cost.ext
  · rw [Cost.penalty_sum]
    exact Finset.sum_eq_zero fun _ _ => rfl
  · rw [Cost.finite_sum]
    apply Finset.sum_congr rfl
    intro j _
    rw [Cost.finite_ofRat, Nat.add_sub_cancel_left, Nat.add_comm 1 j, mul_comm]

/-- An assignment costs its objective value and, for each artificial variable, the value times the large constant,
against the direction of optimization. -/
theorem Priced.costAt_eq (h : p.Priced) (x : Assignment) :
    p.costAt x = Cost.ofRat (p.objectiveAt x) +
      (∑ j ∈ Finset.range p.artificials, x (p.decisions + p.slacks + j + 1)) • p.sense.artificialCost := by
  have hslacks : ∑ j ∈ Finset.range p.slacks, x (p.decisions + j + 1) • p.costs[p.decisions + j]?.getD 0 = 0 := by
    apply Finset.sum_eq_zero
    intro j hj
    rw [h.getElem?_costs_slack (Nat.le_add_right _ _) (Nat.add_lt_add_left (Finset.mem_range.mp hj) _)]
    exact smul_zero _
  rw [costAt, variableCount, Finset.sum_range_add, Finset.sum_range_add, sum_decision_costs, hslacks, add_zero,
    Finset.sum_smul]
  congr 1
  apply Finset.sum_congr rfl
  intro j hj
  rw [h.getElem?_costs_artificial (Nat.le_add_right _ _) (Nat.add_lt_add_left (Finset.mem_range.mp hj) _)]
  rfl

end ExactSimplex.Program
