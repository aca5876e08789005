import ExactSimplex.Proofs.Simplex.Pricing
import ExactSimplex.Proofs.Simplex.Runs
import ExactSimplex.Proofs.Tableau.Objective

/-!
# The certificate of infeasibility

Only artificial variables contain `M` in their costs. When no reduced cost improves by its multiple of `M`,
the multiples of `M` in the row of reduced costs certify that no solution has smaller artificial variables
than the basic one. Then an artificial variable that is not zero excludes a feasible assignment, and
otherwise the basic solution is one.
-/

namespace ExactSimplex

open Finset

namespace Tableau

variable {t : Tableau} {j : Nat}

/-- No reduced cost promises a better objective by its multiple of `M`. -/
def IsPenaltyOptimal (t : Tableau) : Prop :=
  ∀ j, 0 < j → j < t.columns.length → 0 ≤ t.sense.sign * (t.reducedCost j).penalty

/-- In an optimal tableau no multiple of `M` promises a better objective. -/
theorem IsOptimal.isPenaltyOptimal (h : t.IsOptimal) : t.IsPenaltyOptimal := fun j hpos hlt =>
  Sense.penalty_nonneg_of_not_improving ((isOptimal_iff t).mp h j hpos hlt)

end Tableau

namespace Simplex

variable {q p : Program} {t : Tableau} {i j : Nat} {r : Row} {x : Assignment} {c : Cost}

namespace Represents

section

variable (h : Represents q t)

include h

/-- There is one column for each variable, behind that of the right-hand sides. -/
theorem length_columns : t.columns.length = q.variableCount + 1 := by
  rw [h.columns, Tableau.length_columnsOf]

/-- Only artificial variables contain `M` in their costs. -/
theorem penalty_price (hlt : j < t.columns.length) :
    (t.price j).penalty = if q.decisions + q.slacks < j then -q.sense.sign else 0 := by
  rcases Nat.eq_zero_or_pos j with rfl | hpos
  · rw [h.wellFormed.price_zero, if_neg (Nat.not_lt_zero _)]
    rfl
  · split
    · rename_i hj
      rw [Tableau.price_artificial h.priced h.columns hj hlt, Sense.penalty_artificialCost]
    · by_cases hdecision : j ≤ q.decisions
      · rw [Tableau.price_decision h.columns hpos hdecision, Cost.penalty_ofRat]
      · rw [Tableau.price_slack h.priced h.columns (by omega) (by omega), Cost.penalty_zero]

/-- The multiples of `M` count against the direction of optimization. -/
theorem penalty_price_nonpos (hlt : j < t.columns.length) :
    q.sense.sign * (t.price j).penalty ≤ 0 := by
  rw [h.penalty_price hlt]
  split
  · rw [mul_neg, Sense.sign_mul_sign]
    norm_num
  · rw [mul_zero]

/-- The multiples of `M` in the costs of basic variables count against the direction of optimization. -/
theorem penalty_basicCost_nonpos (hi : i < t.rows.length) :
    q.sense.sign * (t.basicCost i).penalty ≤ 0 := by
  obtain ⟨j, hj⟩ := h.wellFormed.basic i hi
  rw [hj.basicCost_eq]
  exact h.penalty_price_nonpos hj.lt

/-- A row is artificial when the variable that is basic in it is. -/
theorem isArtificial_iff (hb : t.BasicIn i j) (hr : t.rows[i]? = some r) :
    r.IsArtificial ↔ q.decisions + q.slacks < j := by
  have hsign : q.sense.sign ≠ 0 := by
    intro hzero
    have hsquare := q.sense.sign_mul_sign
    rw [hzero, mul_zero] at hsquare
    exact zero_ne_one hsquare
  rw [Row.IsArtificial, Cost.IsFinite, ← Tableau.basicCost_of_getElem? hr, hb.basicCost_eq,
    h.penalty_price hb.lt]
  split
  · rename_i hj
    simp only [neg_eq_zero, hsign, not_false_eq_true, hj]
  · rename_i hj
    simp only [not_true_eq_false, hj]

/-- Without artificial variables the costs do not contain `M`. -/
theorem penalty_costAt (hx : ZeroArtificials q x) : (t.costAt x).penalty = 0 := by
  rw [Tableau.costAt, Cost.penalty_sum]
  apply Finset.sum_eq_zero
  intro j hj
  rw [Cost.penalty_smul, h.penalty_price (mem_Ico.mp hj).2]
  split
  · rename_i hartificial
    rw [hx j hartificial, zero_mul]
  · rw [mul_zero]

/-- The multiples of `M` in the objective add up over the basic variables. -/
theorem penalty_objectiveValue :
    t.objectiveValue.penalty = ∑ i ∈ range t.rows.length, t.entry i 0 * (t.basicCost i).penalty := by
  rw [Tableau.objectiveValue, Tableau.reducedCost_eq_sum, h.wellFormed.price_zero, sub_zero,
    Cost.penalty_sum]
  rfl

/-- Where no reduced cost improves by its multiple of `M`, neither does the objective of a nonnegative
solution without artificial variables. -/
theorem penalty_objectiveValue_nonneg (hopt : t.IsPenaltyOptimal) (hx : ∀ j, 0 < j → 0 ≤ x j)
    (hzero : ZeroArtificials q x) (htight : q.Tight x) : 0 ≤ q.sense.sign * t.objectiveValue.penalty := by
  have hholds := (h.holds_iff x hzero).mpr htight
  have hcost : (t.costAt x).penalty = t.objectiveValue.penalty -
      ∑ j ∈ Ico 1 t.columns.length, x j * (t.reducedCost j).penalty := by
    rw [h.wellFormed.costAt_eq hholds, Cost.penalty_sub, Cost.penalty_sum]
    rfl
  rw [h.penalty_costAt hzero] at hcost
  have hsum : 0 ≤ ∑ j ∈ Ico 1 t.columns.length, x j * (q.sense.sign * (t.reducedCost j).penalty) := by
    apply Finset.sum_nonneg
    intro j hj
    obtain ⟨hpos, hlt⟩ := mem_Ico.mp hj
    have hpenalty := hopt j hpos hlt
    rw [h.sense] at hpenalty
    exact mul_nonneg (hx j hpos) hpenalty
  have hfactor : ∑ j ∈ Ico 1 t.columns.length, x j * (q.sense.sign * (t.reducedCost j).penalty) =
      q.sense.sign * ∑ j ∈ Ico 1 t.columns.length, x j * (t.reducedCost j).penalty := by
    rw [Finset.mul_sum]
    exact Finset.sum_congr rfl fun j _ => by ring
  rw [sub_eq_zero.mp hcost.symm, ← hfactor]
  exact hsum

/-- Where no reduced cost improves by its multiple of `M`, an artificial variable that is not zero excludes
every nonnegative solution without artificial variables. -/
theorem not_stillArtificial_of_tight (hopt : t.IsPenaltyOptimal) (hx : ∀ j, 0 < j → 0 ≤ x j)
    (hzero : ZeroArtificials q x) (htight : q.Tight x) : ¬ StillArtificial t := by
  have hobjective := h.penalty_objectiveValue_nonneg hopt hx hzero htight
  rw [h.penalty_objectiveValue, Finset.mul_sum] at hobjective
  have hterm : ∀ i ∈ range t.rows.length,
      q.sense.sign * (t.entry i 0 * (t.basicCost i).penalty) ≤ 0 := by
    intro i hi
    have hbound := Tableau.isFeasible_iff.mp h.feasible i (mem_range.mp hi)
    have hcost := h.penalty_basicCost_nonpos (mem_range.mp hi)
    rw [mul_left_comm]
    exact mul_nonpos_of_nonneg_of_nonpos hbound hcost
  -- The terms are not positive and their sum is not negative, so each of them vanishes.
  have hvanish := (Finset.sum_eq_zero_iff_of_nonpos hterm).mp
    (le_antisymm (Finset.sum_nonpos hterm) hobjective)
  rw [not_stillArtificial_iff]
  intro i r hr hartificial
  have hi := (List.getElem?_eq_some_iff.mp hr).1
  obtain ⟨j, hj⟩ := h.wellFormed.basic i hi
  have hpenalty := h.penalty_price hj.lt
  rw [if_pos ((h.isArtificial_iff hj hr).mp hartificial), ← hj.basicCost_eq] at hpenalty
  have hrow := hvanish i (mem_range.mpr hi)
  rw [hpenalty, mul_left_comm, mul_neg, Sense.sign_mul_sign, mul_neg, mul_one, neg_eq_zero] at hrow
  rwa [Tableau.entry_of_getElem? hr] at hrow

/-- Where every artificial variable that is basic is zero, the basic solution has none. -/
theorem zeroArtificials_variableValue (hart : ¬ StillArtificial t) : ZeroArtificials q t.variableValue := by
  intro j hj
  by_cases hbasic : ∃ i, t.BasicIn i j
  · obtain ⟨i, hi⟩ := hbasic
    obtain ⟨r, hr, -⟩ := hi.exists_row
    rw [h.wellFormed.variableValue_of_basicIn hi, Tableau.entry_of_getElem? hr]
    exact not_stillArtificial_iff.mp hart i r hr ((h.isArtificial_iff hi hr).mpr hj)
  · exact h.wellFormed.variableValue_eq_zero (not_exists.mp hbasic)

/-- Where every artificial variable that is basic is zero, the basic solution solves the equations of the
program. -/
theorem tight_variableValue (hart : ¬ StillArtificial t) : q.Tight t.variableValue :=
  (h.holds_iff _ (h.zeroArtificials_variableValue hart)).mp h.wellFormed.holds_variableValue

/-- In a column without a positive entry the multiples of `M` of the basic variables do not improve the
objective. -/
theorem mul_penalty_basicCost_nonneg (hentry : ∀ i, t.entry i j ≤ 0) :
    ∀ i ∈ range t.rows.length, 0 ≤ t.entry i j * (q.sense.sign * (t.basicCost i).penalty) := fun i hi =>
  mul_nonneg_of_nonpos_of_nonpos (hentry i) (h.penalty_basicCost_nonpos (mem_range.mp hi))

/-- A column without a positive entry does not improve the objective by its multiple of `M`. -/
theorem penalty_reducedCost_nonneg (hlt : j < t.columns.length) (hentry : ∀ i, t.entry i j ≤ 0) :
    0 ≤ q.sense.sign * (t.reducedCost j).penalty := by
  have hsum := Finset.sum_nonneg (h.mul_penalty_basicCost_nonneg hentry)
  have hprice := h.penalty_price_nonpos hlt
  rw [t.mul_penalty_reducedCost]
  linarith

/-- When the best of all columns has no positive entry, no reduced cost improves by its multiple of `M`. -/
theorem isPenaltyOptimal_of_steepest (hselect : Pricing.steepest.select t = some (j, c))
    (hentry : ∀ i, t.entry i j ≤ 0) : t.IsPenaltyOptimal := by
  obtain ⟨-, hlt, rfl, -⟩ := Pricing.of_select hselect
  have hchosen := h.penalty_reducedCost_nonneg hlt hentry
  intro k hpos hk
  rw [h.sense]
  by_cases himproving : t.sense.Improving (t.reducedCost k)
  · have hworse := Pricing.not_improving_of_steepest hselect hpos hk himproving
    have hdifference := Sense.penalty_nonneg_of_not_improving hworse
    rw [h.sense, Cost.penalty_sub, mul_sub] at hdifference
    linarith
  · have hpenalty := Sense.penalty_nonneg_of_not_improving himproving
    rwa [h.sense] at hpenalty

end

end Represents

/-! What this means for the program itself. -/

section Accepted

variable (hp : p.Accepted) (h : Represents p.augmented t)

include hp h

/-- A feasible assignment shows, where no reduced cost improves by its multiple of `M`, that every artificial
variable that is basic is zero. -/
theorem not_stillArtificial_of_feasible (hopt : t.IsPenaltyOptimal) (hx : p.Feasible x) :
    ¬ StillArtificial t := by
  obtain ⟨z, hnonneg, hzero, htight, -⟩ := hp.exists_tight_augmented hx
  exact h.not_stillArtificial_of_tight hopt hnonneg hzero htight

/-- Where every artificial variable that is basic is zero, the basic solution is feasible. -/
theorem feasible_variableValue (hart : ¬ StillArtificial t) : p.Feasible t.variableValue := by
  have hzero := h.zeroArtificials_variableValue hart
  have htight := (hp.tight_augmented_iff hzero).mp (h.tight_variableValue hart)
  exact hp.feasible_of_tight (fun j _ => h.wellFormed.variableValue_nonneg h.feasible j) htight

end Accepted

end Simplex

end ExactSimplex
