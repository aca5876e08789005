import ExactSimplex.Proofs.Tableau.Equations
import Mathlib.Algebra.Module.BigOperators
import Mathlib.Tactic.Abel

/-!
# The objective of a tableau

On the solutions of a tableau the objective differs from that of the basic solution by the reduced costs
alone. A pivot therefore changes the reduced costs as it changes any other row.
-/

namespace ExactSimplex.Tableau

open Finset

variable {t t' : Tableau} {i j k : Nat} {x : Assignment}

/-- What an assignment to the variables of the columns costs. -/
def costAt (t : Tableau) (x : Assignment) : Cost :=
  ∑ j ∈ Ico 1 t.columns.length, x j • t.price j

/-- The finite part of the costs is a sum over the variables with a finite cost. -/
theorem finite_costAt_eq_weigh {as : List Rat} (hlength : as.length < t.columns.length)
    (hprice : ∀ j, 0 < j → j < t.columns.length → (t.price j).finite = as[j - 1]?.getD 0) :
    (t.costAt x).finite = weigh x 1 as := by
  have hsplit : 1 + as.length ≤ t.columns.length := by omega
  have hbehind : ∑ j ∈ Ico (1 + as.length) t.columns.length, (x j • t.price j).finite = 0 := by
    apply Finset.sum_eq_zero
    intro j hj
    obtain ⟨hle, hlt⟩ := mem_Ico.mp hj
    rw [Cost.finite_smul, hprice j (by omega) hlt, List.getElem?_eq_none (by omega), Option.getD_none,
      mul_zero]
  rw [costAt, Cost.finite_sum, ← Finset.sum_Ico_consecutive _ (Nat.le_add_right 1 _) hsplit, hbehind,
    add_zero, weigh_eq_sum]
  apply Finset.sum_congr rfl
  intro j hj
  obtain ⟨hpos, hlt⟩ := mem_Ico.mp hj
  rw [Cost.finite_smul, hprice j hpos (by omega), mul_comm]

/-- Where the costs of the basic variables and of a column do not contain `M`, its reduced cost does not. -/
theorem penalty_reducedCost_eq_zero (hrows : ∀ i, i < t.rows.length → (t.basicCost i).penalty = 0)
    (hprice : (t.price j).penalty = 0) : (t.reducedCost j).penalty = 0 := by
  have hterm : ∀ i ∈ range t.rows.length, (t.entry i j • t.basicCost i).penalty = 0 := by
    intro i hi
    rw [Cost.penalty_smul, hrows i (mem_range.mp hi), mul_zero]
  rw [reducedCost_eq_sum, Cost.penalty_sub, Cost.penalty_sum, Finset.sum_eq_zero hterm, hprice, sub_zero]

/-- The multiple of `M` in a reduced cost, scaled. -/
theorem mul_penalty_reducedCost (t : Tableau) (j : Nat) (k : Rat) :
    k * (t.reducedCost j).penalty =
      ∑ i ∈ range t.rows.length, t.entry i j * (k * (t.basicCost i).penalty) - k * (t.price j).penalty := by
  rw [reducedCost_eq_sum, Cost.penalty_sub, Cost.penalty_sum, mul_sub, Finset.mul_sum]
  congr 1
  exact Finset.sum_congr rfl fun i _ => by rw [Cost.penalty_smul]; ring

/-- The column of right-hand sides has no price. -/
theorem WellFormed.price_zero (h : t.WellFormed) : t.price 0 = 0 := by
  have hnone := (h.cost_eq_none_iff 0 h.nonempty).mpr rfl
  rw [price, hnone]
  rfl

/-- On a solution the rows add up to the column of right-hand sides. -/
private theorem sum_smul_reducedCost (hrect : t.Rectangular) (hx : t.Holds x) :
    ∑ j ∈ Ico 1 t.columns.length, x j • ∑ i ∈ range t.rows.length, t.entry i j • t.basicCost i =
      ∑ i ∈ range t.rows.length, t.entry i 0 • t.basicCost i := by
  simp only [Finset.smul_sum]
  rw [Finset.sum_comm]
  apply Finset.sum_congr rfl
  intro i hi
  have hrow := (holds_iff_residual hrect x).mp hx i (mem_range.mp hi)
  rw [← sub_eq_zero.mp hrow, Finset.sum_smul]
  exact Finset.sum_congr rfl fun j _ => by rw [smul_smul, mul_comm]

/-- The objective of a solution is that of the basic solution less what the reduced costs say. This takes no
unit columns: only the column of right-hand sides must have no price. -/
theorem costAt_eq_of_price_zero (hrect : t.Rectangular) (hzero : t.price 0 = 0) (hx : t.Holds x) :
    t.costAt x = t.objectiveValue - ∑ j ∈ Ico 1 t.columns.length, x j • t.reducedCost j := by
  simp only [objectiveValue, reducedCost_eq_sum, smul_sub, Finset.sum_sub_distrib]
  rw [sum_smul_reducedCost hrect hx, hzero, sub_zero, sub_sub_cancel, costAt]

/-- So is the objective of a solution of a well-formed tableau. -/
theorem WellFormed.costAt_eq (h : t.WellFormed) (hx : t.Holds x) :
    t.costAt x = t.objectiveValue - ∑ j ∈ Ico 1 t.columns.length, x j • t.reducedCost j :=
  costAt_eq_of_price_zero h.rectangular h.price_zero hx

/-- The reduced cost of a basic variable is zero. -/
theorem BasicIn.reducedCost_eq_zero (hb : t.BasicIn i j) : t.reducedCost j = 0 := by
  have hother : ∀ k ∈ range t.rows.length, k ≠ i → t.entry k j • t.basicCost k = 0 := by
    intro k hk hki
    rw [hb.entry_other k (mem_range.mp hk) hki, zero_smul]
  rw [reducedCost_eq_sum, Finset.sum_eq_single_of_mem i (mem_range.mpr hb.lt_rows) hother, hb.entry_self,
    one_smul, hb.basicCost_eq, sub_self]

/-- The variable of a column that promises a better objective is not basic. -/
theorem not_basicIn_of_improving (h : t.sense.Improving (t.reducedCost j)) (i : Nat) : ¬ t.BasicIn i j := by
  intro hb
  rw [hb.reducedCost_eq_zero] at h
  exact t.sense.not_improving_zero h

/-- The objective of the basic solution stands in the column of right-hand sides. -/
theorem WellFormed.costAt_variableValue (h : t.WellFormed) :
    t.costAt t.variableValue = t.objectiveValue := by
  have hzero : ∀ j, t.variableValue j • t.reducedCost j = 0 := by
    intro j
    by_cases hbasic : ∃ i, t.BasicIn i j
    · obtain ⟨i, hi⟩ := hbasic
      rw [hi.reducedCost_eq_zero, smul_zero]
    · rw [h.variableValue_eq_zero (not_exists.mp hbasic), zero_smul]
  rw [h.costAt_eq h.holds_variableValue, Finset.sum_eq_zero fun j _ => hzero j, sub_zero]

/-- Weak duality: where the finite parts of the reduced costs do not promise a better objective, those of
variables that are zero aside, no nonnegative solution has one. -/
theorem WellFormed.finite_costAt_le (h : t.WellFormed) (hx : t.Holds x) {sign : Rat}
    (hcost : ∀ j, 0 < j → j < t.columns.length →
      x j = 0 ∨ 0 ≤ x j ∧ 0 ≤ sign * (t.reducedCost j).finite) :
    sign * (t.costAt x).finite ≤ sign * t.objectiveValue.finite := by
  have hsum : 0 ≤ ∑ j ∈ Ico 1 t.columns.length, x j * (sign * (t.reducedCost j).finite) := by
    apply Finset.sum_nonneg
    intro j hj
    obtain ⟨hpos, hlt⟩ := mem_Ico.mp hj
    rcases hcost j hpos hlt with hzero | ⟨hnonneg, hsign⟩
    · rw [hzero, zero_mul]
    · exact mul_nonneg hnonneg hsign
  have hfactor : ∑ j ∈ Ico 1 t.columns.length, x j * (sign * (t.reducedCost j).finite) =
      sign * ∑ j ∈ Ico 1 t.columns.length, x j * (t.reducedCost j).finite := by
    rw [Finset.mul_sum]
    exact Finset.sum_congr rfl fun j _ => by ring
  have hfinite : (t.costAt x).finite =
      t.objectiveValue.finite - ∑ j ∈ Ico 1 t.columns.length, x j * (t.reducedCost j).finite := by
    rw [h.costAt_eq hx, Cost.finite_sub, Cost.finite_sum]
    rfl
  rw [hfinite, mul_sub, ← hfactor]
  linarith

/-- Cutting off columns leaves the reduced costs in front of them. -/
theorem reducedCost_truncate {n : Nat} (h : t.truncate n = .ok t') (hj : j < n) :
    t'.reducedCost j = t.reducedCost j := by
  rw [reducedCost_eq_sum, reducedCost_eq_sum, length_rows_truncate h, price_truncate h hj]
  simp only [entry_truncate h hj, basicCost_truncate h]

/-- Cutting off columns leaves the objective value of the basic solution. -/
theorem objectiveValue_truncate {n : Nat} (h : t.truncate n = .ok t') :
    t'.objectiveValue = t.objectiveValue :=
  reducedCost_truncate h (truncate_eq_ok_iff.mp h).1.1

/-- Cutting off columns keeps a tableau optimal. -/
theorem IsOptimal.truncate {n : Nat} (hopt : t.IsOptimal) (h : t.truncate n = .ok t') : t'.IsOptimal := by
  have hsense : t'.sense = t.sense := by
    obtain ⟨-, rfl⟩ := truncate_eq_ok_iff.mp h
    rfl
  have hle := (truncate_eq_ok_iff.mp h).1.2
  rw [isOptimal_iff] at hopt ⊢
  intro j hpos hlt
  rw [length_columns_truncate h] at hlt
  rw [reducedCost_truncate h hlt, hsense]
  exact hopt j hpos (hlt.trans_le hle)

section AppendRow

variable {values : List Rat} (hrect : t.Rectangular) (ha : t.appendRow values = .ok t')

include hrect ha

/-- A row whose basic variable costs nothing leaves the reduced costs. -/
theorem reducedCost_appendRow_of_lt (hj : j < t.columns.length) : t'.reducedCost j = t.reducedCost j := by
  have hrows : ∀ i ∈ range t.rows.length, t'.entry i j • t'.basicCost i = t.entry i j • t.basicCost i := by
    intro i hi
    rw [entry_appendRow_of_lt ha hrect (mem_range.mp hi), basicCost_appendRow_of_lt ha (mem_range.mp hi)]
  rw [reducedCost_eq_sum, reducedCost_eq_sum, length_rows_appendRow ha, Finset.sum_range_succ,
    Finset.sum_congr rfl hrows, basicCost_appendRow_last ha, smul_zero, add_zero,
    price_appendRow_of_lt ha hj]

/-- The reduced cost of the new variable is zero. -/
theorem reducedCost_appendRow_last : t'.reducedCost t.columns.length = 0 := by
  have hrows : ∀ i ∈ range t.rows.length, t'.entry i t.columns.length • t'.basicCost i = 0 := by
    intro i hi
    rw [entry_appendRow_of_lt ha hrect (mem_range.mp hi), entry_eq_zero_of_columns_le hrect le_rfl,
      zero_smul]
  rw [reducedCost_eq_sum, length_rows_appendRow ha, Finset.sum_range_succ, Finset.sum_eq_zero hrows,
    basicCost_appendRow_last ha, smul_zero, price_appendRow_last ha, add_zero, sub_zero]

/-- A row whose basic variable costs nothing keeps a tableau optimal. -/
theorem IsOptimal.appendRow (h : t.IsOptimal) : t'.IsOptimal := by
  have hsense : t'.sense = t.sense := by
    obtain ⟨-, rfl⟩ := appendRow_eq_ok_iff.mp ha
    rfl
  rw [isOptimal_iff] at h ⊢
  rw [length_columns_appendRow ha, hsense]
  intro j hpos hlt
  rcases Nat.lt_succ_iff_lt_or_eq.mp hlt with hlt | rfl
  · rw [reducedCost_appendRow_of_lt hrect ha hlt]
    exact h j hpos hlt
  · rw [reducedCost_appendRow_last hrect ha]
    exact t.sense.not_improving_zero

end AppendRow

/-- Removing a row takes what its variable costs along a column from the reduced cost. -/
theorem reducedCost_removeRow {r : Row} (hr : t.removeRow i = .ok t') (hrow : t.rows[i]? = some r) :
    t'.reducedCost j + r.entry j • r.cost = t.reducedCost j := by
  have hsum := ((perm_rows_removeRow hr hrow).map fun r => r.entry j • r.cost).sum_eq
  rw [List.map_cons, List.sum_cons] at hsum
  rw [reducedCost, reducedCost, ← hsum, price_removeRow hr]
  abel

/-- A pivot subtracts from the reduced costs the multiple of its row that clears its column. -/
theorem reducedCost_pivot (hrect : t.Rectangular) (hp : t.pivot i j = .ok t') (k : Nat) :
    t'.reducedCost k = t.reducedCost k - (t.entry i k / t.entry i j) • t.reducedCost j := by
  obtain ⟨leaving, hrow, -, -, hne, rfl⟩ := pivot_eq_ok_iff.mp hp
  rw [← entry_of_getElem? hrow] at hne
  have hi := (List.getElem?_eq_some_iff.mp hrow).1
  set q := t.entry i k / t.entry i j with hq
  -- In the pivot row the eliminated part vanishes, and the entering variable takes its place.
  have hterm : ∀ l, (t.exchange i j leaving).entry l k • (t.exchange i j leaving).basicCost l =
      (t.entry l k • t.basicCost l - q • t.entry l j • t.basicCost l) +
        if l = i then q • t.price j else 0 := by
    intro l
    rw [entry_exchange hrect hrow, basicCost_exchange hi]
    by_cases hl : l = i
    · have hcancel : q * t.entry i j = t.entry i k := div_mul_cancel₀ _ hne
      rw [if_pos hl, if_pos hl, if_pos hl, hl, smul_smul, hcancel, sub_self, zero_add]
    · rw [if_neg hl, if_neg hl, if_neg hl, add_zero, sub_smul, smul_smul, mul_comm (t.entry l j)]
  have hentering : ∑ l ∈ range t.rows.length, (if l = i then q • t.price j else 0) = q • t.price j := by
    rw [Finset.sum_ite_eq' (range t.rows.length) i, if_pos (mem_range.mpr hi)]
  rw [reducedCost_eq_sum, reducedCost_eq_sum, reducedCost_eq_sum, length_rows_exchange]
  simp only [hterm, Finset.sum_add_distrib, Finset.sum_sub_distrib]
  rw [hentering, ← Finset.smul_sum, smul_sub]
  change _ - t.price k = _
  abel

end ExactSimplex.Tableau
