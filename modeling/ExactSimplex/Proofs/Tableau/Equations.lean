import ExactSimplex.Proofs.Algebra.Weigh
import ExactSimplex.Proofs.Tableau.WellFormed
import Mathlib.Algebra.BigOperators.Field

/-!
# The equations of a tableau

The residual of a row is by how much an assignment misses its equation. A pivot combines residuals in a
way that can be undone, so it changes no solution; removing, cutting off and appending change the solutions
as the removed or appended equations and columns say. The basic solution is a solution.
-/

namespace ExactSimplex

open Finset

/-- The equation of a row sums over the columns behind the first. -/
theorem Row.weigh_tail (r : Row) (x : Assignment) :
    weigh x 1 r.values.tail = ∑ j ∈ Ico 1 r.values.length, r.entry j * x j := by
  rw [weigh_eq_sum, List.length_tail]
  apply Finset.sum_congr
  · ext j
    simp only [mem_Ico]
    omega
  · intro j hj
    have hj1 := (mem_Ico.mp hj).1
    rw [List.getElem?_tail, show j - 1 + 1 = j by omega, entry]

namespace Tableau

variable {t t' : Tableau} {i j k l : Nat} {leaving : Row} {x y : Assignment}

/-- By how much an assignment misses the equation of row `i`. -/
def residual (t : Tableau) (x : Assignment) (i : Nat) : Rat :=
  ∑ j ∈ Ico 1 t.columns.length, t.entry i j * x j - t.entry i 0

/-- An assignment satisfies the equations when it misses none of them. -/
theorem holds_iff_residual (hrect : t.Rectangular) (x : Assignment) :
    t.Holds x ↔ ∀ i, i < t.rows.length → t.residual x i = 0 := by
  have hrow : ∀ i (hi : i < t.rows.length), t.rows[i].Holds x ↔ t.residual x i = 0 := by
    intro i hi
    have hget := List.getElem?_eq_getElem hi
    simp only [Row.Holds, Row.weigh_tail, residual, Row.bound, entry_of_getElem? hget,
      hrect _ (List.getElem_mem hi), sub_eq_zero]
  rw [Holds, List.forall_mem_iff_getElem]
  exact forall₂_congr hrow

/-- Only the variables of the columns count. -/
theorem holds_congr (hrect : t.Rectangular) (h : ∀ j, 0 < j → j < t.columns.length → x j = y j) :
    t.Holds x ↔ t.Holds y := by
  have hresidual : ∀ i, t.residual x i = t.residual y i := by
    intro i
    simp only [residual]
    congr 1
    apply Finset.sum_congr rfl
    intro j hj
    rw [h j (mem_Ico.mp hj).1 (mem_Ico.mp hj).2]
  rw [holds_iff_residual hrect, holds_iff_residual hrect]
  simp only [hresidual]

/-! Pivots. -/

private theorem residual_exchange (hrect : t.Rectangular) (hrow : t.rows[i]? = some leaving) :
    (t.exchange i j leaving).residual x l =
      if l = i then t.residual x i / t.entry i j
      else t.residual x l - t.entry l j * (t.residual x i / t.entry i j) := by
  simp only [residual, entry_exchange hrect hrow]
  change ∑ k ∈ Ico 1 t.columns.length, _ - _ = _
  split
  · rw [sub_div, Finset.sum_div]
    simp only [div_mul_eq_mul_div]
  · have hsum : ∑ k ∈ Ico 1 t.columns.length,
        (t.entry l k - t.entry l j * (t.entry i k / t.entry i j)) * x k =
          ∑ k ∈ Ico 1 t.columns.length, t.entry l k * x k -
            t.entry l j * ((∑ k ∈ Ico 1 t.columns.length, t.entry i k * x k) / t.entry i j) := by
      rw [Finset.sum_div, Finset.mul_sum, ← Finset.sum_sub_distrib]
      exact Finset.sum_congr rfl fun k _ => by ring
    rw [hsum]
    ring

/-- A pivot changes no solution. -/
theorem holds_pivot (hrect : t.Rectangular) (hp : t.pivot i j = .ok t') (x : Assignment) :
    t'.Holds x ↔ t.Holds x := by
  have hrect' := hrect.pivot hp
  obtain ⟨leaving, hrow, -, -, hne, rfl⟩ := pivot_eq_ok_iff.mp hp
  rw [← entry_of_getElem? hrow] at hne
  have hi := (List.getElem?_eq_some_iff.mp hrow).1
  rw [holds_iff_residual hrect, holds_iff_residual hrect', length_rows_exchange]
  simp only [residual_exchange hrect hrow]
  constructor
  · intro h l hl
    have hpivot := h i hi
    rw [if_pos rfl, div_eq_zero_iff] at hpivot
    have hzero := hpivot.resolve_right hne
    by_cases hli : l = i
    · rw [hli, hzero]
    · have hother := h l hl
      rw [if_neg hli, hzero, zero_div, mul_zero, sub_zero] at hother
      exact hother
  · intro h l hl
    split
    · rw [h i hi, zero_div]
    · rw [h l hl, h i hi, zero_div, mul_zero, sub_zero]

/-! Other operations. -/

/-- What holds of all rows holds of the removed one and of the others. -/
theorem forall_mem_rows_removeRow (hr : t.removeRow i = .ok t') (P : Row → Prop) :
    (∀ r ∈ t.rows, P r) ↔ (∀ r ∈ t'.rows, P r) ∧ ∀ r, t.rows[i]? = some r → P r := by
  obtain ⟨hi, rfl⟩ := removeRow_eq_ok_iff.mp hr
  constructor
  · intro h
    exact ⟨fun r hmem => h r (List.mem_of_mem_eraseIdx hmem), fun r hrow => h r (List.mem_of_getElem? hrow)⟩
  · rintro ⟨hrest, hrow⟩ r hmem
    obtain ⟨l, hl⟩ := List.mem_iff_getElem?.mp hmem
    by_cases hli : l = i
    · exact hrow r (hli ▸ hl)
    · exact hrest r (List.mem_eraseIdx_iff_getElem?.mpr ⟨l, hli, hl⟩)

/-- Removing a row removes its equation. -/
theorem holds_removeRow (hr : t.removeRow i = .ok t') (x : Assignment) :
    t.Holds x ↔ t'.Holds x ∧ ∀ r, t.rows[i]? = some r → r.Holds x :=
  forall_mem_rows_removeRow hr fun r => r.Holds x

/-- Cutting columns off sets their variables to zero. -/
theorem holds_truncate {n : Nat} (hrect : t.Rectangular) (hrect' : t'.Rectangular)
    (ht : t.truncate n = .ok t') (hx : ∀ j, n ≤ j → x j = 0) : t'.Holds x ↔ t.Holds x := by
  have hn := (truncate_eq_ok_iff.mp ht).1
  have hresidual : ∀ i, t'.residual x i = t.residual x i := by
    intro i
    rw [residual, residual, length_columns_truncate ht, entry_truncate ht hn.1,
      ← Finset.sum_Ico_consecutive _ (show 1 ≤ n by omega) hn.2]
    have hbehind : ∑ j ∈ Ico n t.columns.length, t.entry i j * x j = 0 :=
      Finset.sum_eq_zero fun j hj => by rw [hx j (mem_Ico.mp hj).1, mul_zero]
    have hfront : ∑ j ∈ Ico 1 n, t'.entry i j * x j = ∑ j ∈ Ico 1 n, t.entry i j * x j :=
      Finset.sum_congr rfl fun j hj => by rw [entry_truncate ht (mem_Ico.mp hj).2]
    rw [hbehind, hfront, add_zero]
  rw [holds_iff_residual hrect, holds_iff_residual hrect', length_rows_truncate ht]
  simp only [hresidual]

/-- Appending a row adds its equation. -/
theorem holds_appendRow {values : List Rat} (hrect : t.Rectangular) (hrect' : t'.Rectangular)
    (ha : t.appendRow values = .ok t') (x : Assignment) :
    t'.Holds x ↔ t.Holds x ∧ weigh x 1 values.tail = values[0]?.getD 0 := by
  have hlength := (appendRow_eq_ok_iff.mp ha).1
  have hresidual : ∀ i, i < t.rows.length → t'.residual x i = t.residual x i := by
    intro i hi
    simp only [residual, length_columns_appendRow ha, entry_appendRow_of_lt ha hrect hi]
    by_cases hpos : 1 ≤ t.columns.length
    · rw [Finset.sum_Ico_succ_top hpos, entry_eq_zero_of_columns_le hrect le_rfl]
      ring
    · rw [Finset.Ico_eq_empty (by omega), Finset.Ico_eq_empty (by omega)]
  have hlast : t'.residual x t.rows.length = weigh x 1 values.tail - values[0]?.getD 0 := by
    have htail := Row.weigh_tail ⟨variableName t.columns.length, 0, values⟩ x
    rw [show weigh x 1 values.tail = _ from htail]
    simp only [residual, length_columns_appendRow ha, entry_appendRow_last ha, hlength]
    rfl
  rw [holds_iff_residual hrect, holds_iff_residual hrect', length_rows_appendRow ha]
  constructor
  · intro h
    refine ⟨fun i hi => ?_, ?_⟩
    · rw [← hresidual i hi]
      exact h i (by omega)
    · rw [← sub_eq_zero, ← hlast]
      exact h _ (Nat.lt_succ_self _)
  · rintro ⟨hold, hnew⟩ i hi
    by_cases hilast : i = t.rows.length
    · rw [hilast, hlast, hnew, sub_self]
    · rw [hresidual i (by omega)]
      exact hold i (by omega)

/-- Recorded ratios have nothing to do with the equations. -/
theorem holds_record {ratios : Ratios} (hr : t.record ratios = .ok t') (x : Assignment) :
    t'.Holds x ↔ t.Holds x := by
  obtain ⟨-, rfl⟩ := record_eq_ok_iff.mp hr
  exact Iff.rfl

/-! The basic solution. -/

/-- Along a row only the basic variable counts in the basic solution. -/
theorem WellFormed.entry_mul_variableValue (h : t.WellFormed) (hb : t.BasicIn i j) (hk : k ≠ j) :
    t.entry i k * t.variableValue k = 0 := by
  by_cases hbasic : ∃ l, t.BasicIn l k
  · obtain ⟨l, hl⟩ := hbasic
    have hil : i ≠ l := by
      rintro rfl
      exact hk (hl.column_eq hb)
    rw [hl.entry_other i hb.lt_rows hil, zero_mul]
  · rw [h.variableValue_eq_zero (not_exists.mp hbasic), mul_zero]

/-- The basic solution satisfies the equations. -/
theorem WellFormed.holds_variableValue (h : t.WellFormed) : t.Holds t.variableValue := by
  rw [holds_iff_residual h.rectangular]
  intro i hi
  obtain ⟨j, hj⟩ := h.basic i hi
  have hmem : j ∈ Ico 1 t.columns.length := mem_Ico.mpr ⟨hj.pos, hj.lt⟩
  rw [residual, Finset.sum_eq_single_of_mem j hmem fun k _ hk => h.entry_mul_variableValue hj hk,
    hj.entry_self, h.variableValue_of_basicIn hj, one_mul, sub_self]

/-- The right-hand side of a row is an entry. -/
theorem isFeasible_iff : t.IsFeasible ↔ ∀ i, i < t.rows.length → 0 ≤ t.entry i 0 := by
  rw [IsFeasible, List.forall_mem_iff_getElem]
  apply forall₂_congr
  intro i hi
  rw [not_lt, entry_of_getElem? (List.getElem?_eq_getElem hi), Row.bound]

/-- No right-hand side is negative, and where there is no row the entry is zero. -/
theorem IsFeasible.entry_nonneg (hf : t.IsFeasible) (i : Nat) : 0 ≤ t.entry i 0 := by
  by_cases hi : i < t.rows.length
  · exact isFeasible_iff.mp hf i hi
  · exact (entry_eq_zero_of_length_le (not_lt.mp hi)).ge

/-- Cutting off columns keeps a tableau feasible. -/
theorem IsFeasible.truncate {n : Nat} (hf : t.IsFeasible) (h : t.truncate n = .ok t') : t'.IsFeasible := by
  rw [isFeasible_iff] at hf ⊢
  intro i hi
  rw [length_rows_truncate h] at hi
  rw [entry_truncate h (truncate_eq_ok_iff.mp h).1.1]
  exact hf i hi

/-- In a feasible tableau no variable is negative. -/
theorem WellFormed.variableValue_nonneg (h : t.WellFormed) (hf : t.IsFeasible) (j : Nat) :
    0 ≤ t.variableValue j := by
  by_cases hbasic : ∃ i, t.BasicIn i j
  · obtain ⟨i, hi⟩ := hbasic
    rw [h.variableValue_of_basicIn hi]
    exact isFeasible_iff.mp hf i hi.lt_rows
  · rw [h.variableValue_eq_zero (not_exists.mp hbasic)]

end Tableau

end ExactSimplex
