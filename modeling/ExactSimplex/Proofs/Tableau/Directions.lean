import ExactSimplex.Proofs.Tableau.Objective

/-!
# The directions of a tableau

A direction of a tableau satisfies its equations with right-hand sides zero. It leads from any solution to
another, and its costs are what the reduced costs say. The ray of a column lets the variable of the column grow
by one and the basic variables follow; it costs the negated reduced cost of the column.
-/

namespace ExactSimplex.Tableau

open Finset

variable {t t' : Tableau} {i j k : Nat} {x d : Assignment}

/-- The assignment satisfies the equations of all rows with right-hand side zero. -/
def Vanishes (t : Tableau) (d : Assignment) : Prop := ∀ r ∈ t.rows, weigh d 1 r.values.tail = 0

/-- From one solution to another leads a direction. -/
theorem holds_add_iff (hx : t.Holds x) : t.Holds (x + d) ↔ t.Vanishes d := by
  refine forall₂_congr fun r hr => ?_
  rw [Row.Holds, weigh_add, show weigh x 1 r.values.tail = r.bound from hx r hr, add_eq_left]

/-- The equations of a direction, by the entries. -/
theorem vanishes_iff (hrect : t.Rectangular) :
    t.Vanishes d ↔ ∀ i, i < t.rows.length → ∑ j ∈ Ico 1 t.columns.length, t.entry i j * d j = 0 := by
  rw [Vanishes, List.forall_mem_iff_getElem]
  refine forall₂_congr fun i hi => ?_
  rw [Row.weigh_tail, hrect _ (List.getElem_mem hi)]
  simp only [entry_of_getElem? (List.getElem?_eq_getElem hi)]

/-- Tableaus with the same solutions, of which there is one, have the same directions. -/
theorem vanishes_iff_of_holds_iff (h : ∀ x, t'.Holds x ↔ t.Holds x) (hx : t.Holds x) :
    t'.Vanishes d ↔ t.Vanishes d :=
  ((holds_add_iff ((h x).mpr hx)).symm.trans (h (x + d))).trans (holds_add_iff hx)

/-- Removing a row removes its equation for directions too. -/
theorem vanishes_removeRow (hr : t.removeRow i = .ok t') (d : Assignment) :
    t.Vanishes d ↔ t'.Vanishes d ∧ ∀ r, t.rows[i]? = some r → weigh d 1 r.values.tail = 0 :=
  forall_mem_rows_removeRow hr fun r => weigh d 1 r.values.tail = 0

theorem costAt_add (t : Tableau) (x d : Assignment) : t.costAt (x + d) = t.costAt x + t.costAt d := by
  simp only [costAt, Pi.add_apply, add_smul, Finset.sum_add_distrib]

/-- A direction costs what the reduced costs say. -/
theorem WellFormed.costAt_of_vanishes (h : t.WellFormed) (hd : t.Vanishes d) :
    t.costAt d = -∑ j ∈ Ico 1 t.columns.length, d j • t.reducedCost j := by
  have hsolution := h.holds_variableValue
  have hcost := h.costAt_eq ((holds_add_iff hsolution).mpr hd)
  have hbasic := h.costAt_eq hsolution
  rw [costAt_add, hbasic] at hcost
  simp only [Pi.add_apply, add_smul, Finset.sum_add_distrib] at hcost
  rw [← sub_sub, sub_eq_add_neg _ (∑ j ∈ Ico 1 t.columns.length, d j • t.reducedCost j)] at hcost
  exact add_left_cancel hcost

/-! The ray of a column. -/

/-- The variable of column `j` grows by one, and every basic variable falls by the entry of its row in that
column. -/
def ray (t : Tableau) (j : Nat) : Assignment := fun k =>
  if k = j then 1
  else
    match t.rowOf? (variableName k) with
    | some i => -t.entry i j
    | none => 0

@[simp] theorem ray_self (t : Tableau) (j : Nat) : t.ray j j = 1 := if_pos rfl

namespace WellFormed

variable (h : t.WellFormed)

include h

/-- Along the ray a basic variable falls by the entry of its row. -/
theorem ray_of_basicIn (hb : t.BasicIn i k) (hk : k ≠ j) : t.ray j k = -t.entry i j := by
  rw [ray, if_neg hk, h.rowOf?_variableName.mpr hb]

/-- Along the ray the other variables stay. -/
theorem ray_eq_zero (hb : ∀ i, ¬ t.BasicIn i k) (hk : k ≠ j) : t.ray j k = 0 := by
  rw [ray, if_neg hk]
  cases hrow : t.rowOf? (variableName k) with
  | none => rfl
  | some i => exact absurd (h.rowOf?_variableName.mp hrow) (hb i)

/-- Where no entry of the column is positive, no variable falls along the ray. -/
theorem ray_nonneg (hentry : ∀ i, t.entry i j ≤ 0) (k : Nat) : 0 ≤ t.ray j k := by
  by_cases hk : k = j
  · rw [hk, ray_self]
    exact zero_le_one
  · by_cases hbasic : ∃ i, t.BasicIn i k
    · obtain ⟨i, hi⟩ := hbasic
      rw [h.ray_of_basicIn hi hk]
      exact neg_nonneg.mpr (hentry i)
    · exact (h.ray_eq_zero (not_exists.mp hbasic) hk).ge

variable (hpos : 0 < j) (hlt : j < t.columns.length) (hj : ∀ i, ¬ t.BasicIn i j)

include hpos hlt hj

/-- The ray of a variable that is not basic is a direction. -/
theorem vanishes_ray : t.Vanishes (t.ray j) := by
  rw [vanishes_iff h.rectangular]
  intro i hi
  obtain ⟨m, hm⟩ := h.basic i hi
  have hmj : m ≠ j := by
    rintro rfl
    exact hj i hm
  -- In each row only the variable of the column and the basic variable move.
  have hother : ∀ k ∈ Ico 1 t.columns.length, k ≠ j ∧ k ≠ m → t.entry i k * t.ray j k = 0 := by
    rintro k - ⟨hkj, hkm⟩
    by_cases hbasic : ∃ l, t.BasicIn l k
    · obtain ⟨l, hl⟩ := hbasic
      have hil : i ≠ l := by
        rintro rfl
        exact hkm (hl.column_eq hm)
      rw [hl.entry_other i hi hil, zero_mul]
    · rw [h.ray_eq_zero (not_exists.mp hbasic) hkj, mul_zero]
  rw [Finset.sum_eq_add_of_mem j m (mem_Ico.mpr ⟨hpos, hlt⟩) (mem_Ico.mpr ⟨hm.pos, hm.lt⟩) hmj.symm hother,
    ray_self, h.ray_of_basicIn hm hmj, hm.entry_self]
  ring

/-- The ray costs the negated reduced cost of its column. -/
theorem costAt_ray : t.costAt (t.ray j) = -t.reducedCost j := by
  have hother : ∀ k ∈ Ico 1 t.columns.length, k ≠ j → t.ray j k • t.reducedCost k = 0 := by
    intro k _ hk
    by_cases hbasic : ∃ i, t.BasicIn i k
    · obtain ⟨i, hi⟩ := hbasic
      rw [hi.reducedCost_eq_zero, smul_zero]
    · rw [h.ray_eq_zero (not_exists.mp hbasic) hk, zero_smul]
  rw [h.costAt_of_vanishes (h.vanishes_ray hpos hlt hj),
    Finset.sum_eq_single_of_mem j (mem_Ico.mpr ⟨hpos, hlt⟩) hother, ray_self, one_smul]

end WellFormed

end ExactSimplex.Tableau
