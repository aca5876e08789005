import ExactSimplex.Proofs.Tableau.Operations

/-!
# The row of reduced costs across a pivot

A pivot computes the reduced costs anew, from the exchanged costs of the basic variables and the new numbers.
What comes out is the old row less a multiple of the new pivot row, as if the row of reduced costs had been
cleared in the pivot column like any other row. On the solutions, which a pivot does not change, the old and the
new row tell the same objective. Neither takes the basic columns to be unit vectors.
-/

namespace ExactSimplex.Tableau

open Finset

variable {t t' : Tableau} {i j : Nat} {leaving : Row} {x : Assignment}

/-- The objective that a row of reduced costs tells: its first entry, less what the other entries say of the
assignment. -/
def objectiveOf (costs : List Cost) (x : Assignment) : Cost :=
  costs[0]?.getD 0 - ∑ j ∈ Ico 1 costs.length, x j • costs[j]?.getD 0

/-! The row of reduced costs as a list. -/

theorem getD_reducedCosts (hj : j < t.columns.length) : t.reducedCosts[j]?.getD 0 = t.reducedCost j := by
  rw [getElem?_reducedCosts, if_pos hj, Option.getD_some]

/-- On a solution the row of reduced costs tells the objective, for the column of right-hand sides has no cost. -/
theorem costAt_eq_objectiveOf (hrect : t.Rectangular) (hconstant : t.columns.head?.map (·.cost) = some none)
    (hx : t.Holds x) : t.costAt x = objectiveOf t.reducedCosts x := by
  obtain ⟨column, hhead, hcost⟩ := Option.map_eq_some_iff.mp hconstant
  rw [List.head?_eq_getElem?] at hhead
  have hpos : 0 < t.columns.length := (List.getElem?_eq_some_iff.mp hhead).1
  have hzero : t.price 0 = 0 := by rw [price, hhead, Option.bind_some, hcost, Option.getD_none]
  have hsum : ∑ j ∈ Ico 1 t.columns.length, x j • t.reducedCosts[j]?.getD 0 =
      ∑ j ∈ Ico 1 t.columns.length, x j • t.reducedCost j :=
    Finset.sum_congr rfl fun j hj => by rw [getD_reducedCosts (mem_Ico.mp hj).2]
  rw [costAt_eq_of_price_zero hrect hzero hx, objectiveOf, length_reducedCosts, getD_reducedCosts hpos, hsum,
    objectiveValue]

/-- The variables of the columns cost after a pivot what they cost before. -/
theorem costAt_pivot (hp : t.pivot i j = .ok t') (x : Assignment) : t'.costAt x = t.costAt x := by
  obtain ⟨_, -, -, -, -, rfl⟩ := pivot_eq_ok_iff.mp hp
  rfl

/-! What a pivot keeps. -/

/-- A pivot that is admissible changes no solution. On every solution the objective is what the row of reduced
costs tells, the one before the pivot and the one after it. -/
theorem objectiveOf_of_pivot (hrect : t.Rectangular) (hconstant : t.columns.head?.map (·.cost) = some none)
    (hadmits : t.Admits (.pivot i j)) :
    ∃ t', t.pivot i j = .ok t' ∧ (∀ x, t'.Holds x ↔ t.Holds x) ∧
      ∀ x, t.Holds x →
        t.costAt x = objectiveOf t.reducedCosts x ∧ t.costAt x = objectiveOf t'.reducedCosts x := by
  obtain ⟨t', hp⟩ : ∃ t', t.pivot i j = .ok t' := exists_perform hadmits
  refine ⟨t', hp, holds_pivot hrect hp, fun x hx => ⟨costAt_eq_objectiveOf hrect hconstant hx, ?_⟩⟩
  rw [← columns_pivot hp] at hconstant
  rw [← costAt_pivot hp]
  exact costAt_eq_objectiveOf (hrect.pivot hp) hconstant ((holds_pivot hrect hp x).mpr hx)

/-- Two rows with multiples of the large constant in their costs. The column of the first basic variable is no
unit vector, and the second row is headed by a variable that has no column. -/
def mixed : Tableau where
  sense := .minimize
  rows := [⟨"x1", ⟨1, 2⟩, [3, 2, 1, 0]⟩, ⟨"x4", ⟨-2, 1 / 2⟩, [1 / 2, -1, -4, 2]⟩]
  columns := [⟨"A0", none⟩, ⟨"A1", some ⟨1, 2⟩⟩, ⟨"A2", some ⟨0, -3⟩⟩, ⟨"A3", some ⟨1, 0⟩⟩]
  ratios := none
  index := NameIndex.ofNames 0 ["x1", "x4"]

/-- A solution of both equations. -/
def mixedSolution : Assignment := fun j => [0, 1, 1, 11 / 4][j]?.getD 0

theorem rectangular_mixed : mixed.Rectangular := by
  have hlengths : ∀ r ∈ mixed.rows, r.values.length = mixed.columns.length := by decide
  exact hlengths

theorem objectiveOf_mixed : ∃ t', mixed.pivot 1 2 = .ok t' ∧ t'.Holds mixedSolution ∧
    mixed.costAt mixedSolution = ⟨15 / 4, -1⟩ ∧ objectiveOf mixed.reducedCosts mixedSolution = ⟨15 / 4, -1⟩ ∧
    objectiveOf t'.reducedCosts mixedSolution = ⟨15 / 4, -1⟩ := by
  have hholds : mixed.Holds mixedSolution := by
    have hrows : ∀ r ∈ mixed.rows, weigh mixedSolution 1 r.values.tail = r.bound := by decide +kernel
    exact hrows
  have hcost : mixed.costAt mixedSolution = ⟨15 / 4, -1⟩ := by decide +kernel
  obtain ⟨t', hp, hsame, hobjective⟩ :=
    objectiveOf_of_pivot (i := 1) (j := 2) rectangular_mixed rfl (by decide +kernel)
  obtain ⟨hbefore, hafter⟩ := hobjective mixedSolution hholds
  exact ⟨t', hp, (hsame _).mpr hholds, hcost, hbefore ▸ hcost, hafter ▸ hcost⟩

/-! How a pivot changes the reduced costs. -/

/-- A pivot that is admissible divides its row by the pivot element and gives it to the variable of the column, at
its price. The reduced costs are computed from the exchanged costs and the new numbers; in every column, that of the
right-hand sides included, they are the old ones less the multiple of the new row that the reduced cost of the pivot
column tells. -/
theorem reducedCosts_of_pivot (hrect : t.Rectangular) (hadmits : t.Admits (.pivot i j)) :
    ∃ t' leaving entering, t.pivot i j = .ok t' ∧ t.rows[i]? = some leaving ∧ t'.rows[i]? = some entering ∧
      entering = ⟨variableName j, t.price j, leaving.values.map (· / leaving.entry j)⟩ ∧
      (∀ k, k < t'.columns.length → t'.reducedCosts[k]? =
        some (∑ l ∈ range t'.rows.length, t'.entry l k • t'.basicCost l - t'.price k)) ∧
      t'.reducedCosts =
        List.zipWith (fun c a => c - a • t.reducedCost j) t.reducedCosts entering.values := by
  obtain ⟨t', hp⟩ : ∃ t', t.pivot i j = .ok t' := exists_perform hadmits
  obtain ⟨leaving, hrow, hpos, hlt, hne, heq⟩ := pivot_eq_ok_iff.mp hp
  have hi := (List.getElem?_eq_some_iff.mp hrow).1
  have hentering : t'.rows[i]? = some ⟨variableName j, t.price j, leaving.normalized j⟩ := by
    rw [heq, getElem?_rows_exchange hi, if_pos rfl]
  refine ⟨t', leaving, _, hp, hrow, hentering, rfl, fun k hk => ?_, ?_⟩
  · rw [getElem?_reducedCosts, if_pos hk, reducedCost_eq_sum]
  · apply List.ext_getElem?
    intro k
    have hlength : (leaving.normalized j).length = t.columns.length := by
      rw [Row.normalized, List.length_map, hrect leaving (List.mem_of_getElem? hrow)]
    rw [List.getElem?_zipWith, getElem?_reducedCosts, getElem?_reducedCosts, columns_pivot hp]
    by_cases hk : k < t.columns.length
    · have hvalue : (leaving.normalized j)[k]? = some (t.entry i k / t.entry i j) := by
        have hsome := List.getElem?_eq_getElem (hlength.symm ▸ hk)
        rw [entry_of_getElem? hrow, entry_of_getElem? hrow, ← Row.getElem?_normalized, hsome, Option.getD_some]
      rw [if_pos hk, if_pos hk, hvalue, reducedCost_pivot hrect hp]
    · rw [if_neg hk, if_neg hk]

theorem reducedCosts_mixed : ∃ t' entering, mixed.pivot 1 2 = .ok t' ∧ t'.rows[1]? = some entering ∧
    entering.values = ([-1 / 8, 1 / 4, 1, -1 / 2] : List Rat) ∧ mixed.reducedCost 2 = ⟨9, 3⟩ ∧
    t'.reducedCosts =
      List.zipWith (fun c a => c - a • mixed.reducedCost 2) mixed.reducedCosts entering.values := by
  obtain ⟨t', leaving, entering, hp, hrow, hentering, heq, -, hcosts⟩ :=
    reducedCosts_of_pivot (i := 1) (j := 2) rectangular_mixed (by decide +kernel)
  have hvalues : mixed.rows[1]?.map (fun r => r.values.map (· / r.entry 2)) =
      some ([-1 / 8, 1 / 4, 1, -1 / 2] : List Rat) := by decide +kernel
  rw [hrow, Option.map_some, Option.some.injEq] at hvalues
  exact ⟨t', entering, hp, hentering, heq ▸ hvalues, by decide +kernel, hcosts⟩

end ExactSimplex.Tableau
