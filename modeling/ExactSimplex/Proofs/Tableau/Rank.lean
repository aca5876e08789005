import ExactSimplex.Proofs.Tableau.Equations
import Mathlib.LinearAlgebra.Matrix.Rank

/-!
# The rank of the equations

The equations of a tableau, and the constraints of a program read as equations, are linear systems over the
same variables. The rows of a well-formed tableau are linearly independent, since every row has a unit column.
Systems with the same solutions, if there is one, have the same rank.
-/

namespace ExactSimplex

open Finset Matrix

variable {m n k : Nat}

/-! Linear systems. -/

/-- The values of the variables from `x1` to `xn`. -/
def firstValues (n : Nat) (x : Assignment) : Fin n → Rat := fun j => x (j + 1)

/-- The assignment of given values to the first variables. -/
def ofFirstValues (y : Fin n → Rat) : Assignment := fun j => if h : j - 1 < n then y ⟨j - 1, h⟩ else 0

@[simp] theorem firstValues_ofFirstValues (y : Fin n → Rat) : firstValues n (ofFirstValues y) = y := by
  funext j
  have hj : (j : Nat) + 1 - 1 < n := j.isLt
  rw [firstValues, ofFirstValues, dif_pos hj]
  rfl

/-- A weighted sum is the product of the vectors of its coefficients and values. -/
theorem weigh_eq_dotProduct {as : List Rat} (hlength : as.length = n) (x : Assignment) :
    weigh x 1 as = (fun j : Fin n => as[(j : Nat)]?.getD 0) ⬝ᵥ firstValues n x := by
  subst hlength
  rw [weigh_eq_sum, Finset.sum_Ico_eq_sum_range, Nat.add_sub_cancel_left, dotProduct, Finset.sum_range]
  refine Finset.sum_congr rfl fun j _ => ?_
  rw [Nat.add_sub_cancel_left, firstValues, Nat.add_comm 1]

/-- Systems with the same solutions, of which there is one, have the same rank. -/
theorem rank_eq_of_mulVec_eq_iff {A : Matrix (Fin m) (Fin n) Rat} {B : Matrix (Fin k) (Fin n) Rat}
    {a : Fin m → Rat} {b : Fin k → Rat} {y₀ : Fin n → Rat} (h : ∀ y, A *ᵥ y = a ↔ B *ᵥ y = b)
    (hy₀ : A *ᵥ y₀ = a) : A.rank = B.rank := by
  have hker : LinearMap.ker A.mulVecLin = LinearMap.ker B.mulVecLin := by
    ext y
    -- A vector of the kernel leads from one solution to another.
    have hshift := h (y₀ + y)
    rw [mulVec_add, mulVec_add, hy₀, (h y₀).mp hy₀, add_eq_left, add_eq_left] at hshift
    exact hshift
  have hA := A.mulVecLin.finrank_range_add_finrank_ker
  have hB := B.mulVecLin.finrank_range_add_finrank_ker
  rw [hker] at hA
  exact Nat.add_right_cancel (hA.trans hB.symm)

/-! The constraints of a program. -/

namespace Program

/-- The coefficients of all constraints. -/
def coefficients (q : Program) : Matrix (Fin q.constraints.length) (Fin q.variableCount) Rat :=
  Matrix.of fun i j => q.constraints[i].coefficients[(j : Nat)]?.getD 0

/-- The right-hand sides of all constraints. -/
def bounds (q : Program) : Fin q.constraints.length → Rat := fun i => q.constraints[i].bound

/-- The constraints, read as equations, are the system of their coefficients and right-hand sides. -/
theorem tight_iff_mulVec {q : Program} (hlength : ∀ c ∈ q.constraints, c.coefficients.length = q.variableCount)
    (x : Assignment) :
    q.Tight x ↔ q.coefficients *ᵥ firstValues q.variableCount x = q.bounds := by
  rw [Tight, List.forall_mem_iff_getElem, funext_iff, Fin.forall_iff]
  refine forall₂_congr fun i hi => ?_
  rw [Constraint.Tight, Constraint.left, weigh_eq_dotProduct (hlength _ (List.getElem_mem hi))]
  rfl

end Program

/-! The rows of a tableau. -/

namespace Tableau

variable {t : Tableau} {q : Program}

/-- The entries in the columns of the first `n` variables. -/
def coefficients (t : Tableau) (n : Nat) : Matrix (Fin t.rows.length) (Fin n) Rat :=
  Matrix.of fun i j => t.entry i (j + 1)

/-- The right-hand sides of all rows. -/
def bounds (t : Tableau) : Fin t.rows.length → Rat := fun i => t.entry i 0

/-- The rows are the system of their entries and right-hand sides. -/
theorem holds_iff_mulVec (hrect : t.Rectangular) (hcolumns : t.columns.length = n + 1) (x : Assignment) :
    t.Holds x ↔ t.coefficients n *ᵥ firstValues n x = t.bounds := by
  rw [Holds, List.forall_mem_iff_getElem, funext_iff, Fin.forall_iff]
  refine forall₂_congr fun i hi => ?_
  have hlength : t.rows[i].values.tail.length = n := by
    rw [List.length_tail, hrect _ (List.getElem_mem hi), hcolumns, Nat.add_sub_cancel]
  have hentry : ∀ j, t.entry i j = t.rows[i].entry j := fun j =>
    entry_of_getElem? (List.getElem?_eq_getElem hi)
  rw [Row.Holds, weigh_eq_dotProduct hlength]
  simp only [mulVec, coefficients, bounds, of_apply, hentry, List.getElem?_tail]
  rfl

/-- The rows of a well-formed tableau are linearly independent. -/
theorem WellFormed.linearIndependent_row (h : t.WellFormed) (hcolumns : t.columns.length = n + 1) :
    LinearIndependent Rat (t.coefficients n).row := by
  rw [Fintype.linearIndependent_iff]
  intro g hg i
  obtain ⟨j, hj⟩ := h.basic i i.isLt
  obtain ⟨l, rfl⟩ := Nat.exists_eq_add_of_le' hj.pos
  have hl : l < n := Nat.lt_of_succ_lt_succ (hj.lt.trans_eq hcolumns)
  -- In the column of its basic variable the combination is the multiple of row `i` alone.
  have hcolumn := congrFun hg ⟨l, hl⟩
  rw [Finset.sum_apply, Finset.sum_eq_single_of_mem i (mem_univ i)] at hcolumn
  · simpa [coefficients, row, hj.entry_self] using hcolumn
  · intro k _ hk
    simp [coefficients, row, hj.entry_other k k.isLt (Fin.val_ne_of_ne hk)]

/-- A well-formed tableau with the solutions of a program has as many rows as the rank of its constraints. -/
theorem WellFormed.length_rows_eq_rank (h : t.WellFormed) (hcolumns : t.columns.length = q.variableCount + 1)
    (hlength : ∀ c ∈ q.constraints, c.coefficients.length = q.variableCount)
    (hiff : ∀ x, t.Holds x ↔ q.Tight x) : t.rows.length = q.coefficients.rank := by
  have hsolutions : ∀ y, t.coefficients q.variableCount *ᵥ y = t.bounds ↔
      q.coefficients *ᵥ y = q.bounds := by
    intro y
    have hy := hiff (ofFirstValues y)
    rwa [holds_iff_mulVec h.rectangular hcolumns, Program.tight_iff_mulVec hlength, firstValues_ofFirstValues] at hy
  have hsolution := (holds_iff_mulVec h.rectangular hcolumns _).mp h.holds_variableValue
  rw [← rank_eq_of_mulVec_eq_iff hsolutions hsolution, (h.linearIndependent_row hcolumns).rank_matrix,
    Fintype.card_fin]

end Tableau

end ExactSimplex
