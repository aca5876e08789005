import ExactSimplex.Proofs.Cutting.CutRow

/-!
# Which cuts every integer solution satisfies

A cut is valid for its source row when no whole nonnegative solution of the row makes the variable of the
cut negative. The right-hand side of the row does not matter, since its fraction is less than one and the
variable of the cut is whole. A coefficient below minus one that is not whole does: what remains of it is
negative, and solutions that use its variable alone are lost.
-/

namespace ExactSimplex.Cut

open Finset

variable {coefficients : List Rat} {bound q : Rat} {x : Assignment} {v k : Nat}

/-- A whole nonnegative solution of the equation of a row. -/
structure IntegerSolution (coefficients : List Rat) (bound : Rat) (x : Assignment) : Prop where
  whole : ∀ j, 0 < j → j ≤ coefficients.length → IsWhole (x j)
  nonneg : Nonnegative coefficients.length x
  equation : weigh x 1 coefficients = bound

/-- What the new row leaves for its own variable, which comes last: the right-hand side less the other
coefficients times their variables. -/
def ownValue (c : Cut) (x : Assignment) : Rat := c.row[0]?.getD 0 - weigh x 1 c.row.tail.dropLast

/-- The row of an equation, without a basic variable. -/
def equationRow (coefficients : List Rat) (bound : Rat) : Row := ⟨"", 0, bound :: coefficients⟩

/-- The coefficient of variable `xj` stands in column `j`. -/
theorem entry_equationRow (hk : coefficients[k]? = some q) :
    (equationRow coefficients bound).entry (k + 1) = q := by
  rw [Row.entry, equationRow, List.getElem?_cons_succ, hk, Option.getD_some]

/-- The variable of a cut is left its surplus. -/
theorem ownValue_ofRow (v : Nat) (coefficients : List Rat) (bound : Rat) (x : Assignment) :
    (ofRow v (bound :: coefficients)).ownValue x = surplus (equationRow coefficients bound) x := by
  have hlength : coefficients.length + 1 = (equationRow coefficients bound).values.length := rfl
  have hterm : ∀ j ∈ Ico 1 (coefficients.length + 1),
      (coefficients.map fun q => -(q - wholePart q))[j - 1]?.getD 0 * x j =
        -(((equationRow coefficients bound).entry j -
          wholePart ((equationRow coefficients bound).entry j)) * x j) := by
    intro j hj
    obtain ⟨k, rfl⟩ := Nat.exists_eq_add_of_le' (mem_Ico.mp hj).1
    have hk : k < coefficients.length := Nat.lt_of_succ_lt_succ (mem_Ico.mp hj).2
    rw [entry_equationRow (List.getElem?_eq_getElem hk), Nat.add_sub_cancel, List.getElem?_map,
      List.getElem?_eq_getElem hk, Option.map_some, Option.getD_some, neg_mul]
  rw [ownValue, row_ofRow, List.map_cons, List.cons_append, List.tail_cons, List.dropLast_concat,
    weigh_eq_sum, List.length_map, Nat.add_comm 1, Finset.sum_congr rfl hterm, Finset.sum_neg_distrib,
    surplus, hlength]
  change -(bound - wholePart bound) - _ = _ - (bound - wholePart bound)
  ring

/-- An assignment satisfies the new row when it gives the variable of the cut what is left for it. -/
theorem holds_ofRow_iff_ownValue (v : Nat) :
    (ofRow v (bound :: coefficients)).Holds x ↔
      x (coefficients.length + 1) = (ofRow v (bound :: coefficients)).ownValue x := by
  rw [ownValue_ofRow]
  exact holds_ofRow_iff (r := equationRow coefficients bound) v (Nat.succ_pos _)

/-- Where no coefficient lies below minus one without being whole, the cut keeps every integer solution. -/
theorem IntegerSolution.ownValue_nonneg (h : IntegerSolution coefficients bound x)
    (hdown : ∀ q ∈ coefficients, -1 ≤ q ∨ IsWhole q) :
    0 ≤ (ofRow v (bound :: coefficients)).ownValue x := by
  rw [ownValue_ofRow]
  refine surplus_nonneg (fun j hpos hj => ?_) h.equation (fun j hpos hj => ?_) fun j hpos hj => ?_
  · obtain ⟨k, rfl⟩ := Nat.exists_eq_add_of_le' hpos
    have hget := List.getElem?_eq_getElem (Nat.lt_of_succ_lt_succ hj)
    rw [entry_equationRow hget]
    exact wholePart_le_iff.mpr (hdown _ (List.mem_of_getElem? hget))
  · exact h.whole j hpos (Nat.le_of_lt_succ hj)
  · exact h.nonneg j hpos (Nat.le_of_lt_succ hj)

/-! Solutions that use one variable. -/

/-- The assignment that gives one variable the value `n`, and zero to all others. -/
def only (j n : Nat) : Assignment := fun i => if i = j then n else 0

/-- A sum over the variables of a row has one term. -/
theorem sum_only (f : Nat → Rat) {j n m : Nat} (hpos : 0 < j) (hj : j < m) :
    ∑ i ∈ Ico 1 m, f i * only j n i = f j * n := by
  have hother : ∀ i ∈ Ico 1 m, i ≠ j → f i * only j n i = 0 := by
    intro i _ hi
    rw [only, if_neg hi, mul_zero]
  rw [Finset.sum_eq_single_of_mem j (mem_Ico.mpr ⟨hpos, hj⟩) hother, only, if_pos rfl]

/-- A multiple of the denominator of a coefficient, for its variable alone, solves a row with a whole
right-hand side. -/
theorem integerSolution_only (hk : coefficients[k]? = some q) :
    IntegerSolution coefficients (q * q.den) (only (k + 1) q.den) where
  whole := by
    intro j _ _
    rw [only]
    split
    · exact isWhole_iff.mpr ⟨q.den, rfl⟩
    · exact isWhole_zero
  nonneg := by
    intro j _ _
    rw [only]
    split
    · exact Nat.cast_nonneg _
    · exact le_rfl
  equation := by
    have hlt : k + 1 < (equationRow coefficients 0).values.length :=
      Nat.succ_lt_succ (List.getElem?_eq_some_iff.mp hk).1
    have hsum := Row.weigh_tail (equationRow coefficients 0) (only (k + 1) q.den)
    rw [sum_only _ (Nat.succ_pos k) hlt, entry_equationRow hk] at hsum
    exact hsum

/-- That solution leaves the variable of the cut a multiple of what remains of the coefficient. -/
theorem ownValue_only (hk : coefficients[k]? = some q) :
    (ofRow v (q * q.den :: coefficients)).ownValue (only (k + 1) q.den) = (q - wholePart q) * q.den := by
  have hlt : k + 1 < (equationRow coefficients (q * q.den)).values.length :=
    Nat.succ_lt_succ (List.getElem?_eq_some_iff.mp hk).1
  have hbound : IsWhole ((equationRow coefficients (q * q.den)).entry 0) :=
    isWhole_iff.mpr ⟨q.num, Rat.mul_den_eq_num q⟩
  rw [ownValue_ofRow, surplus, wholePart_of_isWhole hbound, sub_self, sub_zero,
    sum_only _ (Nat.succ_pos k) hlt, entry_equationRow hk]

/-- The cuts of a row keep every integer solution, for every right-hand side, exactly when no coefficient
lies below minus one without being whole. -/
theorem forall_ownValue_nonneg_iff (v : Nat) (coefficients : List Rat) :
    (∀ bound x, IntegerSolution coefficients bound x →
        0 ≤ (ofRow v (bound :: coefficients)).ownValue x) ↔
      ∀ q ∈ coefficients, -1 ≤ q ∨ IsWhole q := by
  constructor
  · intro hkeeps q hq
    obtain ⟨k, hk⟩ := List.mem_iff_getElem?.mp hq
    have hvalue := hkeeps _ _ (integerSolution_only hk)
    rw [ownValue_only hk] at hvalue
    have hden : (0 : Rat) < q.den := Nat.cast_pos.mpr q.den_pos
    exact wholePart_le_iff.mp (sub_nonneg.mp (nonneg_of_mul_nonneg_left hvalue hden))
  · intro hdown bound x hx
    exact hx.ownValue_nonneg hdown

/-- Not every integer solution satisfies the cut: of the row `x1 - 3/2 x2 = 1/2` the solution `(2, 1)` is
lost. -/
theorem exists_integerSolution_lost :
    ∃ x, IntegerSolution [1, -3 / 2] (1 / 2) x ∧ (ofRow 1 [1 / 2, 1, -3 / 2]).ownValue x = -1 := by
  let x : Assignment := fun j => if j = 1 then 2 else 1
  have hwhole : ∀ j, IsWhole (x j) := by
    intro j
    dsimp only [x]
    split <;> rfl
  have hnonneg : ∀ j, 0 ≤ x j := by
    intro j
    dsimp only [x]
    split <;> norm_num
  refine ⟨x, ⟨fun j _ _ => hwhole j, fun j _ _ => hnonneg j, ?_⟩, ?_⟩
  · norm_num [weigh, x]
  · decide +kernel

end ExactSimplex.Cut
