import ExactSimplex.Proofs.Algebra.Cost
import Mathlib.Tactic.FieldSimp

/-!
# Rescaled objectives

To multiply an objective by a positive factor changes nothing in what is best; a negative factor turns
maximizing into minimizing. The multiples of `M` count against the direction in both cases, so they keep their
size and only follow the direction.
-/

namespace ExactSimplex

variable {k : Rat}

/-- The sign of a factor that is not zero. -/
def factorSign (k : Rat) : Rat := if 0 < k then 1 else -1

@[simp] theorem factorSign_mul_self (k : Rat) : factorSign k * factorSign k = 1 := by
  unfold factorSign
  split <;> norm_num

theorem factorSign_mul (k : Rat) : factorSign k * k = k.abs := by
  unfold factorSign
  split
  · rename_i hpos
    rw [one_mul, Rat.abs_of_nonneg hpos.le]
  · rename_i hneg
    rw [neg_one_mul, Rat.abs_of_nonpos (not_lt.mp hneg)]

theorem abs_pos_of_ne_zero (hk : k ≠ 0) : 0 < k.abs := by
  rcases lt_or_gt_of_ne hk with hneg | hpos
  · rw [Rat.abs_of_nonpos hneg.le]
    exact neg_pos.mpr hneg
  · rwa [Rat.abs_of_nonneg hpos.le]

theorem abs_mul_eq (k q : Rat) : (k * q).abs = k.abs * q.abs := by
  rcases le_total 0 k with hk | hk <;> rcases le_total 0 q with hq | hq
  · rw [Rat.abs_of_nonneg hk, Rat.abs_of_nonneg hq, Rat.abs_of_nonneg (mul_nonneg hk hq)]
  · rw [Rat.abs_of_nonneg hk, Rat.abs_of_nonpos hq, Rat.abs_of_nonpos (mul_nonpos_of_nonneg_of_nonpos hk hq), mul_neg]
  · rw [Rat.abs_of_nonpos hk, Rat.abs_of_nonneg hq, Rat.abs_of_nonpos (mul_nonpos_of_nonpos_of_nonneg hk hq), neg_mul]
  · rw [Rat.abs_of_nonpos hk, Rat.abs_of_nonpos hq, Rat.abs_of_nonneg (mul_nonneg_of_nonpos_of_nonpos hk hq), neg_mul_neg]

/-! Costs. -/

/-- The cost with its finite part multiplied by a factor and its penalty by the sign of the factor. -/
def Cost.rescale (k : Rat) : Cost →ₗ[Rat] Cost where
  toFun c := ⟨factorSign k * c.penalty, k * c.finite⟩
  map_add' _ _ := Cost.ext (mul_add ..) (mul_add ..)
  map_smul' _ _ := Cost.ext (mul_left_comm ..) (mul_left_comm ..)

namespace Cost

@[simp] theorem penalty_rescale (k : Rat) (c : Cost) : (rescale k c).penalty = factorSign k * c.penalty := rfl

@[simp] theorem finite_rescale (k : Rat) (c : Cost) : (rescale k c).finite = k * c.finite := rfl

theorem rescale_ofRat (k q : Rat) : rescale k (ofRat q) = ofRat (k * q) :=
  Cost.ext (mul_zero _) rfl

@[simp] theorem isFinite_rescale {c : Cost} : (rescale k c).IsFinite ↔ c.IsFinite := by
  have hsign : factorSign k ≠ 0 := by
    unfold factorSign
    split <;> norm_num
  rw [IsFinite, penalty_rescale, mul_eq_zero_iff_left hsign, IsFinite]

end Cost

/-! Directions. -/

namespace Sense

/-- The direction that a factor turns a direction into. -/
def rescale (k : Rat) (s : Sense) : Sense :=
  if 0 < k then s
  else
    match s with
    | .maximize => .minimize
    | .minimize => .maximize

theorem sign_rescale (k : Rat) (s : Sense) : (s.rescale k).sign = factorSign k * s.sign := by
  unfold rescale factorSign
  split
  · rw [one_mul]
  · cases s <;> norm_num [sign]

theorem artificialCost_rescale (k : Rat) (s : Sense) :
    (s.rescale k).artificialCost = Cost.rescale k s.artificialCost := by
  apply Cost.ext
  · rw [penalty_artificialCost, Cost.penalty_rescale, penalty_artificialCost, sign_rescale, mul_neg]
  · rw [finite_artificialCost, Cost.finite_rescale, finite_artificialCost, mul_zero]

/-- A reduced cost promises a better objective exactly when it does so rescaled. -/
theorem improving_rescale (hk : k ≠ 0) (s : Sense) (c : Cost) :
    (s.rescale k).Improving (Cost.rescale k c) ↔ s.Improving c := by
  have hpenalty : (s.rescale k).sign * (Cost.rescale k c).penalty = s.sign * c.penalty := by
    rw [sign_rescale, Cost.penalty_rescale, mul_mul_mul_comm, factorSign_mul_self, one_mul]
  have hfinite : (s.rescale k).sign * (Cost.rescale k c).finite = k.abs * (s.sign * c.finite) := by
    rw [sign_rescale, Cost.finite_rescale, mul_mul_mul_comm, factorSign_mul]
  have hneg : k.abs * (s.sign * c.finite) < 0 ↔ s.sign * c.finite < 0 :=
    smul_neg_iff_of_pos_left (abs_pos_of_ne_zero hk)
  rw [improving_iff, improving_iff, hpenalty, hfinite, hneg]

end Sense

end ExactSimplex
