import ExactSimplex.Program.Basic
import ExactSimplex.Program.Meaning
import Mathlib.Algebra.BigOperators.GroupWithZero.Action
import Mathlib.Algebra.Module.LinearMap.Defs
import Mathlib.Tactic.Linarith
import Mathlib.Tactic.LinearCombination
import Mathlib.Tactic.NormNum

/-!
# The vector space of costs

Costs are added and scaled part by part, so they form a vector space over the rationals and both parts are
linear. The two directions of optimization differ by a sign only: multiplied by the sign of its direction,
a reduced cost that promises a better objective is negative, and a better objective value is larger.
-/

namespace ExactSimplex

namespace Cost

instance : AddCommGroup Cost where
  add_assoc _ _ _ := Cost.ext (add_assoc ..) (add_assoc ..)
  zero_add _ := Cost.ext (zero_add _) (zero_add _)
  add_zero _ := Cost.ext (add_zero _) (add_zero _)
  add_comm _ _ := Cost.ext (add_comm ..) (add_comm ..)
  sub_eq_add_neg _ _ := Cost.ext (sub_eq_add_neg ..) (sub_eq_add_neg ..)
  neg_add_cancel _ := Cost.ext (neg_add_cancel _) (neg_add_cancel _)
  nsmul := nsmulRec
  zsmul := zsmulRec

instance : Module Rat Cost where
  one_smul _ := Cost.ext (one_mul _) (one_mul _)
  mul_smul _ _ _ := Cost.ext (mul_assoc ..) (mul_assoc ..)
  smul_zero _ := Cost.ext (mul_zero _) (mul_zero _)
  smul_add _ _ _ := Cost.ext (mul_add ..) (mul_add ..)
  add_smul _ _ _ := Cost.ext (add_mul ..) (add_mul ..)
  zero_smul _ := Cost.ext (zero_mul _) (zero_mul _)

/-- The number of times `M` is contained, as a linear map. -/
def penaltyPart : Cost →ₗ[Rat] Rat where
  toFun := penalty
  map_add' _ _ := rfl
  map_smul' _ _ := rfl

/-- The part without `M`, as a linear map. -/
def finitePart : Cost →ₗ[Rat] Rat where
  toFun := finite
  map_add' _ _ := rfl
  map_smul' _ _ := rfl

@[simp] theorem penaltyPart_apply (a : Cost) : penaltyPart a = a.penalty := rfl

@[simp] theorem finitePart_apply (a : Cost) : finitePart a = a.finite := rfl

/-- A sum contains `M` as often as its terms together. -/
theorem penalty_sum {ι : Type} (s : Finset ι) (f : ι → Cost) :
    (∑ i ∈ s, f i).penalty = ∑ i ∈ s, (f i).penalty := map_sum penaltyPart f s

/-- The finite part of a sum is the sum of the finite parts. -/
theorem finite_sum {ι : Type} (s : Finset ι) (f : ι → Cost) :
    (∑ i ∈ s, f i).finite = ∑ i ∈ s, (f i).finite := map_sum finitePart f s

end Cost

namespace Sense

/-- The factor that turns minimizing into maximizing. -/
def sign : Sense → Rat
  | .maximize => 1
  | .minimize => -1

@[simp] theorem sign_mul_sign (s : Sense) : s.sign * s.sign = 1 := by
  cases s <;> norm_num [sign]

/-- Up to the sign, a cost that promises a better objective is negative. -/
theorem improving_iff (s : Sense) (c : Cost) :
    s.Improving c ↔ s.sign * c.penalty < 0 ∨ s.sign * c.penalty = 0 ∧ s.sign * c.finite < 0 := by
  cases s <;> simp [Improving, sign, Cost.IsNegative, Cost.IsPositive]

/-- Up to the sign, the better of two objective values is the larger one. -/
theorem better_iff (s : Sense) (a b : Rat) : s.Better a b ↔ s.sign * b < s.sign * a := by
  cases s <;> simp [Better, sign]

/-- Objective values of which neither is better are the same. -/
theorem eq_of_not_better {s : Sense} {a b : Rat} (hab : ¬ s.Better a b) (hba : ¬ s.Better b a) : a = b := by
  cases s with
  | maximize => exact le_antisymm (not_lt.mp hab) (not_lt.mp hba)
  | minimize => exact le_antisymm (not_lt.mp hba) (not_lt.mp hab)

@[simp] theorem penalty_artificialCost (s : Sense) : s.artificialCost.penalty = -s.sign := by
  cases s <;> simp [artificialCost, sign, Cost.large]

@[simp] theorem finite_artificialCost (s : Sense) : s.artificialCost.finite = 0 := by
  cases s <;> simp [artificialCost, Cost.large]

/-- A cost that does not promise a better objective has a penalty of the right sign. -/
theorem penalty_nonneg_of_not_improving {s : Sense} {c : Cost} (h : ¬ s.Improving c) :
    0 ≤ s.sign * c.penalty := by
  rw [improving_iff] at h
  push Not at h
  exact h.1

/-- A finite cost that does not promise a better objective has the right sign. -/
theorem finite_nonneg_of_not_improving {s : Sense} {c : Cost} (h : ¬ s.Improving c) (hc : c.penalty = 0) :
    0 ≤ s.sign * c.finite := by
  rw [improving_iff] at h
  push Not at h
  exact h.2 (by rw [hc, mul_zero])

/-- A cost that does not promise a better objective is not negative, up to the sign. -/
theorem not_improving_iff {s : Sense} {c : Cost} :
    ¬ s.Improving c ↔ 0 < s.sign * c.penalty ∨ s.sign * c.penalty = 0 ∧ 0 ≤ s.sign * c.finite := by
  rw [improving_iff, not_or, not_and, not_lt, not_lt]
  constructor
  · rintro ⟨hle, himp⟩
    rcases hle.lt_or_eq with hlt | heq
    · exact .inl hlt
    · exact .inr ⟨heq.symm, himp heq.symm⟩
  · rintro (hlt | ⟨heq, hle⟩)
    · exact ⟨hlt.le, fun h => absurd h hlt.ne'⟩
    · exact ⟨heq.ge, fun _ => hle⟩

/-- Costs that do not promise a better objective do not do so together. -/
theorem not_improving_add {s : Sense} {a b : Cost} (ha : ¬ s.Improving a) (hb : ¬ s.Improving b) :
    ¬ s.Improving (a + b) := by
  rw [not_improving_iff] at ha hb ⊢
  rw [Cost.penalty_add, Cost.finite_add, mul_add, mul_add]
  rcases ha with ha | ⟨ha, ha'⟩ <;> rcases hb with hb | ⟨hb, hb'⟩
  · exact .inl (add_pos ha hb)
  · exact .inl (by linarith)
  · exact .inl (by linarith)
  · exact .inr ⟨by linarith, by linarith⟩

/-- A nonnegative multiple of a cost that does not promise a better objective does not do so either. -/
theorem not_improving_smul {s : Sense} {k : Rat} {c : Cost} (hk : 0 ≤ k) (hc : ¬ s.Improving c) :
    ¬ s.Improving (k • c) := by
  rw [not_improving_iff] at hc ⊢
  rw [Cost.penalty_smul, Cost.finite_smul, mul_left_comm, mul_left_comm _ _ c.finite]
  rcases hk.lt_or_eq with hpos | rfl
  · rcases hc with hc | ⟨hc, hc'⟩
    · exact .inl (mul_pos hpos hc)
    · exact .inr ⟨by rw [hc, mul_zero], mul_nonneg hpos.le hc'⟩
  · exact .inr ⟨zero_mul _, (zero_mul _).ge⟩

theorem not_improving_zero (s : Sense) : ¬ s.Improving 0 :=
  not_improving_iff.mpr (.inr ⟨mul_zero _, (mul_zero _).ge⟩)

/-- Costs that do not promise a better objective do not do so as a sum. -/
theorem not_improving_sum {ι : Type} {s : Sense} {indices : Finset ι} {f : ι → Cost}
    (h : ∀ i ∈ indices, ¬ s.Improving (f i)) : ¬ s.Improving (∑ i ∈ indices, f i) :=
  Finset.sum_induction f (¬ s.Improving ·) (fun _ _ => not_improving_add) s.not_improving_zero h

/-- A cost and its negation do not both promise a better objective. -/
theorem Improving.not_neg {s : Sense} {c : Cost} (h : s.Improving c) : ¬ s.Improving (-c) := by
  rw [improving_iff] at h
  rw [not_improving_iff, Cost.penalty_neg, Cost.finite_neg, mul_neg, mul_neg]
  rcases h with h | ⟨h, h'⟩
  · exact .inl (neg_pos.mpr h)
  · exact .inr ⟨by rw [h, neg_zero], (neg_pos.mpr h').le⟩

/-- A positive multiple of a cost that promises a better objective does so, too. -/
theorem Improving.smul {s : Sense} {k : Rat} {c : Cost} (hk : 0 < k) (hc : s.Improving c) : s.Improving (k • c) := by
  by_contra hnot
  have hback := not_improving_smul (inv_pos.mpr hk).le hnot
  rw [smul_smul, inv_mul_cancel₀ hk.ne', one_smul] at hback
  exact hback hc

/-! The better of two objective values that may contain `M`. -/

/-- The first objective value is better than the second, in the order of the costs. -/
def Surpasses : Sense → Cost → Cost → Prop
  | .maximize, a, b => b < a
  | .minimize, a, b => a < b

instance (s : Sense) (a b : Cost) : Decidable (s.Surpasses a b) :=
  match s with
  | .maximize => inferInstanceAs (Decidable (b < a))
  | .minimize => inferInstanceAs (Decidable (a < b))

/-- An objective value is surpassed when the step up to it would improve it as a reduced cost. -/
theorem surpasses_iff (s : Sense) (a b : Cost) : s.Surpasses a b ↔ s.Improving (b - a) := by
  cases s with
  | maximize =>
    change (b.penalty < a.penalty ∨ b.penalty = a.penalty ∧ b.finite < a.finite) ↔
      (b.penalty - a.penalty < 0 ∨ b.penalty - a.penalty = 0 ∧ b.finite - a.finite < 0)
    rw [sub_neg, sub_eq_zero, sub_neg]
  | minimize =>
    change (a.penalty < b.penalty ∨ a.penalty = b.penalty ∧ a.finite < b.finite) ↔
      (0 < b.penalty - a.penalty ∨ b.penalty - a.penalty = 0 ∧ 0 < b.finite - a.finite)
    rw [sub_pos, sub_eq_zero, sub_pos, eq_comm]

/-- No objective value is better than itself. -/
theorem not_surpasses_self (s : Sense) (a : Cost) : ¬ s.Surpasses a a := by
  rw [surpasses_iff, sub_self]
  exact s.not_improving_zero

/-- A value that is not better than another one is not better than any that is at least as good as that. -/
theorem not_surpasses_trans {s : Sense} {a b c : Cost} (hab : ¬ s.Surpasses a b) (hbc : ¬ s.Surpasses b c) :
    ¬ s.Surpasses a c := by
  rw [surpasses_iff] at hab hbc ⊢
  have hadd := not_improving_add hbc hab
  rwa [sub_add_sub_cancel] at hadd

/-- What surpasses a value is surpassed by all that is at least as good. -/
theorem Surpasses.trans_not {s : Sense} {a b c : Cost} (hba : s.Surpasses b a) (hbc : ¬ s.Surpasses b c) :
    s.Surpasses c a := by
  by_contra hca
  exact not_surpasses_trans hbc hca hba

end Sense

end ExactSimplex
