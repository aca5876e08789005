import ExactSimplex.Proofs.Algebra.Cost
import Mathlib.Algebra.Module.LinearMap.Basic
import Mathlib.Order.Filter.AtTopBot.Basic
import Mathlib.Order.Filter.Finite
import Mathlib.Tactic.Ring

/-!
# Costs with a number for the large constant

When a number is put for `M`, a cost becomes a number, and sums and multiples of costs become those of the
numbers. A cost that promises a better objective does so in numbers from some number on, and one that does
not, does not.
-/

namespace ExactSimplex

open Filter

/-- The number that a cost becomes when `m` is put for `M`, as a linear map. -/
def Cost.valueAt (m : Rat) : Cost →ₗ[Rat] Rat where
  toFun c := m * c.penalty + c.finite
  map_add' a b := by
    rw [penalty_add, finite_add]
    ring
  map_smul' q c := by
    rw [penalty_smul, finite_smul, RingHom.id_apply, smul_eq_mul]
    ring

theorem Cost.valueAt_apply (m : Rat) (c : Cost) : valueAt m c = m * c.penalty + c.finite := rfl

@[simp] theorem Cost.valueAt_ofRat (m q : Rat) : valueAt m (ofRat q) = q := by
  rw [valueAt_apply, penalty_ofRat, finite_ofRat, mul_zero, zero_add]

namespace Sense

/-- As a reduced cost the first number improves the objective more than the second. -/
def Steeper : Sense → Rat → Rat → Prop
  | .maximize, a, b => a < b
  | .minimize, a, b => b < a

instance (s : Sense) (a b : Rat) : Decidable (s.Steeper a b) :=
  match s with
  | .maximize => inferInstanceAs (Decidable (a < b))
  | .minimize => inferInstanceAs (Decidable (b < a))

/-- Up to the sign, the steeper of two numbers is the smaller one. -/
theorem steeper_iff (s : Sense) (a b : Rat) : s.Steeper a b ↔ s.sign * a < s.sign * b := by
  cases s <;> simp [Steeper, sign]

/-- Which number is steeper is told by their difference. -/
theorem steeper_sub_iff (s : Sense) (a b : Rat) : s.Steeper (a - b) 0 ↔ s.Steeper a b := by
  rw [steeper_iff, steeper_iff, mul_sub, mul_zero, sub_neg]

/-- From some number on, a cost promises a better objective in numbers exactly when it does so itself. -/
theorem eventually_steeper_valueAt (s : Sense) (c : Cost) :
    ∀ᶠ m in atTop, (s.Steeper (Cost.valueAt m c) 0 ↔ s.Improving c) := by
  have hvalue : ∀ m, s.sign * Cost.valueAt m c = m * (s.sign * c.penalty) + s.sign * c.finite := by
    intro m
    rw [Cost.valueAt_apply]
    ring
  simp only [steeper_iff, hvalue, improving_iff, mul_zero]
  rcases lt_trichotomy (s.sign * c.penalty) 0 with hneg | hzero | hpos
  · filter_upwards [eventually_gt_atTop (s.sign * c.finite / -(s.sign * c.penalty))] with m hm
    rw [div_lt_iff₀ (neg_pos.mpr hneg)] at hm
    exact iff_of_true (by linarith) (.inl hneg)
  · filter_upwards with m
    rw [hzero, mul_zero, zero_add]
    simp
  · filter_upwards [eventually_gt_atTop (-(s.sign * c.finite) / (s.sign * c.penalty))] with m hm
    rw [div_lt_iff₀ hpos] at hm
    refine iff_of_false (by linarith) ?_
    rintro (hneg | ⟨hzero, -⟩)
    · exact lt_asymm hneg hpos
    · exact hpos.ne' hzero

end Sense

end ExactSimplex
