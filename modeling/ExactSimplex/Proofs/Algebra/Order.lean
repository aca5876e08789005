import ExactSimplex.Proofs.Algebra.LargeNumber
import Mathlib.Algebra.Order.Group.Basic
import Mathlib.Algebra.Order.Module.Basic
import Mathlib.Data.Prod.Lex

/-!
# The order of costs

Costs are compared as pairs are, and a cost has the sign of the first of its parts that is not zero. That is what
becomes of both when a large number is put for `M`, so the comparison, the two tests of signs and the arithmetic fit
together: costs form an ordered vector space, in which the sign of a difference tells the order.
-/

namespace ExactSimplex

open Filter

namespace Cost

variable {a b : Cost}

/-- The parts of a cost, in the order in which they are compared. -/
def key (a : Cost) : Rat ×ₗ Rat := toLex (a.penalty, a.finite)

theorem key_injective : Function.Injective key := by
  intro a b h
  have hparts : (a.penalty, a.finite) = (b.penalty, b.finite) := h
  exact Cost.ext (congrArg Prod.fst hparts) (congrArg Prod.snd hparts)

theorem key_lt_key : key a < key b ↔ a < b := Prod.Lex.toLex_lt_toLex

theorem key_le_key : key a ≤ key b ↔ a ≤ b := Prod.Lex.toLex_le_toLex

instance : LinearOrder Cost where
  le_refl a := key_le_key.mp le_rfl
  le_trans a b c hab hbc := key_le_key.mp ((key_le_key.mpr hab).trans (key_le_key.mpr hbc))
  le_antisymm a b hab hba := key_injective (le_antisymm (key_le_key.mpr hab) (key_le_key.mpr hba))
  le_total a b := (le_total (key a) (key b)).imp key_le_key.mp key_le_key.mp
  lt_iff_le_not_ge a b := by rw [← key_lt_key, ← key_le_key, ← key_le_key, lt_iff_le_not_ge]
  toDecidableLE := inferInstance
  toDecidableLT := inferInstance
  toDecidableEq := inferInstance

instance : IsOrderedAddMonoid Cost where
  add_le_add_left a b hab c := by
    rcases hab with hlt | ⟨heq, hle⟩
    · exact .inl (add_lt_add_left hlt c.penalty)
    · exact .inr ⟨congrArg (· + c.penalty) heq, add_le_add_left hle c.finite⟩

instance : PosSMulStrictMono Rat Cost where
  smul_lt_smul_of_pos_left k hk a b hab := by
    rcases hab with hlt | ⟨heq, hlt⟩
    · exact .inl (mul_lt_mul_of_pos_left hlt hk)
    · exact .inr ⟨congrArg (k * ·) heq, mul_lt_mul_of_pos_left hlt hk⟩

/-! Signs. -/

/-- The test of negative costs compares with zero. -/
theorem isNegative_iff : a.IsNegative ↔ a < 0 := Iff.rfl

/-- The test of positive costs compares with zero. -/
theorem isPositive_iff : a.IsPositive ↔ 0 < a := or_congr_right (and_congr_left' eq_comm)

/-- The smaller of two costs makes the difference negative. -/
theorem isNegative_sub_iff : (a - b).IsNegative ↔ a < b := isNegative_iff.trans sub_neg

/-- The larger of two costs makes the difference positive. -/
theorem isPositive_sub_iff : (a - b).IsPositive ↔ b < a := isPositive_iff.trans sub_pos

/-- Exactly one of the three tests succeeds. -/
theorem sign_cases (a : Cost) : (a.IsNegative ∧ a ≠ 0 ∧ ¬ a.IsPositive) ∨
    (¬ a.IsNegative ∧ a = 0 ∧ ¬ a.IsPositive) ∨ (¬ a.IsNegative ∧ a ≠ 0 ∧ a.IsPositive) := by
  rw [isNegative_iff, isPositive_iff]
  rcases lt_trichotomy a 0 with hlt | heq | hgt
  · exact .inl ⟨hlt, hlt.ne, hlt.not_gt⟩
  · exact .inr (.inl ⟨heq.not_lt, heq, heq.not_gt⟩)
  · exact .inr (.inr ⟨hgt.not_gt, hgt.ne', hgt⟩)

/-! Large numbers. -/

/-- From some number on, costs are compared like the numbers that they become. -/
theorem eventually_valueAt_lt_iff (a b : Cost) : ∀ᶠ m in atTop, (valueAt m a < valueAt m b ↔ a < b) := by
  filter_upwards [Sense.maximize.eventually_steeper_valueAt (a - b)] with m hm
  rwa [map_sub, Sense.steeper_sub_iff, Sense.Improving, isNegative_sub_iff] at hm

/-- A cost is smaller when its number is smaller beyond some bound. -/
theorem lt_iff_exists_bound : a < b ↔ ∃ bound, ∀ m, bound < m → valueAt m a < valueAt m b := by
  have heventually := eventually_valueAt_lt_iff a b
  constructor
  · intro hlt
    obtain ⟨bound, hbound⟩ := eventually_atTop.mp heventually
    exact ⟨bound, fun m hm => (hbound m hm.le).mpr hlt⟩
  · rintro ⟨bound, hbound⟩
    obtain ⟨m, hm, hgt⟩ := (heventually.and (eventually_gt_atTop bound)).exists
    exact hm.mp (hbound m hgt)

/-- The order of costs is that of large numbers. One cost is smaller than another exactly when their difference has
the sign that says so, taken either way, and exactly when its number is the smaller one beyond some bound for `M`.
Of the three tests of signs exactly one succeeds. The order is total, and is kept when the same cost is added on both
sides or both sides are multiplied by a positive number; a negative factor reverses it. -/
theorem lt_like_large_numbers (a b c : Cost) (k : Rat) :
    (a < b ↔ (a - b).IsNegative) ∧ (a < b ↔ (b - a).IsPositive) ∧
    (a < b ↔ ∃ bound, ∀ m, bound < m → valueAt m a < valueAt m b) ∧
    ((a.IsNegative ∧ a ≠ 0 ∧ ¬ a.IsPositive) ∨ (¬ a.IsNegative ∧ a = 0 ∧ ¬ a.IsPositive) ∨
      (¬ a.IsNegative ∧ a ≠ 0 ∧ a.IsPositive)) ∧
    (a ≤ b ↔ a < b ∨ a = b) ∧ (a < b ∨ a = b ∨ b < a) ∧ ¬ a < a ∧ (a < b → b < c → a < c) ∧
    (a + c < b + c ↔ a < b) ∧ (c + a < c + b ↔ a < b) ∧
    (0 < k → (k • a < k • b ↔ a < b)) ∧ (k < 0 → (k • a < k • b ↔ b < a)) :=
  ⟨isNegative_sub_iff.symm, isPositive_sub_iff.symm, lt_iff_exists_bound, sign_cases a, le_iff_lt_or_eq,
    lt_trichotomy a b, lt_irrefl a, lt_trans, add_lt_add_iff_right c, add_lt_add_iff_left c,
    smul_lt_smul_iff_of_pos_left, smul_lt_smul_iff_of_neg_left⟩

theorem lt_reversed : (⟨-1 / 2, 100⟩ : Cost) < ⟨0, -3⟩ ∧ (⟨0, -3⟩ : Cost) < ⟨1, -11⟩ ∧
    (⟨-1 / 2, 100⟩ : Cost) < ⟨1, -11⟩ ∧ (-2 : Rat) • (⟨1, -11⟩ : Cost) < (-2 : Rat) • (⟨0, -3⟩ : Cost) ∧
    ∃ bound, ∀ m, bound < m → valueAt m ⟨-1 / 2, 100⟩ < valueAt m ⟨0, -3⟩ := by
  have hlow : (⟨-1 / 2, 100⟩ : Cost) < ⟨0, -3⟩ := by decide +kernel
  have hhigh : (⟨0, -3⟩ : Cost) < ⟨1, -11⟩ := by decide +kernel
  obtain ⟨-, -, hbound, -, -, -, -, htrans, -⟩ := lt_like_large_numbers ⟨-1 / 2, 100⟩ ⟨0, -3⟩ ⟨1, -11⟩ 1
  obtain ⟨-, -, -, -, -, -, -, -, -, -, -, hreverse⟩ := lt_like_large_numbers ⟨1, -11⟩ ⟨0, -3⟩ 0 (-2)
  exact ⟨hlow, hhigh, htrans hlow hhigh, (hreverse (by decide)).mpr hhigh, hbound.mp hlow⟩

end Cost

end ExactSimplex
