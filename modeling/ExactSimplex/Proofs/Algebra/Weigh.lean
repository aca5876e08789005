import ExactSimplex.Program.Meaning
import Mathlib.Algebra.BigOperators.Intervals
import Mathlib.Algebra.Group.Action.Pi
import Mathlib.Algebra.Order.Ring.Rat
import Mathlib.Tactic.Ring

/-!
# Weighted sums

The sum of coefficients times values, which is computed along the list of coefficients, is a sum over the
variables they belong to. It depends on these variables only.
-/

namespace ExactSimplex

/-- The coefficient at place `j - k` belongs to variable `xj`. -/
theorem weigh_eq_sum (x : Assignment) (k : Nat) (as : List Rat) :
    weigh x k as = ∑ j ∈ Finset.Ico k (k + as.length), as[j - k]?.getD 0 * x j := by
  rw [Finset.sum_Ico_eq_sum_range, Nat.add_sub_cancel_left]
  induction as generalizing k with
  | nil => simp [weigh]
  | cons a as ih =>
    rw [weigh, ih, List.length_cons, Finset.sum_range_succ', add_comm]
    congr 1
    · apply Finset.sum_congr rfl
      intro i _
      rw [show k + 1 + i - (k + 1) = i by omega, show k + (i + 1) - k = i + 1 by omega,
        List.getElem?_cons_succ, Nat.add_right_comm, Nat.add_assoc]
    · simp

/-- Only the values of the variables with a coefficient count. -/
theorem weigh_congr {x y : Assignment} {k : Nat} {as : List Rat}
    (h : ∀ j, k ≤ j → j < k + as.length → x j = y j) : weigh x k as = weigh y k as := by
  rw [weigh_eq_sum, weigh_eq_sum]
  apply Finset.sum_congr rfl
  intro j hj
  obtain ⟨hle, hlt⟩ := Finset.mem_Ico.mp hj
  rw [h j hle hlt]

/-- The sum is additive in the values. -/
theorem weigh_add (x y : Assignment) (k : Nat) (as : List Rat) :
    weigh (x + y) k as = weigh x k as + weigh y k as := by
  induction as generalizing k with
  | nil => simp [weigh]
  | cons a as ih =>
    rw [weigh, weigh, weigh, ih, Pi.add_apply]
    ring

/-- A multiple of the values gives the multiple of the sum. -/
theorem weigh_smul (s : Rat) (x : Assignment) (k : Nat) (as : List Rat) :
    weigh (s • x) k as = s * weigh x k as := by
  induction as generalizing k with
  | nil => simp [weigh]
  | cons a as ih =>
    rw [weigh, weigh, ih, Pi.smul_apply, smul_eq_mul]
    ring

/-- Multiplying all coefficients multiplies the sum. -/
theorem weigh_map_mul (x : Assignment) (s : Rat) (k : Nat) (as : List Rat) :
    weigh x k (as.map (s * ·)) = s * weigh x k as := by
  induction as generalizing k with
  | nil => simp [weigh]
  | cons a as ih =>
    rw [List.map_cons, weigh, weigh, ih]
    ring

/-- Negating all coefficients negates the sum. -/
theorem weigh_map_neg (x : Assignment) (k : Nat) (as : List Rat) :
    weigh x k (as.map (- ·)) = -weigh x k as := by
  induction as generalizing k with
  | nil => simp [weigh]
  | cons a as ih =>
    rw [List.map_cons, weigh, weigh, ih]
    ring

end ExactSimplex
