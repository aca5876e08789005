import ExactSimplex.Number.Rounding
import ExactSimplex.Proofs.Algebra.Weigh
import Mathlib.Tactic.Linarith

/-!
# Whole numbers

Sums, differences and products of whole numbers are whole. What remains of a number that is not negative
above its truncation lies between zero and one, and a whole number above minus one is not negative.
-/

namespace ExactSimplex

variable {a b q : Rat}

/-- The whole numbers are the integers among the rationals. -/
theorem isWhole_iff : IsWhole q ↔ ∃ z : Int, q = z := by
  constructor
  · intro h
    exact ⟨q.num, ((Rat.den_eq_one_iff q).mp h).symm⟩
  · rintro ⟨z, rfl⟩
    exact Rat.den_intCast z

@[simp] theorem isWhole_intCast (z : Int) : IsWhole z := isWhole_iff.mpr ⟨z, rfl⟩

@[simp] theorem isWhole_zero : IsWhole 0 := rfl

theorem IsWhole.add (ha : IsWhole a) (hb : IsWhole b) : IsWhole (a + b) := by
  obtain ⟨y, rfl⟩ := isWhole_iff.mp ha
  obtain ⟨z, rfl⟩ := isWhole_iff.mp hb
  exact isWhole_iff.mpr ⟨y + z, by push_cast; rfl⟩

theorem IsWhole.neg (ha : IsWhole a) : IsWhole (-a) := by
  obtain ⟨y, rfl⟩ := isWhole_iff.mp ha
  exact isWhole_iff.mpr ⟨-y, by push_cast; rfl⟩

theorem IsWhole.sub (ha : IsWhole a) (hb : IsWhole b) : IsWhole (a - b) := by
  rw [sub_eq_add_neg]
  exact ha.add hb.neg

theorem IsWhole.mul (ha : IsWhole a) (hb : IsWhole b) : IsWhole (a * b) := by
  obtain ⟨y, rfl⟩ := isWhole_iff.mp ha
  obtain ⟨z, rfl⟩ := isWhole_iff.mp hb
  exact isWhole_iff.mpr ⟨y * z, by push_cast; rfl⟩

/-- A sum of whole numbers is whole. -/
theorem isWhole_sum {ι : Type} {s : Finset ι} {f : ι → Rat} (h : ∀ i ∈ s, IsWhole (f i)) :
    IsWhole (∑ i ∈ s, f i) :=
  Finset.sum_induction f IsWhole (fun _ _ => IsWhole.add) isWhole_zero h

/-- Whole multiples of whole values make a whole sum. -/
theorem isWhole_weigh {x : Assignment} {k : Nat} {as : List Rat}
    (hx : ∀ j, k ≤ j → j < k + as.length → IsWhole (x j)) (has : ∀ a ∈ as, IsWhole a) :
    IsWhole (weigh x k as) := by
  rw [weigh_eq_sum]
  apply isWhole_sum
  intro j hj
  obtain ⟨hle, hlt⟩ := Finset.mem_Ico.mp hj
  have hcoefficient : IsWhole (as[j - k]?.getD 0) := by
    rw [List.getElem?_eq_getElem (by omega)]
    exact has _ (List.getElem_mem _)
  exact hcoefficient.mul (hx j hle hlt)

/-- A whole number above minus one is not negative. -/
theorem IsWhole.nonneg (h : IsWhole q) (hq : -1 < q) : 0 ≤ q := by
  obtain ⟨z, rfl⟩ := isWhole_iff.mp h
  have hz : (-1 : Int) < z := by exact_mod_cast hq
  exact_mod_cast Int.lt_iff_add_one_le.mp hz

/-! What remains above the truncation. -/

/-- A number that is not negative is truncated to the whole number below it. -/
theorem truncate_of_nonneg (h : 0 ≤ q) : truncate q = q.floor := by
  rw [truncate, Rat.floor_def, Int.tdiv_eq_ediv_of_nonneg (Rat.num_nonneg.mpr h)]

theorem sub_truncate_nonneg (h : 0 ≤ q) : 0 ≤ q - truncate q := by
  rw [truncate_of_nonneg h]
  exact sub_nonneg.mpr (Rat.floor_le q)

theorem sub_truncate_lt_one (h : 0 ≤ q) : q - truncate q < 1 := by
  rw [truncate_of_nonneg h]
  have hlt := Rat.lt_floor_add_one q
  push_cast at hlt
  linarith

/-- A number that is not negative and has no fraction is whole. -/
theorem isWhole_of_sub_truncate_nonpos (h : 0 ≤ q) (hq : q - truncate q ≤ 0) : IsWhole q := by
  have hzero := le_antisymm hq (sub_truncate_nonneg h)
  exact isWhole_iff.mpr ⟨truncate q, sub_eq_zero.mp hzero⟩

end ExactSimplex
