import ExactSimplex.Cutting.Cut
import ExactSimplex.Proofs.Algebra.Whole
import ExactSimplex.Proofs.Tableau.Equations

/-!
# What a cut says

The new row makes its own variable the fractions of the source row times the variables, less the fraction of
the right-hand side. On whole solutions of the source row this is a whole number above minus one, if no
number was split into a whole part above it. That happens to numbers below minus one that are not whole: for
them the whole part is minus one too.
-/

namespace ExactSimplex

open Finset

variable {q : Rat} {r : Row} {x : Assignment} {v j n : Nat}

/-! Whole parts. -/

/-- The whole part is whole. -/
theorem isWhole_wholePart (q : Rat) : IsWhole (wholePart q) := by
  unfold wholePart
  split
  · exact isWhole_iff.mpr ⟨-1, by norm_num⟩
  · exact isWhole_intCast _

/-- A whole number is its own whole part. -/
theorem wholePart_of_isWhole (h : IsWhole q) : wholePart q = q := by
  rw [wholePart, if_neg fun hq => hq.2 h]
  exact truncate_of_isWhole h

/-- The whole part of a number that is not negative is its truncation. -/
theorem wholePart_of_nonneg (h : 0 ≤ q) : wholePart q = truncate q := by
  rw [wholePart, if_neg fun hq => absurd h (not_le.mpr hq.1)]

/-- The whole part lies above the number exactly below minus one, if the number is not whole. -/
theorem wholePart_le_iff : wholePart q ≤ q ↔ -1 ≤ q ∨ IsWhole q := by
  by_cases hwhole : IsWhole q
  · simp only [wholePart_of_isWhole hwhole, le_refl, hwhole, or_true]
  · rcases lt_or_ge q 0 with hneg | hnonneg
    · rw [wholePart, if_pos ⟨hneg, hwhole⟩]
      simp only [hwhole, or_false]
    · have hle := sub_truncate_nonneg hnonneg
      rw [wholePart_of_nonneg hnonneg]
      exact iff_of_true (sub_nonneg.mp hle) (.inl (by linarith))

/-- What remains without the whole part is less than one. -/
theorem sub_wholePart_lt_one (q : Rat) : q - wholePart q < 1 := by
  by_cases hwhole : IsWhole q
  · rw [wholePart_of_isWhole hwhole, sub_self]
    norm_num
  · rcases lt_or_ge q 0 with hneg | hnonneg
    · rw [wholePart, if_pos ⟨hneg, hwhole⟩]
      linarith
    · rw [wholePart_of_nonneg hnonneg]
      exact sub_truncate_lt_one hnonneg

namespace Cut

/-- No number of the source row was split into a whole part above it. -/
def RoundsDown (c : Cut) : Prop := ∀ part ∈ c.parts, part.whole ≤ part.value

instance (c : Cut) : Decidable c.RoundsDown :=
  inferInstanceAs (Decidable (∀ part ∈ c.parts, part.whole ≤ part.value))

/-- The assignment satisfies the equation of the new row. -/
def Holds (c : Cut) (x : Assignment) : Prop := weigh x 1 c.row.tail = c.row[0]?.getD 0

/-- A cut rounds down when its source row has no number below minus one that is not whole. -/
theorem roundsDown_ofRow_iff {row : List Rat} :
    (ofRow v row).RoundsDown ↔ ∀ q ∈ row, -1 ≤ q ∨ IsWhole q := by
  simp only [RoundsDown, ofRow, List.forall_mem_iff_getElem, List.length_mapIdx, List.getElem_mapIdx,
    wholePart_le_iff]

/-- The new row is made of the negated fractions and a one for its own variable. -/
theorem row_ofRow (v : Nat) (row : List Rat) :
    (ofRow v row).row = row.map (fun q => -(q - wholePart q)) ++ [1] := by
  unfold Cut.row
  congr 1
  apply List.ext_getElem (by simp [ofRow])
  intro i hi hi'
  simp [ofRow, Part.fraction]

/-- The numbers of the new row, by the entries of the source row. -/
theorem getElem?_row_ofRow (v : Nat) (r : Row) (k : Nat) :
    (ofRow v r.values).row[k]?.getD 0 =
      if k = r.values.length then 1 else -(r.entry k - wholePart (r.entry k)) := by
  rw [row_ofRow, Row.entry]
  rcases Nat.lt_trichotomy k r.values.length with hlt | heq | hgt
  · rw [List.getElem?_append_left (by rwa [List.length_map]), List.getElem?_map, if_neg hlt.ne,
      List.getElem?_eq_getElem hlt]
    rfl
  · subst heq
    simp
  · have hlength : (r.values.map (fun q => -(q - wholePart q)) ++ [1]).length ≤ k := by
      rw [List.length_append, List.length_map, List.length_singleton]
      omega
    rw [List.getElem?_eq_none hlength, if_neg hgt.ne', List.getElem?_eq_none hgt.le, Option.getD_none,
      wholePart_of_isWhole isWhole_zero, sub_self, neg_zero]

/-- What the source row says that the variable of the cut must be. -/
def surplus (r : Row) (x : Assignment) : Rat :=
  ∑ j ∈ Ico 1 r.values.length, (r.entry j - wholePart (r.entry j)) * x j -
    (r.entry 0 - wholePart (r.entry 0))

/-- The surplus depends on the variables of the source row only. -/
theorem surplus_congr {y : Assignment} (h : ∀ j, 0 < j → j < r.values.length → x j = y j) :
    surplus r x = surplus r y := by
  unfold surplus
  congr 1
  apply Finset.sum_congr rfl
  intro j hj
  rw [h j (mem_Ico.mp hj).1 (mem_Ico.mp hj).2]

/-- A cut holds when its own variable is its surplus. -/
theorem holds_ofRow_iff (v : Nat) (hpos : 0 < r.values.length) :
    (ofRow v r.values).Holds x ↔ x r.values.length = surplus r x := by
  have htail := Row.weigh_tail ⟨"", 0, (ofRow v r.values).row⟩ x
  have hterm : ∀ j ∈ Ico 1 r.values.length,
      (ofRow v r.values).row[j]?.getD 0 * x j = -((r.entry j - wholePart (r.entry j)) * x j) := by
    intro j hj
    rw [getElem?_row_ofRow, if_neg (mem_Ico.mp hj).2.ne, neg_mul]
  simp only [Row.entry, length_row_ofRow] at htail
  rw [Holds, htail, Finset.sum_Ico_succ_top hpos, Finset.sum_congr rfl hterm, getElem?_row_ofRow,
    getElem?_row_ofRow, if_pos rfl, if_neg hpos.ne, Finset.sum_neg_distrib, surplus]
  constructor
  · intro h
    linarith
  · intro h
    linarith

/-- On whole solutions of the source row the surplus is whole. -/
theorem isWhole_surplus (hr : r.Holds x) (hx : ∀ j, 0 < j → j < r.values.length → IsWhole (x j)) :
    IsWhole (surplus r x) := by
  have hsum : ∑ j ∈ Ico 1 r.values.length, r.entry j * x j = r.entry 0 := by
    rw [← Row.weigh_tail]
    exact hr
  have hsurplus : surplus r x =
      wholePart (r.entry 0) - ∑ j ∈ Ico 1 r.values.length, wholePart (r.entry j) * x j := by
    simp only [surplus, sub_mul, Finset.sum_sub_distrib, hsum]
    ring
  rw [hsurplus]
  refine (isWhole_wholePart _).sub (isWhole_sum fun j hj => ?_)
  obtain ⟨hpos, hlt⟩ := mem_Ico.mp hj
  exact (isWhole_wholePart _).mul (hx j hpos hlt)

/-- In a cut that rounds down no entry of the source row lies below its whole part. -/
theorem RoundsDown.wholePart_le (hdown : (ofRow v r.values).RoundsDown) (hj : j < r.values.length) :
    wholePart (r.entry j) ≤ r.entry j := by
  have hmem : r.entry j ∈ r.values := by
    rw [Row.entry, List.getElem?_eq_getElem hj]
    exact List.getElem_mem hj
  exact wholePart_le_iff.mpr (roundsDown_ofRow_iff.mp hdown _ hmem)

/-- On whole nonnegative solutions of the source row the surplus is not negative, if no coefficient lies
below its whole part. -/
theorem surplus_nonneg (hle : ∀ j, 0 < j → j < r.values.length → wholePart (r.entry j) ≤ r.entry j)
    (hr : r.Holds x) (hwhole : ∀ j, 0 < j → j < r.values.length → IsWhole (x j))
    (hx : ∀ j, 0 < j → j < r.values.length → 0 ≤ x j) : 0 ≤ surplus r x := by
  have hsum : 0 ≤ ∑ j ∈ Ico 1 r.values.length, (r.entry j - wholePart (r.entry j)) * x j := by
    apply Finset.sum_nonneg
    intro j hj
    obtain ⟨hpos, hlt⟩ := mem_Ico.mp hj
    exact mul_nonneg (sub_nonneg.mpr (hle j hpos hlt)) (hx j hpos hlt)
  have hfraction := sub_wholePart_lt_one (r.entry 0)
  apply (isWhole_surplus hr hwhole).nonneg
  unfold surplus
  linarith

end Cut

end ExactSimplex
