import ExactSimplex.Proofs.Tableau.Equations
import ExactSimplex.Simplex.Ratio
import Mathlib.Algebra.Order.Field.Basic

/-!
# The ratio test keeps a tableau feasible

The chosen ratio is the least one. A pivot on its row therefore takes no right-hand side below zero, and
where no row limits the entering variable its column has no positive entry.
-/

namespace ExactSimplex

/-- Where candidates are compared by a measure, none has a smaller one than the chosen, and those in front of it
have larger ones. -/
theorem measure_le_of_firstBest {α β : Type} [LinearOrder β] {better : α → α → Bool} {f : α → β}
    {l : List (Option α)} {i : Nat} {a : α} (hbetter : ∀ a b, better a b = true ↔ f a < f b)
    (h : firstBest better l = some (i, a)) :
    (∀ b, some b ∈ l → f a ≤ f b) ∧ ∀ (k : Nat) b, k < i → l[k]? = some (some b) → f a < f b := by
  have hworse : ∀ a b, better a b = false ↔ f b ≤ f a := by
    intro a b
    rw [← Bool.not_eq_true, hbetter, not_lt]
  have hasymm : ∀ a b, better a b = true → better b a = false := fun a b hab =>
    (hworse b a).mpr ((hbetter a b).mp hab).le
  have htrans : ∀ a b c, better a b = false → better b c = false → better a c = false := fun a b c hab hbc =>
    (hworse a c).mpr (((hworse b c).mp hbc).trans ((hworse a b).mp hab))
  constructor
  · intro b hb
    exact (hworse b a).mp (not_better_of_firstBest hasymm htrans h b hb)
  · intro k b hk hb
    exact (hbetter a b).mp (better_of_lt_firstBest h hk hb)

/-- The chosen ratio is the least of all. -/
theorem leastRatio_le {ratios : List (Option Rat)} {i : Nat} (h : leastRatio ratios = some i) :
    ∃ q, ratios[i]? = some (some q) ∧ ∀ (k : Nat) q', ratios[k]? = some (some q') → q ≤ q' := by
  obtain ⟨⟨k, q⟩, hbest, hki⟩ := Option.map_eq_some_iff.mp h
  obtain rfl : k = i := hki
  have hle := (measure_le_of_firstBest (f := id) (fun _ _ => decide_eq_true_iff) hbest).1
  exact ⟨q, getElem?_of_firstBest hbest, fun l q' hl => hle q' (List.mem_of_getElem? hl)⟩

/-- The first of the smallest ratios is smaller than those in front of it. -/
theorem leastRatio_lt {ratios : List (Option Rat)} {i k : Nat} {q q' : Rat} (h : leastRatio ratios = some i)
    (hi : ratios[i]? = some (some q)) (hk : k < i) (hq' : ratios[k]? = some (some q')) : q < q' := by
  obtain ⟨⟨l, a⟩, hbest, rfl⟩ := Option.map_eq_some_iff.mp h
  have hget := getElem?_of_firstBest hbest
  rw [hi] at hget
  cases hget
  exact (measure_le_of_firstBest (f := id) (fun _ _ => decide_eq_true_iff) hbest).2 k q' hk hq'

/-- No ratio is chosen exactly when there is none. -/
theorem leastRatio_eq_none_iff {ratios : List (Option Rat)} :
    leastRatio ratios = none ↔ ∀ o ∈ ratios, o = none := by
  rw [leastRatio, Option.map_eq_none_iff, firstBest_eq_none_iff]

namespace Tableau

variable {t t' : Tableau} {i j : Nat}

/-- The limit of each row, by its entries. -/
theorem getElem?_limits (hi : i < t.rows.length) :
    (t.limits j)[i]? = some (if 0 < t.entry i j then some (t.entry i 0 / t.entry i j) else none) := by
  have hrow := List.getElem?_eq_getElem hi
  rw [limits, List.getElem?_map, hrow, Option.map_some, entry_of_getElem? hrow, entry_of_getElem? hrow]
  rfl

/-- A row that limits a variable has a positive entry in its column, and the limit is its ratio. -/
theorem of_getElem?_limits {q : Rat} (h : (t.limits j)[i]? = some (some q)) :
    i < t.rows.length ∧ 0 < t.entry i j ∧ t.entry i 0 / t.entry i j = q := by
  have hi : i < t.rows.length := by
    have hlt := (List.getElem?_eq_some_iff.mp h).1
    rwa [limits, List.length_map] at hlt
  rw [getElem?_limits hi, Option.some.injEq] at h
  split at h
  · rename_i hpos
    exact ⟨hi, hpos, Option.some.inj h⟩
  · cases h

/-- A chosen row has a positive entry and the least ratio of all that do. -/
theorem leastRatio_limits (h : leastRatio (t.limits j) = some i) :
    0 < t.entry i j ∧ ∀ k, 0 < t.entry k j →
      t.entry i 0 / t.entry i j ≤ t.entry k 0 / t.entry k j := by
  obtain ⟨q, hq, hleast⟩ := leastRatio_le h
  obtain ⟨-, hpos, rfl⟩ := of_getElem?_limits hq
  refine ⟨hpos, fun k hk => ?_⟩
  have hkrows : k < t.rows.length := by
    by_contra hout
    rw [entry_eq_zero_of_length_le (not_lt.mp hout)] at hk
    exact lt_irrefl 0 hk
  exact hleast k _ (by rw [getElem?_limits hkrows, if_pos hk])

/-- Where no row limits the variable of a column, the column has no positive entry. -/
theorem entry_nonpos_of_leastRatio (h : leastRatio (t.limits j) = none) (i : Nat) : t.entry i j ≤ 0 := by
  by_cases hi : i < t.rows.length
  · by_contra hpos
    have hget := getElem?_limits (j := j) hi
    rw [if_pos (not_le.mp hpos)] at hget
    have hnone := leastRatio_eq_none_iff.mp h _ (List.mem_of_getElem? hget)
    cases hnone
  · exact (entry_eq_zero_of_length_le (not_lt.mp hi)).le

/-- A pivot on the least ratio keeps a tableau feasible. -/
theorem IsFeasible.pivot (hf : t.IsFeasible) (hrect : t.Rectangular)
    (hratio : leastRatio (t.limits j) = some i) (hp : t.pivot i j = .ok t') : t'.IsFeasible := by
  obtain ⟨hpos, hleast⟩ := leastRatio_limits hratio
  obtain ⟨leaving, hrow, -, -, -, rfl⟩ := pivot_eq_ok_iff.mp hp
  rw [isFeasible_iff] at hf ⊢
  intro l hl
  rw [length_rows_exchange] at hl
  have hi := (List.getElem?_eq_some_iff.mp hrow).1
  have hquotient : 0 ≤ t.entry i 0 / t.entry i j := div_nonneg (hf i hi) hpos.le
  rw [entry_exchange hrect hrow]
  split
  · exact hquotient
  · have hbound := hf l hl
    rcases lt_or_ge 0 (t.entry l j) with hlpos | hlneg
    · have hle := hleast l hlpos
      rw [le_div_iff₀ hlpos] at hle
      linarith
    · have hproduct := mul_nonneg (neg_nonneg.mpr hlneg) hquotient
      linarith

/-- Recorded ratios have nothing to do with right-hand sides. -/
theorem isFeasible_record {ratios : Ratios} (h : t.record ratios = .ok t') :
    t'.IsFeasible ↔ t.IsFeasible := by
  obtain ⟨-, rfl⟩ := record_eq_ok_iff.mp h
  exact Iff.rfl

end Tableau

namespace Simplex

variable {t before after : Tableau} {i j : Nat} {pivot : Pivot}

/-- A variable enters in the row with the least ratio. -/
theorem enter_eq_pivoted_iff :
    enter t j = .ok (.pivoted pivot before after) ↔
      t.record (.primal (t.limits j)) = .ok before ∧ ∃ i, leastRatio (t.limits j) = some i ∧
        pivot = ⟨i, j⟩ ∧ before.pivot i j = .ok after := by
  simp only [enter, bind_eq_ok_iff]
  constructor
  · rintro ⟨before', hrecord, hrest⟩
    split at hrest
    · cases hrest
    · rename_i i hratio
      obtain ⟨after', hpivot, heq⟩ := bind_eq_ok_iff.mp hrest
      cases heq
      exact ⟨hrecord, i, hratio, rfl, hpivot⟩
  · rintro ⟨hrecord, i, hratio, rfl, hpivot⟩
    refine ⟨before, hrecord, ?_⟩
    rw [hratio]
    exact bind_eq_ok_iff.mpr ⟨after, hpivot, rfl⟩

/-- A variable is unlimited when no row has a ratio. -/
theorem enter_eq_unlimited_iff :
    enter t j = .ok (.unlimited before) ↔
      t.record (.primal (t.limits j)) = .ok before ∧ leastRatio (t.limits j) = none := by
  simp only [enter, bind_eq_ok_iff]
  constructor
  · rintro ⟨before', hrecord, hrest⟩
    split at hrest
    · rename_i hratio
      cases hrest
      exact ⟨hrecord, hratio⟩
    · obtain ⟨after', hpivot, heq⟩ := bind_eq_ok_iff.mp hrest
      cases heq
  · rintro ⟨hrecord, hratio⟩
    refine ⟨before, hrecord, ?_⟩
    rw [hratio]
    rfl

end Simplex

end ExactSimplex
