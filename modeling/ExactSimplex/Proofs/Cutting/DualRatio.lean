import ExactSimplex.Cutting.Dual
import ExactSimplex.Proofs.Simplex.Ratio
import ExactSimplex.Proofs.Tableau.Objective
import Mathlib.Data.List.Forall2

/-!
# The dual ratio test keeps a tableau optimal

A dual pivot adds multiples of one reduced cost to the others. For entries of the pivot row that are not
negative the multiples have the right sign; for negative entries the least ratio bounds them.
-/

namespace ExactSimplex

/-- A traversal that succeeds gives one result for each element. -/
theorem forall₂_of_mapM_eq_ok {α β : Type} {f : α → Except Fault β} {l : List α} {bs : List β}
    (h : l.mapM f = .ok bs) : List.Forall₂ (fun a b => f a = .ok b) l bs := by
  induction l generalizing bs with
  | nil =>
    cases h
    exact .nil
  | cons a l ih =>
    rw [List.mapM_cons] at h
    obtain ⟨b, hb, hrest⟩ := bind_eq_ok_iff.mp h
    obtain ⟨bs', hbs', heq⟩ := bind_eq_ok_iff.mp hrest
    cases heq
    exact .cons hb (ih hbs')

namespace Cutting

variable {t before after : Tableau} {r : Row} {i j k : Nat} {q : Rat} {pivot : Pivot}

/-- The leaving row is a row with a negative right-hand side. -/
theorem of_leavingRow? (h : leavingRow? t = some (i, r)) : t.rows[i]? = some r ∧ r.bound < 0 := by
  unfold leavingRow? at h
  split at h
  · cases h
  · split at h
    · cases h
    · rename_i r' hrow
      split at h
      · rename_i hneg
        cases h
        exact ⟨hrow, hneg⟩
      · cases h

/-- A column has a ratio when the leaving row is negative there and the reduced cost is finite. -/
theorem dualRatio_eq_some_iff :
    dualRatio t r j = .ok (some q) ↔ 0 < j ∧ r.entry j < 0 ∧ (t.reducedCost j).penalty = 0 ∧
      q = ((t.reducedCost j).finite / r.entry j).abs := by
  unfold dualRatio
  by_cases hcandidate : 0 < j ∧ r.entry j < 0
  · rw [if_pos hcandidate]
    by_cases hfinite : (t.reducedCost j).IsFinite
    · rw [if_pos hfinite, Except.ok.injEq, Option.some.injEq]
      exact ⟨fun h => ⟨hcandidate.1, hcandidate.2, hfinite, h.symm⟩, fun h => h.2.2.2.symm⟩
    · rw [if_neg hfinite]
      simp only [reduceCtorEq, false_iff]
      exact fun h => hfinite h.2.2.1
  · rw [if_neg hcandidate]
    simp only [Except.ok.injEq, reduceCtorEq, false_iff]
    exact fun h => hcandidate ⟨h.1, h.2.1⟩

/-- There is a place for the ratio of each column. -/
theorem getElem?_dualRatios {ratios : List (Option Rat)} (h : dualRatios t r = .ok ratios) {o : Option Rat} :
    ratios[k]? = some o ↔ k < t.columns.length ∧ dualRatio t r k = .ok o := by
  obtain ⟨hlength, hget⟩ := List.forall₂_iff_get.mp (forall₂_of_mapM_eq_ok h)
  rw [List.length_range] at hlength
  constructor
  · intro hk
    obtain ⟨hlt, rfl⟩ := List.getElem?_eq_some_iff.mp hk
    have hratio := hget k (by rw [List.length_range]; omega) hlt
    rw [List.get_eq_getElem, List.getElem_range] at hratio
    exact ⟨by omega, hratio⟩
  · rintro ⟨hlt, hk⟩
    have hratio := hget k (by rwa [List.length_range]) (by omega)
    rw [List.get_eq_getElem, List.getElem_range, hk, Except.ok.injEq] at hratio
    rw [List.getElem?_eq_getElem (by omega), hratio]
    rfl

/-- Every column in which the leaving row is negative has a ratio. -/
theorem exists_dualRatio {ratios : List (Option Rat)} (h : dualRatios t r = .ok ratios) (hpos : 0 < k)
    (hlt : k < t.columns.length) (hneg : r.entry k < 0) :
    (t.reducedCost k).penalty = 0 ∧
      ratios[k]? = some (some ((t.reducedCost k).finite / r.entry k).abs) := by
  have hlength : k < ratios.length := by
    rw [← (forall₂_of_mapM_eq_ok h).length_eq, List.length_range]
    exact hlt
  obtain ⟨-, hk⟩ := (getElem?_dualRatios h).mp (List.getElem?_eq_getElem hlength)
  have hfinite : (t.reducedCost k).IsFinite := by
    by_contra hpenalty
    rw [dualRatio, if_pos ⟨hpos, hneg⟩, if_neg hpenalty] at hk
    cases hk
  exact ⟨hfinite, (getElem?_dualRatios h).mpr ⟨hlt, dualRatio_eq_some_iff.mpr ⟨hpos, hneg, hfinite, rfl⟩⟩⟩

/-- Up to the sign of the direction, the ratio is that of the reduced cost and the negated entry. -/
theorem abs_div_of_neg {s : Sense} {f a : Rat} (hf : 0 ≤ s.sign * f) (ha : a < 0) :
    (f / a).abs = s.sign * f / -a := by
  cases s with
  | maximize =>
    rw [Sense.sign, one_mul] at hf ⊢
    rw [Rat.abs_of_nonpos (div_nonpos_of_nonneg_of_nonpos hf ha.le), div_neg]
  | minimize =>
    rw [Sense.sign, neg_one_mul] at hf ⊢
    rw [Rat.abs_of_nonneg (div_nonneg_of_nonpos (neg_nonneg.mp hf) ha.le), neg_div_neg_eq]

/-- Where both entries are negative and the ratio of the second cost is the least, the multiple of the second
cost that clears the second entry may be subtracted from the first. -/
theorem not_improving_sub_of_ratio {s : Sense} {a b : Cost} {u v : Rat} (ha : ¬ s.Improving a)
    (hb : ¬ s.Improving b) (hafinite : a.IsFinite) (hbfinite : b.IsFinite) (hu : u < 0) (hv : v < 0)
    (hle : (b.finite / v).abs ≤ (a.finite / u).abs) : ¬ s.Improving (a - (u / v) • b) := by
  have hasign := Sense.finite_nonneg_of_not_improving ha hafinite
  have hbsign := Sense.finite_nonneg_of_not_improving hb hbfinite
  rw [abs_div_of_neg hasign hu, abs_div_of_neg hbsign hv, le_div_iff₀ (neg_pos.mpr hu)] at hle
  refine Sense.not_improving_iff.mpr (.inr ⟨?_, ?_⟩)
  · rw [Cost.penalty_sub, Cost.penalty_smul, hafinite, hbfinite, mul_zero, sub_zero, mul_zero]
  · have hmultiple : s.sign * (u / v * b.finite) = s.sign * b.finite / -v * -u := by
      field_simp
    rw [Cost.finite_sub, Cost.finite_smul, mul_sub, hmultiple]
    exact sub_nonneg.mpr hle

/-- A row is restored by a pivot on a column with the least ratio. -/
theorem restore_eq_pivoted_iff :
    restore t i r = .ok (.pivoted pivot before after) ↔
      ∃ ratios, dualRatios t r = .ok ratios ∧ t.record (.dual ratios) = .ok before ∧
        ∃ j, leastRatio ratios = some j ∧ pivot = ⟨i, j⟩ ∧ before.pivot i j = .ok after := by
  simp only [restore, bind_eq_ok_iff]
  constructor
  · rintro ⟨ratios, hratios, before', hrecord, hrest⟩
    split at hrest
    · cases hrest
    · rename_i j hleast
      obtain ⟨after', hpivot, heq⟩ := bind_eq_ok_iff.mp hrest
      cases heq
      exact ⟨ratios, hratios, hrecord, j, hleast, rfl, hpivot⟩
  · rintro ⟨ratios, hratios, hrecord, j, hleast, rfl, hpivot⟩
    refine ⟨ratios, hratios, before, hrecord, ?_⟩
    rw [hleast]
    exact bind_eq_ok_iff.mpr ⟨after, hpivot, rfl⟩

/-- A row blocks the method when no column has a ratio. -/
theorem restore_eq_blocked_iff :
    restore t i r = .ok (.blocked before) ↔
      ∃ ratios, dualRatios t r = .ok ratios ∧ t.record (.dual ratios) = .ok before ∧
        leastRatio ratios = none := by
  simp only [restore, bind_eq_ok_iff]
  constructor
  · rintro ⟨ratios, hratios, before', hrecord, hrest⟩
    split at hrest
    · rename_i hleast
      cases hrest
      exact ⟨ratios, hratios, hrecord, hleast⟩
    · obtain ⟨after', hpivot, heq⟩ := bind_eq_ok_iff.mp hrest
      cases heq
  · rintro ⟨ratios, hratios, hrecord, hleast⟩
    refine ⟨ratios, hratios, before, hrecord, ?_⟩
    rw [hleast]
    rfl

/-- A row that blocks the method has no negative entry in the column of a variable. -/
theorem entry_nonneg_of_blocked (hrect : t.Rectangular) (hrow : t.rows[i]? = some r)
    (h : restore t i r = .ok (.blocked before)) (hpos : 0 < j) : 0 ≤ t.entry i j := by
  obtain ⟨ratios, hratios, -, hleast⟩ := restore_eq_blocked_iff.mp h
  by_contra hneg
  have hlt : j < t.columns.length := by
    by_contra hout
    rw [Tableau.entry_eq_zero_of_columns_le hrect (not_lt.mp hout)] at hneg
    exact hneg le_rfl
  rw [Tableau.entry_of_getElem? hrow] at hneg
  obtain ⟨-, hratio⟩ := exists_dualRatio hratios hpos hlt (not_le.mp hneg)
  cases leastRatio_eq_none_iff.mp hleast _ (List.mem_of_getElem? hratio)

/-- A dual pivot subtracts multiples of a reduced cost that is finite, in a column in which the leaving row is
negative. No column in which the row is negative has a smaller ratio. -/
theorem reducedCost_restore (hrect : t.Rectangular) (hrow : t.rows[i]? = some r)
    (h : restore t i r = .ok (.pivoted pivot before after)) :
    ∃ j, 0 < j ∧ j < t.columns.length ∧ r.entry j < 0 ∧ (t.reducedCost j).IsFinite ∧
      (∀ k, after.reducedCost k = t.reducedCost k - (r.entry k / r.entry j) • t.reducedCost j) ∧
      ∀ k, 0 < k → k < t.columns.length → r.entry k < 0 → (t.reducedCost k).IsFinite ∧
        ((t.reducedCost j).finite / r.entry j).abs ≤ ((t.reducedCost k).finite / r.entry k).abs := by
  obtain ⟨ratios, hratios, hrecord, j, hleast, -, hpivot⟩ := restore_eq_pivoted_iff.mp h
  obtain ⟨-, rfl⟩ := Tableau.record_eq_ok_iff.mp hrecord
  obtain ⟨q, hq, hle⟩ := leastRatio_le hleast
  obtain ⟨hlt, hratio⟩ := (getElem?_dualRatios hratios).mp hq
  obtain ⟨hpos, hneg, hfinite, rfl⟩ := dualRatio_eq_some_iff.mp hratio
  refine ⟨j, hpos, hlt, hneg, hfinite, fun k => ?_, fun k hkpos hklt hkneg => ?_⟩
  · have hentry : ∀ k, t.entry i k = r.entry k := fun k => Tableau.entry_of_getElem? hrow
    rw [← hentry, ← hentry]
    exact Tableau.reducedCost_pivot (t := { t with ratios := _ }) hrect hpivot k
  · obtain ⟨hkfinite, hkratio⟩ := exists_dualRatio hratios hkpos hklt hkneg
    exact ⟨hkfinite, hle k _ hkratio⟩

/-- A dual pivot changes neither the direction nor the columns. -/
theorem columns_restore (h : restore t i r = .ok (.pivoted pivot before after)) :
    after.sense = t.sense ∧ after.columns = t.columns := by
  obtain ⟨_, -, hrecord, _, -, -, hpivot⟩ := restore_eq_pivoted_iff.mp h
  obtain ⟨-, rfl⟩ := Tableau.record_eq_ok_iff.mp hrecord
  obtain ⟨_, -, -, -, -, rfl⟩ := Tableau.pivot_eq_ok_iff.mp hpivot
  exact ⟨rfl, rfl⟩

/-- A dual pivot keeps a tableau optimal. -/
theorem isOptimal_restore (hrect : t.Rectangular) (hopt : t.IsOptimal) (hrow : t.rows[i]? = some r)
    (h : restore t i r = .ok (.pivoted pivot before after)) : after.IsOptimal := by
  obtain ⟨j, hpos, hlt, hneg, hfinite, hreduced, hleast⟩ := reducedCost_restore hrect hrow h
  obtain ⟨hsense, hcolumns⟩ := columns_restore h
  have hnot := (Tableau.isOptimal_iff t).mp hopt
  rw [Tableau.isOptimal_iff, hsense, hcolumns]
  intro k hkpos hklt
  rw [hreduced]
  rcases le_or_gt 0 (r.entry k) with hknonneg | hkneg
  · -- The multiple that is added has the right sign.
    have hquotient : 0 ≤ -(r.entry k / r.entry j) :=
      neg_nonneg.mpr (div_nonpos_of_nonneg_of_nonpos hknonneg hneg.le)
    rw [sub_eq_add_neg, ← neg_smul]
    exact Sense.not_improving_add (hnot k hkpos hklt)
      (Sense.not_improving_smul hquotient (hnot j hpos hlt))
  · -- The least ratio bounds the multiple that is subtracted.
    obtain ⟨hkfinite, hle⟩ := hleast k hkpos hklt hkneg
    exact not_improving_sub_of_ratio (hnot k hkpos hklt) (hnot j hpos hlt) hkfinite hfinite hkneg hneg hle

/-- A dual pivot on a row with a negative right-hand side does not make the objective better. -/
theorem objectiveValue_restore_le (hrect : t.Rectangular) (hopt : t.IsOptimal)
    (hleaving : leavingRow? t = some (i, r)) (h : restore t i r = .ok (.pivoted pivot before after)) :
    t.sense.sign * after.objectiveValue.finite ≤ t.sense.sign * t.objectiveValue.finite := by
  obtain ⟨hrow, hbound⟩ := of_leavingRow? hleaving
  obtain ⟨j, hpos, hlt, hneg, hfinite, hreduced, -⟩ := reducedCost_restore hrect hrow h
  have hsign := Sense.finite_nonneg_of_not_improving ((Tableau.isOptimal_iff t).mp hopt j hpos hlt) hfinite
  have hquotient : 0 ≤ r.entry 0 / r.entry j := div_nonneg_of_nonpos (show r.entry 0 < 0 from hbound).le hneg.le
  have hproduct := mul_nonneg hquotient hsign
  rw [Tableau.objectiveValue, hreduced 0, Cost.finite_sub, Cost.finite_smul, mul_sub, mul_left_comm]
  exact sub_le_self _ hproduct

end Cutting

end ExactSimplex
