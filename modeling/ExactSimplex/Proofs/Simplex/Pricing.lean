import ExactSimplex.Proofs.Algebra.Cost
import ExactSimplex.Simplex.Pricing

/-!
# What the pricing rules select

Both rules select a column whose reduced cost promises a better objective. The steepest rule selects one
that no other column improves on.
-/

namespace ExactSimplex

variable {rule : Pricing} {t : Tableau} {j k : Nat} {c : Cost}

/-- The candidates are the columns of variables whose reduced costs promise a better objective. -/
theorem Tableau.getElem?_improvements (hpos : 0 < k) (hlt : k < t.columns.length) :
    t.improvements[k]? =
      some (if t.sense.Improving (t.reducedCost k) then some (t.reducedCost k) else none) := by
  obtain ⟨m, rfl⟩ := Nat.exists_eq_succ_of_ne_zero hpos.ne'
  rw [improvements, List.getElem?_cons_succ, List.getElem?_map, List.getElem?_tail, getElem?_reducedCosts,
    if_pos hlt, Option.map_some]

namespace Pricing

/-- The selected column promises a better objective by the reduced cost that comes with it. -/
theorem of_select (h : rule.select t = some (j, c)) :
    0 < j ∧ j < t.columns.length ∧ c = t.reducedCost j ∧ t.sense.Improving c := by
  have hget := getElem?_of_firstBest h
  have hlength : t.improvements.length = t.reducedCosts.tail.length + 1 := by
    rw [Tableau.improvements, List.length_cons, List.length_map]
  have hpos : 0 < j := by
    rcases Nat.eq_zero_or_pos j with rfl | hpos
    · cases hget
    · exact hpos
  have hlt : j < t.columns.length := by
    have hbound := (List.getElem?_eq_some_iff.mp hget).1
    rw [hlength, List.length_tail, Tableau.length_reducedCosts] at hbound
    omega
  rw [Tableau.getElem?_improvements hpos hlt, Option.some.injEq] at hget
  split at hget
  · rename_i himproving
    cases hget
    exact ⟨hpos, hlt, rfl, himproving⟩
  · cases hget

/-- Of two costs at most one is preferred. -/
theorem steepest_prefers_asymm (s : Sense) (a b : Cost) (h : steepest.prefers s a b = true) :
    steepest.prefers s b a = false := by
  have hneg := (of_decide_eq_true h).not_neg
  rw [neg_sub] at hneg
  exact decide_eq_false hneg

/-- A cost that is not preferred to another one is not preferred to any that this is not preferred to. -/
theorem steepest_prefers_trans (s : Sense) (a b c : Cost) (hab : steepest.prefers s a b = false)
    (hbc : steepest.prefers s b c = false) : steepest.prefers s a c = false := by
  have hadd := Sense.not_improving_add (of_decide_eq_false hab) (of_decide_eq_false hbc)
  rw [sub_add_sub_cancel] at hadd
  exact decide_eq_false hadd

/-- No candidate improves on the reduced cost that the steepest rule selects. -/
theorem not_improving_of_steepest (h : steepest.select t = some (j, c)) (hpos : 0 < k)
    (hlt : k < t.columns.length) (hk : t.sense.Improving (t.reducedCost k)) :
    ¬ t.sense.Improving (t.reducedCost k - c) := by
  have hmem : some (t.reducedCost k) ∈ t.improvements := by
    have hget := Tableau.getElem?_improvements hpos hlt
    rw [if_pos hk] at hget
    exact List.mem_of_getElem? hget
  exact of_decide_eq_false
    (not_better_of_firstBest (steepest_prefers_asymm t.sense) (steepest_prefers_trans t.sense) h _ hmem)

end Pricing

end ExactSimplex
