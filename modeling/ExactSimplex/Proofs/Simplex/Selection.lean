import ExactSimplex.Proofs.Algebra.Order
import ExactSimplex.Proofs.Simplex.Pricing

/-!
# Columns that the pricing rules select

A rule looks only at the signs of reduced costs and of their differences. In terms of the order of costs, the first
rule selects the leftmost column that promises a better objective. The steepest rule selects the least reduced cost of
all columns, or the greatest one where the objective is minimized, and of the columns that have it the leftmost.
-/

namespace ExactSimplex

/-- A cost that promises a better objective improves on every cost that does not. -/
theorem Sense.improving_sub_of_not_improving {s : Sense} {c d : Cost} (hc : s.Improving c)
    (hd : ¬ s.Improving d) : s.Improving (c - d) := by
  by_contra hsub
  have hadd := not_improving_add hsub hd
  rw [sub_add_cancel] at hadd
  exact hadd hc

namespace Tableau

variable {t : Tableau} {j k : Nat} {c d : Cost}

/-- The variable of column `j` has the reduced cost `c`. -/
def HasReducedCost (t : Tableau) (j : Nat) (c : Cost) : Prop := 0 < j ∧ t.reducedCosts[j]? = some c

/-- Column `j` improves the objective by its reduced cost `c`, none does so more, and none to its left as much. -/
structure IsSteepest (t : Tableau) (j : Nat) (c : Cost) : Prop where
  hasReducedCost : t.HasReducedCost j c
  improving : t.sense.Improving c
  best : ∀ k d, t.HasReducedCost k d → ¬ t.sense.Improving (d - c)
  leftmost : ∀ k d, k < j → t.HasReducedCost k d → t.sense.Improving (c - d)

/-- A tableau is not optimal when the reduced cost of some column promises a better objective. -/
theorem not_isOptimal_iff : ¬ t.IsOptimal ↔ ∃ k d, t.HasReducedCost k d ∧ t.sense.Improving d := by
  rw [isOptimal_iff]
  push Not
  constructor
  · rintro ⟨k, hpos, hlt, himproving⟩
    exact ⟨k, _, ⟨hpos, by rw [getElem?_reducedCosts, if_pos hlt]⟩, himproving⟩
  · rintro ⟨k, d, ⟨hpos, hget⟩, himproving⟩
    rw [getElem?_reducedCosts, Option.ite_none_right_eq_some, Option.some.injEq] at hget
    obtain ⟨hlt, rfl⟩ := hget
    exact ⟨k, hpos, hlt, himproving⟩

/-- The candidates are the reduced costs that promise a better objective, at their columns. -/
theorem getElem?_improvements_eq_some_iff :
    t.improvements[k]? = some (some d) ↔ t.HasReducedCost k d ∧ t.sense.Improving d := by
  rw [improvements, HasReducedCost]
  cases k with
  | zero => simp
  | succ k =>
    rw [List.getElem?_cons_succ, List.getElem?_map, List.getElem?_tail]
    cases hget : t.reducedCosts[k + 1]? with
    | none => simp
    | some c =>
      by_cases hc : t.sense.Improving c
      · simp only [Option.map_some, if_pos hc, Option.some.injEq, Nat.succ_pos, true_and]
        exact ⟨fun h => ⟨h, h ▸ hc⟩, fun h => h.1⟩
      · simp only [Option.map_some, if_neg hc, Option.some.injEq, reduceCtorEq, Nat.succ_pos, true_and, false_iff]
        rintro ⟨rfl, himproving⟩
        exact hc himproving

theorem mem_improvements_iff : some d ∈ t.improvements ↔ ∃ k, t.HasReducedCost k d ∧ t.sense.Improving d := by
  rw [List.mem_iff_getElem?]
  exact exists_congr fun k => getElem?_improvements_eq_some_iff

/-- Column `j` is steepest when the tableau is not optimal, no reduced cost is better in the order of costs, and every
one to its left is worse. -/
theorem isSteepest_iff : t.IsSteepest j c ↔ ¬ t.IsOptimal ∧ t.HasReducedCost j c ∧
    (∀ k d, t.HasReducedCost k d → ¬ t.sense.Surpasses c d) ∧
    ∀ k d, k < j → t.HasReducedCost k d → t.sense.Surpasses d c := by
  simp only [Sense.surpasses_iff]
  constructor
  · intro h
    exact ⟨not_isOptimal_iff.mpr ⟨j, c, h.hasReducedCost, h.improving⟩, h.hasReducedCost, h.best, h.leftmost⟩
  · rintro ⟨hnot, hcost, hbest, hleftmost⟩
    obtain ⟨k, d, hd, himproving⟩ := not_isOptimal_iff.mp hnot
    refine ⟨hcost, ?_, hbest, hleftmost⟩
    by_contra hc
    exact hbest k d hd (Sense.improving_sub_of_not_improving himproving hc)

end Tableau

namespace Pricing

variable {t : Tableau} {j : Nat} {c : Cost}

/-- The first rule selects the leftmost column that promises a better objective. -/
theorem first_select_eq_some_iff : first.select t = some (j, c) ↔
    IsLeast {k | ∃ d, t.HasReducedCost k d ∧ t.sense.Improving d} j ∧ t.HasReducedCost j c := by
  have hnever : ∀ a b : Cost, first.prefers t.sense a b = false := fun _ _ => rfl
  rw [select, firstBest_eq_some_iff (fun a b _ => hnever b a) (fun a _ b _ _ => hnever a b),
    Tableau.getElem?_improvements_eq_some_iff]
  constructor
  · rintro ⟨⟨hcost, himproving⟩, -, hfirst⟩
    refine ⟨⟨⟨c, hcost, himproving⟩, ?_⟩, hcost⟩
    rintro k ⟨d, hd⟩
    by_contra hlt
    cases hfirst k d (not_le.mp hlt) (Tableau.getElem?_improvements_eq_some_iff.mpr hd)
  · rintro ⟨⟨⟨d, hd, himproving⟩, hleast⟩, hcost⟩
    obtain rfl : d = c := Option.some.inj (hd.2.symm.trans hcost.2)
    refine ⟨⟨hcost, himproving⟩, fun b _ => hnever b d, fun k b hk hb => ?_⟩
    exact absurd (hleast ⟨b, Tableau.getElem?_improvements_eq_some_iff.mp hb⟩) (not_le.mpr hk)

/-- The steepest rule selects the leftmost of the columns that improve the objective most. -/
theorem steepest_select_eq_some_iff : steepest.select t = some (j, c) ↔ t.IsSteepest j c := by
  rw [select, firstBest_eq_some_iff (steepest_prefers_asymm t.sense) (steepest_prefers_trans t.sense),
    Tableau.getElem?_improvements_eq_some_iff]
  constructor
  · -- The rule compares candidates only. The other columns do not improve the objective, so they are no better.
    rintro ⟨⟨hcost, himproving⟩, hbest, hfirst⟩
    refine ⟨hcost, himproving, fun k d hd => ?_, fun k d hk hd => ?_⟩
    · by_cases hcandidate : t.sense.Improving d
      · exact of_decide_eq_false (hbest d (Tableau.mem_improvements_iff.mpr ⟨k, hd, hcandidate⟩))
      · have hneg := (Sense.improving_sub_of_not_improving himproving hcandidate).not_neg
        rwa [neg_sub] at hneg
    · by_cases hcandidate : t.sense.Improving d
      · exact of_decide_eq_true (hfirst k d hk (Tableau.getElem?_improvements_eq_some_iff.mpr ⟨hd, hcandidate⟩))
      · exact Sense.improving_sub_of_not_improving himproving hcandidate
  · intro h
    refine ⟨⟨h.hasReducedCost, h.improving⟩, fun d hd => ?_, fun k d hk hd => ?_⟩
    · obtain ⟨k, hd, -⟩ := Tableau.mem_improvements_iff.mp hd
      exact decide_eq_false (h.best k d hd)
    · exact decide_eq_true (h.leftmost k d hk (Tableau.getElem?_improvements_eq_some_iff.mp hd).1)

/-- The rules select what they promise. Neither selects a column exactly when the tableau is optimal. The first rule
selects the leftmost column with a reduced cost that promises a better objective. The steepest rule selects the least
reduced cost of all columns where the objective is maximized, and the greatest where it is minimized, in a column
whose reduced cost is strictly better than those of all columns to its left. What is returned besides a column is its
entry in the row of reduced costs. -/
theorem selects_as_promised (t : Tableau) : (∀ rule : Pricing, rule.select t = none ↔ t.IsOptimal) ∧
    (∀ j c, first.select t = some (j, c) ↔
      IsLeast {k | ∃ d, t.HasReducedCost k d ∧ t.sense.Improving d} j ∧ t.HasReducedCost j c) ∧
    ∀ j c, steepest.select t = some (j, c) ↔ ¬ t.IsOptimal ∧ t.HasReducedCost j c ∧
      (t.sense = .maximize → IsLeast {d | ∃ k, t.HasReducedCost k d} c ∧
        ∀ k d, k < j → t.HasReducedCost k d → c < d) ∧
      (t.sense = .minimize → IsGreatest {d | ∃ k, t.HasReducedCost k d} c ∧
        ∀ k d, k < j → t.HasReducedCost k d → d < c) := by
  refine ⟨fun rule => rule.select_eq_none_iff t, fun j c => first_select_eq_some_iff, fun j c => ?_⟩
  rw [steepest_select_eq_some_iff, Tableau.isSteepest_iff]
  refine and_congr_right fun _ => and_congr_right fun hcost => ?_
  cases t.sense with
  | maximize =>
    constructor
    · rintro ⟨hbest, hleft⟩
      exact ⟨fun _ => ⟨⟨⟨j, hcost⟩, fun d ⟨k, hd⟩ => not_lt.mp (hbest k d hd)⟩, hleft⟩, nofun⟩
    · rintro ⟨h, -⟩
      obtain ⟨⟨-, hleast⟩, hleft⟩ := h rfl
      exact ⟨fun k d hd => not_lt.mpr (hleast ⟨k, hd⟩), hleft⟩
  | minimize =>
    constructor
    · rintro ⟨hbest, hleft⟩
      exact ⟨nofun, fun _ => ⟨⟨⟨j, hcost⟩, fun d ⟨k, hd⟩ => not_lt.mp (hbest k d hd)⟩, hleft⟩⟩
    · rintro ⟨-, h⟩
      obtain ⟨⟨-, hgreatest⟩, hleft⟩ := h rfl
      exact ⟨fun k d hd => not_lt.mpr (hgreatest ⟨k, hd⟩), hleft⟩

/-- A row that costs nothing, so that every reduced cost is the cost of a column with the opposite sign. The last three
columns tie in `M`, two of them in all. -/
def tied : Tableau where
  sense := .maximize
  rows := [⟨"x6", 0, [1, 1, 1, 1, 1, 1]⟩]
  columns := [⟨"A0", none⟩, ⟨"A1", some ⟨-1, 100⟩⟩, ⟨"A2", some ⟨0, 5⟩⟩, ⟨"A3", some ⟨2, -7⟩⟩, ⟨"A4", some ⟨2, -1⟩⟩,
    ⟨"A5", some ⟨2, -1⟩⟩]
  ratios := none
  index := NameIndex.ofNames 0 ["x6"]

theorem selects_tied : ¬ tied.IsOptimal ∧ first.select tied = some (2, ⟨0, -5⟩) ∧
    steepest.select tied = some (4, ⟨-2, 1⟩) ∧ IsLeast {d | ∃ k, tied.HasReducedCost k d} ⟨-2, 1⟩ ∧
    (⟨-2, 1⟩ : Cost) < ⟨-2, 7⟩ := by
  have hfirst : first.select tied = some (2, ⟨0, -5⟩) := by decide +kernel
  have hsteepest : steepest.select tied = some (4, ⟨-2, 1⟩) := by decide +kernel
  have hthird : tied.HasReducedCost 3 ⟨-2, 7⟩ := ⟨by decide, by decide +kernel⟩
  obtain ⟨-, -, hselect⟩ := selects_as_promised tied
  obtain ⟨hnot, -, hmaximize, -⟩ := (hselect 4 ⟨-2, 1⟩).mp hsteepest
  obtain ⟨hleast, hleft⟩ := hmaximize rfl
  exact ⟨hnot, hfirst, hsteepest, hleast, hleft 3 _ (by decide) hthird⟩

end Pricing

end ExactSimplex
