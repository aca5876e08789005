import ExactSimplex.Proofs.Simplex.Optimality
import ExactSimplex.Proofs.Simplex.Result

/-!
# Improving directions

A column that improves the objective and has no positive entry does not do so by a multiple of `M`, so that its
variable is not artificial and the rows of artificial variables are zero in it. Its ray is then an improving
direction of the program. In an optimal tableau no direction improves the objective.
-/

namespace ExactSimplex.Simplex

open Finset

variable {rule : Pricing} {limit i j k : Nat} {q p : Program} {t : Tableau} {r : Row} {x : Assignment}
  {d : Derivation}

namespace Represents

variable (h : Represents q t)

include h

/-! The column of an unlimited variable. -/

section Column

variable (hpos : 0 < j) (hlt : j < t.columns.length) (himproving : t.sense.Improving (t.reducedCost j))
  (hentry : ∀ i, t.entry i j ≤ 0)

include hlt himproving hentry

/-- What improves the objective in a column without a positive entry does not contain `M`. -/
theorem penalty_eq_zero_of_unlimited : (t.reducedCost j).penalty = 0 := by
  have hnonneg := h.penalty_reducedCost_nonneg hlt hentry
  rw [Sense.improving_iff, h.sense] at himproving
  have hzero : q.sense.sign * (t.reducedCost j).penalty = 0 :=
    himproving.elim (fun hneg => absurd hneg (not_lt.mpr hnonneg)) And.left
  have hsquare := congrArg (q.sense.sign * ·) hzero
  simp only [← mul_assoc, Sense.sign_mul_sign, one_mul, mul_zero] at hsquare
  exact hsquare

/-- So every multiple of `M` that contributes to it vanishes. -/
theorem penalties_eq_zero_of_unlimited :
    (∀ i ∈ range t.rows.length, t.entry i j * (q.sense.sign * (t.basicCost i).penalty) = 0) ∧
      q.sense.sign * (t.price j).penalty = 0 := by
  have hterms := h.mul_penalty_basicCost_nonneg hentry
  have hprice := h.penalty_price_nonpos hlt
  have hsum := t.mul_penalty_reducedCost j q.sense.sign
  rw [h.penalty_eq_zero_of_unlimited hlt himproving hentry, mul_zero] at hsum
  have hnonneg := Finset.sum_nonneg hterms
  exact ⟨(Finset.sum_eq_zero_iff_of_nonneg hterms).mp (by linarith), by linarith⟩

/-- The variable of the column is not artificial. -/
theorem le_of_unlimited : j ≤ q.decisions + q.slacks := by
  by_contra hartificial
  have hprice := (h.penalties_eq_zero_of_unlimited hlt himproving hentry).2
  rw [h.penalty_price hlt, if_pos (not_le.mp hartificial), mul_neg, Sense.sign_mul_sign] at hprice
  norm_num at hprice

/-- The row of an artificial variable is zero in the column. -/
theorem entry_eq_zero_of_unlimited (hr : t.rows[i]? = some r) (hartificial : r.IsArtificial) :
    t.entry i j = 0 := by
  have hi := (List.getElem?_eq_some_iff.mp hr).1
  obtain ⟨k, hk⟩ := h.wellFormed.basic i hi
  have hterm := (h.penalties_eq_zero_of_unlimited hlt himproving hentry).1 i (mem_range.mpr hi)
  rw [hk.basicCost_eq, h.penalty_price hk.lt, if_pos ((h.isArtificial_iff hk hr).mp hartificial), mul_neg,
    Sense.sign_mul_sign, mul_neg, mul_one, neg_eq_zero] at hterm
  exact hterm

/-- Along the ray of the column artificial variables stay. -/
theorem zeroArtificials_ray : ZeroArtificials q (t.ray j) := by
  intro k hk
  have hle := h.le_of_unlimited hlt himproving hentry
  have hkj : k ≠ j := by omega
  by_cases hbasic : ∃ i, t.BasicIn i k
  · obtain ⟨i, hi⟩ := hbasic
    obtain ⟨r, hr, -⟩ := hi.exists_row
    rw [h.wellFormed.ray_of_basicIn hi hkj,
      h.entry_eq_zero_of_unlimited hlt himproving hentry hr ((h.isArtificial_iff hi hr).mpr hk), neg_zero]
  · exact h.wellFormed.ray_eq_zero (not_exists.mp hbasic) hkj

include hpos

/-- The ray of the column solves the equations with right-hand sides zero. -/
theorem tight_ray : q.homogeneous.Tight (t.ray j) :=
  (h.vanishes_iff _ (h.zeroArtificials_ray hlt himproving hentry)).mp
    (h.wellFormed.vanishes_ray hpos hlt (Tableau.not_basicIn_of_improving himproving))

omit hentry in
/-- The ray of the column is worth the negated reduced cost. -/
theorem objectiveAt_ray : q.objectiveAt (t.ray j) = -(t.reducedCost j).finite := by
  rw [← h.finite_costAt, h.wellFormed.costAt_ray hpos hlt (Tableau.not_basicIn_of_improving himproving),
    Cost.finite_neg]

/-- The ray of the column makes the objective better. -/
theorem sign_mul_objectiveAt_ray_pos : 0 < q.sense.sign * q.objectiveAt (t.ray j) := by
  have hpenalty := h.penalty_eq_zero_of_unlimited hlt himproving hentry
  rw [h.objectiveAt_ray hpos hlt himproving]
  rw [Sense.improving_iff, h.sense, hpenalty, mul_zero] at himproving
  have hneg := (himproving.resolve_left (lt_irrefl 0)).2
  rwa [mul_neg, neg_pos]

end Column

/-! Optimal tableaus. -/

/-- In an optimal tableau no nonnegative solution of the equations with right-hand sides zero makes the objective
better. -/
theorem not_better_of_isOptimal (hopt : t.IsOptimal) (hx : ∀ j, 0 < j → 0 ≤ x j) (hzero : ZeroArtificials q x)
    (htight : q.homogeneous.Tight x) : ¬ q.sense.Better (q.objectiveAt x) 0 := by
  have hvanishes := (h.vanishes_iff x hzero).mpr htight
  have hcost := h.wellFormed.costAt_of_vanishes hvanishes
  have hsum : ¬ q.sense.Improving (∑ j ∈ Ico 1 t.columns.length, x j • t.reducedCost j) := by
    apply Sense.not_improving_sum
    intro j hj
    obtain ⟨hpos, hlt⟩ := mem_Ico.mp hj
    have hreduced := (Tableau.isOptimal_iff t).mp hopt j hpos hlt
    rw [h.sense] at hreduced
    exact Sense.not_improving_smul (hx j hpos) hreduced
  rw [← neg_eq_iff_eq_neg.mpr hcost] at hsum
  have hpenalty : (-t.costAt x).penalty = 0 := by
    rw [Cost.penalty_neg, h.penalty_costAt hzero, neg_zero]
  have hfinite := Sense.finite_nonneg_of_not_improving hsum hpenalty
  rw [Cost.finite_neg, h.finite_costAt, mul_neg, neg_nonneg] at hfinite
  rw [Sense.better_iff, mul_zero, not_lt]
  exact hfinite

end Represents

/-! What this means for the program itself. -/

section Accepted

variable (hp : p.Accepted) (h : Represents p.augmented t)

include hp h

/-- The ray of a column that improves the objective and has no positive entry is an improving direction. -/
theorem isImprovingDirection_ray (hpos : 0 < j) (hlt : j < t.columns.length)
    (himproving : t.sense.Improving (t.reducedCost j)) (hentry : ∀ i, t.entry i j ≤ 0) :
    p.IsImprovingDirection (t.ray j) := by
  have hzero := h.zeroArtificials_ray hlt himproving hentry
  have htight := h.tight_ray hpos hlt himproving hentry
  refine ⟨hp.feasible_homogeneous_of_tight (fun k _ => h.wellFormed.ray_nonneg hentry k) hzero htight, ?_⟩
  rw [Sense.better_iff, mul_zero]
  exact h.sign_mul_objectiveAt_ray_pos hpos hlt himproving hentry

/-- In an optimal tableau the program has no improving direction. -/
theorem not_isImprovingDirection_of_isOptimal (hopt : t.IsOptimal) (x : Assignment) :
    ¬ p.IsImprovingDirection x := by
  rintro ⟨hdirection, hbetter⟩
  obtain ⟨z, hnonneg, hzero, htight, hvalue⟩ := hp.exists_tight_homogeneous hdirection
  rw [← hvalue] at hbetter
  exact h.not_better_of_isOptimal hopt hnonneg hzero htight hbetter

end Accepted

/-- An unbounded program ends in a column that is not artificial and in which the rows of artificial variables
are zero. Its ray leads from every feasible assignment to others, and each unit of it makes the objective better
by the same amount, so that no feasible assignment is the best one. -/
theorem exists_ray_of_unbounded (hp : p.Accepted) (h : solve rule limit p = some (.ok d))
    (hending : d.ending = .failed (.unbounded j)) :
    ∃ t gain, d.steps.getLast? = some ⟨none, t⟩ ∧ 0 < j ∧ ¬ d.form.augmented.IsArtificial (j - 1) ∧
      (∀ r ∈ t.rows, r.IsArtificial → r.entry j = 0) ∧ Nonnegative p.decisions (t.ray j) ∧ 0 < gain ∧
      (∀ y, p.Feasible y → ∀ s, 0 ≤ s → p.Feasible (y + s • t.ray j) ∧
        p.objectiveAt (y + s • t.ray j) = p.objectiveAt y + p.sense.sign * (s * gain)) ∧
      ¬ ∃ y, p.Feasible y ∧ ∀ x, p.Feasible x → ¬ p.sense.Better (p.objectiveAt x) (p.objectiveAt y) := by
  obtain ⟨t, c, ht, hlast, hselect, hentry⟩ := exists_of_solve_unbounded hp h hending
  obtain ⟨hpos, hlt, rfl, himproving⟩ := Pricing.of_select hselect
  have hdirection := isImprovingDirection_ray hp ht hpos hlt himproving hentry
  have hgain := ht.sign_mul_objectiveAt_ray_pos hpos hlt himproving hentry
  have hle := ht.le_of_unlimited hlt himproving hentry
  refine ⟨t, p.sense.sign * p.objectiveAt (t.ray j), hlast, hpos, ?_, fun r hr hartificial => ?_,
    fun k _ _ => ht.wellFormed.ray_nonneg hentry k, hgain, fun y hy s hs => ⟨hy.add_smul hdirection.1 hs, ?_⟩, ?_⟩
  · rw [form_of_solve hp h]
    change ¬ p.augmented.decisions + p.augmented.slacks ≤ j - 1
    omega
  · obtain ⟨i, hi⟩ := List.mem_iff_getElem?.mp hr
    rw [← Tableau.entry_of_getElem? hi]
    exact ht.entry_eq_zero_of_unlimited hlt himproving hentry hi hartificial
  · rw [Program.objectiveAt_add_smul, mul_left_comm s, ← mul_assoc, Sense.sign_mul_sign, one_mul]
  · rintro ⟨y, hy, hbest⟩
    obtain ⟨x, hx, hbetter⟩ := hdirection.exists_better hy
    exact hbest x hx hbetter

/-- A variable that is to be one above another. -/
def diagonal : Program := ⟨.maximize, [1, 0], [], [], [⟨[1, -1], .eq, 1⟩]⟩

theorem exists_ray_diagonal : ∃ d t gain, solve .steepest 4 diagonal = some (.ok d) ∧
    d.ending = .failed (.unbounded 2) ∧ d.steps.getLast? = some ⟨none, t⟩ ∧ 0 < gain ∧
    ∃ y, diagonal.Feasible y ∧ ∀ s, 0 ≤ s → diagonal.Feasible (y + s • t.ray 2) ∧
      diagonal.objectiveAt (y + s • t.ray 2) = diagonal.objectiveAt y + diagonal.sense.sign * (s * gain) := by
  have houtcome : outcome .steepest 4 diagonal = some (.failed (.unbounded 2)) := by decide +kernel
  obtain ⟨d, hd, hending⟩ := outcome_eq_some_iff.mp houtcome
  obtain ⟨t, gain, hlast, -, -, -, -, hgain, hfeasible, -⟩ :=
    exists_ray_of_unbounded (p := diagonal) rfl hd hending
  let y : Assignment := fun j => if j = 1 then 1 else 0
  have hy : diagonal.Feasible y := by
    refine ⟨fun j _ _ => ?_, fun c hc => ?_⟩
    · dsimp only [y]
      split <;> norm_num
    · rw [List.mem_singleton.mp hc]
      norm_num [Constraint.Holds, Relation.Holds, Constraint.left, weigh, y]
  exact ⟨d, t, gain, hd, hending, hlast, hgain, y, hy, hfeasible y hy⟩

end ExactSimplex.Simplex
