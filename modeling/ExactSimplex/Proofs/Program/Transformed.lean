import ExactSimplex.Proofs.Program.Costs
import ExactSimplex.Proofs.Program.StandardForm

/-!
# What the standard form means

The decision variables that satisfy a program are those that slack values extend to a solution of its standard form in
which the artificial variables are zero, and there is only one such extension. Any solution costs the objective value of
its decision variables and a penalty for the artificial variables.
-/

namespace ExactSimplex

/-! How many variables are appended. -/

theorem Relation.isSome_slack? (relation : Relation) : relation.slack?.isSome = decide (relation ≠ .eq) := by
  cases relation <;> rfl

theorem Relation.isSome_artificial? (relation : Relation) :
    relation.artificial?.isSome = decide (relation ≠ .le) := by
  cases relation <;> rfl

/-- Equations stay equations, whether they are negated or not. -/
theorem Constraint.relation_canonical_ne_eq_iff (c : Constraint) :
    c.canonical.relation ≠ .eq ↔ c.relation ≠ .eq := by
  unfold canonical
  split
  · rw [negate]
    cases c.relation <;> simp [Relation.flip]
  · exact Iff.rfl

namespace Program

variable {p : Program} {x v w : Assignment} {j : Nat}

/-- A canonical program has as many inequalities as the given one. -/
theorem columnsFor_slack (p : Program) :
    p.canonicalize.columnsFor Relation.slack? = p.constraints.countP fun c => c.relation ≠ .eq := by
  rw [columnsFor, canonicalize, List.countP_map]
  apply List.countP_congr
  intro c _
  rw [Function.comp_apply, Relation.isSome_slack?, decide_eq_true_iff, decide_eq_true_iff]
  exact c.relation_canonical_ne_eq_iff

/-- Appended slack variables change no relation. -/
theorem columnsFor_artificial (p : Program) : p.slacked.columnsFor Relation.artificial? =
    p.canonicalize.constraints.countP fun c => c.relation ≠ .le := by
  have hrelations : p.slacked.constraints.map (·.relation) = p.canonicalize.constraints.map (·.relation) := by
    apply List.ext_getElem?
    intro i
    rw [List.getElem?_map, slacked, getElem?_appendColumns, Option.map_map, List.getElem?_map]
    rfl
  have hcount := congrArg (List.countP (·.artificial?.isSome)) hrelations
  rw [List.countP_map, List.countP_map] at hcount
  rw [columnsFor]
  refine hcount.trans (List.countP_congr fun c _ => ?_)
  rw [Function.comp_apply, Relation.isSome_artificial?]

/-! Values of all variables. -/

/-- The values of all variables, from those of the decision variables, of the slack variables and of the artificial
variables, each counted from one. -/
def combine (p : Program) (x v w : Assignment) : Assignment := fun j =>
  if j ≤ p.decisions then x j
  else if j ≤ p.decisions + p.slacks then v (j - p.decisions)
  else w (j - (p.decisions + p.slacks))

theorem combine_decision (hj : j ≤ p.decisions) : p.combine x v w j = x j := if_pos hj

theorem combine_slack (hpos : 0 < j) (hj : j ≤ p.slacks) : p.combine x v w (p.decisions + j) = v j := by
  rw [combine, if_neg (by omega), if_pos (by omega), Nat.add_sub_cancel_left]

theorem combine_artificial (hpos : 0 < j) : p.combine x v w (p.decisions + p.slacks + j) = w j := by
  rw [combine, if_neg (by omega), if_neg (by omega), Nat.add_sub_cancel_left]

/-- What is behind the slack variables is zero when the artificial variables are. -/
theorem combine_eq_zero (hj : p.decisions + p.slacks < j) : p.combine x v 0 j = 0 := by
  rw [combine, if_neg (by omega), if_neg (by omega)]
  rfl

/-- Values that are not negative stay so. -/
theorem combine_nonneg (hx : Nonnegative p.decisions x) (hv : Nonnegative p.slacks v) (hpos : 0 < j) :
    0 ≤ p.combine x v 0 j := by
  unfold combine
  split
  · exact hx j hpos ‹_›
  · split
    · exact hv _ (by omega) (by omega)
    · exact le_rfl

/-- The cost of the decision variables is the objective value, and the artificial variables are penalized. -/
theorem Priced.costAt_combine (h : p.Priced) (x v w : Assignment) : p.costAt (p.combine x v w) =
    Cost.ofRat (p.objectiveAt x) + (∑ j ∈ Finset.range p.artificials, w (j + 1)) • p.sense.artificialCost := by
  rw [h.costAt_eq, objectiveAt_congr fun j _ hj => combine_decision hj]
  congr 2
  apply Finset.sum_congr rfl
  intro j _
  rw [Nat.add_assoc, combine_artificial (Nat.succ_pos j)]

section Accepted

variable (hp : p.Accepted)

include hp

/-- The slack values of a program extend its decision variables. -/
theorem Accepted.combine_withSlacks (x : Assignment) :
    p.augmented.combine x (fun j => p.withSlacks x (p.decisions + j)) 0 = p.withSlacks x := by
  funext j
  unfold combine
  split
  · exact (withSlacks_of_le ‹_›).symm
  · split
    · rename_i hdecision _
      exact congrArg (p.withSlacks x) (Nat.add_sub_cancel' (not_le.mp hdecision).le)
    · exact (hp.withSlacks_eq_zero (not_le.mp ‹_›)).symm

/-- Values of the decision variables satisfy the program exactly when values of the slack variables extend them to a
solution of the standard form without artificial variables. -/
theorem Accepted.holds_iff_exists_combine (hx : Nonnegative p.decisions x) : p.Holds x ↔
    ∃ v, Nonnegative p.augmented.slacks v ∧ p.augmented.Tight (p.augmented.combine x v 0) := by
  constructor
  · intro h
    have hfeasible : p.Feasible x := ⟨hp.variableCount_eq.symm ▸ hx, h⟩
    refine ⟨fun j => p.withSlacks x (p.decisions + j), fun j hpos _ => ?_, ?_⟩
    · exact hp.withSlacks_nonneg hfeasible (Nat.add_pos_right _ hpos)
    · rw [hp.combine_withSlacks]
      exact (hp.tight_augmented_iff fun j hj => hp.withSlacks_eq_zero hj).mpr (hp.tight_withSlacks hfeasible)
  · rintro ⟨v, hv, htight⟩
    have hslacked := (hp.tight_augmented_iff fun j hj => combine_eq_zero hj).mp htight
    have hnonneg : ∀ j, 0 < j → 0 ≤ p.augmented.combine x v 0 j := fun j hpos =>
      combine_nonneg (p := p.augmented) hx hv hpos
    have hfeasible := hp.feasible_of_tight hnonneg hslacked
    have hagrees : ∀ j, 0 < j → j ≤ p.decisions → p.augmented.combine x v 0 j = x j := fun j _ hj =>
      combine_decision (p := p.augmented) hj
    exact (hp.feasible_congr hagrees hfeasible).2

/-- There is only one such extension. -/
theorem Accepted.slacks_unique (hv : p.augmented.Tight (p.augmented.combine x v 0))
    (hw : p.augmented.Tight (p.augmented.combine x w 0)) (hpos : 0 < j) (hj : j ≤ p.augmented.slacks) :
    v j = w j := by
  have hslacked := (hp.tight_augmented_iff fun j hj => combine_eq_zero hj).mp hv
  have hslacked' := (hp.tight_augmented_iff fun j hj => combine_eq_zero hj).mp hw
  have hdecisions : ∀ k, 0 < k → k ≤ p.decisions → p.augmented.combine x v 0 k = p.augmented.combine x w 0 k :=
    fun k _ hk => (combine_decision (p := p.augmented) hk).trans (combine_decision (p := p.augmented) hk).symm
  have heq := hp.eq_of_tight_slacked hslacked hslacked' hdecisions (Nat.add_pos_right p.decisions hpos)
    (Nat.add_le_add_left hj _)
  exact (combine_slack hpos hj).symm.trans (heq.trans (combine_slack hpos hj))

end Accepted

/-- The standard form of an accepted program means the same. Values of the decision variables that are not negative
satisfy the program exactly when values of the slack variables that are not negative solve the standard form with them,
the artificial variables being zero, and these are unique. With any values the variables cost the objective value, and
the large constant for each artificial variable, against the direction of optimization. A slack variable is appended for
each inequality and an artificial variable for each canonical constraint that is not `<=`, and as many are told; on the
way every constraint has a coefficient for each variable, and the artificial variables are those whose cost contains the
large constant. -/
theorem Accepted.standardForm_preserves (hp : p.Accepted) : ∃ form, p.standardForm = .ok form ∧
    (∀ x, Nonnegative p.decisions x → (p.Holds x ↔ ∃ v, Nonnegative form.augmented.slacks v ∧
      form.augmented.Tight (form.augmented.combine x v 0))) ∧
    (∀ x v w, form.augmented.Tight (form.augmented.combine x v 0) →
      form.augmented.Tight (form.augmented.combine x w 0) → ∀ j, 0 < j → j ≤ form.augmented.slacks → v j = w j) ∧
    (∀ x v w, form.augmented.costAt (form.augmented.combine x v w) =
      match p.sense with
      | .maximize => Cost.ofRat (p.objectiveAt x) -
          (∑ j ∈ Finset.range form.augmented.artificials, w (j + 1)) • Cost.large
      | .minimize => Cost.ofRat (p.objectiveAt x) +
          (∑ j ∈ Finset.range form.augmented.artificials, w (j + 1)) • Cost.large) ∧
    (form.canonical = p.canonicalize ∧
      form.canonical.addSlacks = .ok (form.slacked, p.constraints.countP fun c => c.relation ≠ .eq) ∧
      form.slacked.addArtificials =
        (form.augmented, form.canonical.constraints.countP fun c => c.relation ≠ .le)) ∧
    form.slacked.slacks - form.canonical.slacks = (p.constraints.countP fun c => c.relation ≠ .eq) ∧
    form.augmented.artificials - form.slacked.artificials =
      (form.canonical.constraints.countP fun c => c.relation ≠ .le) ∧
    (∀ q ∈ [form.canonical, form.slacked, form.augmented], ∀ c ∈ q.constraints,
      c.coefficients.length = q.variableCount) ∧
    ∀ j c, form.augmented.costs[j]? = some c → (form.augmented.IsArtificial j ↔ ¬ c.IsFinite) := by
  refine ⟨_, standardForm_eq hp.artificials_eq, fun x hx => hp.holds_iff_exists_combine hx,
    fun x v w hv hw j hpos hj => hp.slacks_unique hv hw hpos hj, fun x v w => ?_, ⟨rfl, ?_, ?_⟩, ?_, ?_, ?_,
    fun j c hc => hp.priced_augmented.isArtificial_iff hc⟩
  · rw [hp.priced_augmented.costAt_combine, sense_augmented]
    cases p.sense with
    | maximize =>
      rw [Sense.artificialCost, smul_neg, ← sub_eq_add_neg]
      rfl
    | minimize => rfl
  · rw [addSlacks_canonicalize hp.artificials_eq, columnsFor_slack]
  · exact congrArg (p.augmented, ·) (columnsFor_artificial p)
  · exact (congrArg₂ (· - ·) hp.slacks_slacked hp.slacks_eq).trans (columnsFor_slack p)
  · exact (congrArg₂ (· - ·) hp.artificials_augmented hp.artificials_eq).trans (columnsFor_artificial p)
  · intro q hq c hc
    simp only [List.mem_cons, List.not_mem_nil, or_false] at hq
    rcases hq with rfl | rfl | rfl
    · exact (hp.length_canonicalize hc).trans hp.variableCount_eq.symm
    · exact (hp.length_slacked hc).trans hp.variableCount_slacked.symm
    · exact hp.length_augmented hc

/-- A blend of two components with an upper limit, a lower one that is given by negated sides, and an exact one. -/
def blend : Program where
  sense := .minimize
  objective := [2, 1]
  slackCosts := []
  artificialCosts := []
  constraints := [⟨[1, 1], .le, 4⟩, ⟨[-1, 1], .le, -1⟩, ⟨[1, 2], .eq, 3⟩]

/-- Two parts of the first component and half a part of the second one. -/
def blended : Assignment := fun j => if j = 1 then 2 else 1 / 2

theorem preserves_blend : blend.Accepted ∧ ∃ form v, blend.standardForm = .ok form ∧
    form.slacked.slacks - form.canonical.slacks = 2 ∧ form.augmented.artificials - form.slacked.artificials = 2 ∧
    Nonnegative form.augmented.slacks v ∧ form.augmented.Tight (form.augmented.combine blended v 0) := by
  have haccepted : blend.Accepted := rfl
  obtain ⟨form, hform, hholds, -, -, -, hslacks, hartificials, -⟩ := haccepted.standardForm_preserves
  have hnonneg : Nonnegative blend.decisions blended := by
    intro j _ _
    unfold blended
    split <;> norm_num
  have hblended : blend.Holds blended := by
    intro c hc
    simp only [blend, List.mem_cons, List.not_mem_nil, or_false] at hc
    rcases hc with rfl | rfl | rfl <;>
      norm_num [Constraint.Holds, Constraint.left, Relation.Holds, weigh, blended]
  obtain ⟨v, hv, htight⟩ := (hholds blended hnonneg).mp hblended
  cases hform
  exact ⟨haccepted, _, v, rfl, hslacks, hartificials, hv, htight⟩

end Program

end ExactSimplex
