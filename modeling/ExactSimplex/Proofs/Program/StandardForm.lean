import ExactSimplex.Program.Meaning
import ExactSimplex.Proofs.Program.Columns
import ExactSimplex.Proofs.Program.Costs
import Mathlib.Algebra.Order.Ring.Rat
import Mathlib.Tactic.Linarith

/-!
# The meaning of the standard form

Negating both sides changes no solution. A feasible assignment extends by the differences of the sides to
a nonnegative solution of the slacked equations, and every nonnegative solution of these is feasible.
Artificial variables that are zero do not matter.
-/

namespace ExactSimplex

/-- The coefficient of a slack variable is not zero. -/
theorem Relation.slack_ne_zero {relation : Relation} {v : Rat} (hv : relation.slack? = some v) : v ≠ 0 := by
  cases relation <;> cases hv <;> norm_num

namespace Constraint

variable {c : Constraint} {x y : Assignment}

/-- Negating both sides changes no solution. -/
theorem holds_negate : c.negate.Holds x ↔ c.Holds x := by
  have hleft : c.negate.left x = -c.left x := weigh_map_neg x 1 c.coefficients
  rw [Holds, Holds, hleft]
  cases h : c.relation <;> simp [negate, h, Relation.flip, Relation.Holds]

/-- The canonical constraint has the same solutions. -/
theorem holds_canonical : c.canonical.Holds x ↔ c.Holds x := by
  unfold canonical
  split
  · exact holds_negate
  · exact Iff.rfl

/-- The canonical right-hand side is not negative. -/
theorem canonical_bound_nonneg (c : Constraint) : 0 ≤ c.canonical.bound := by
  unfold canonical
  split
  · rename_i h
    exact neg_nonneg.mpr h.le
  · rename_i h
    exact not_lt.mp h

/-- A constraint whose right-hand side is not negative is canonical. -/
theorem canonical_of_nonneg (h : 0 ≤ c.bound) : c.canonical = c := if_neg (not_lt.mpr h)

@[simp] theorem length_canonical (c : Constraint) :
    c.canonical.coefficients.length = c.coefficients.length := by
  unfold canonical
  split <;> simp [negate]

/-- Only the variables with a coefficient count. -/
theorem left_congr (h : ∀ j, 0 < j → j ≤ c.coefficients.length → x j = y j) : c.left x = c.left y :=
  weigh_congr fun j hpos hlt => h j hpos (by omega)

/-- The value that the slack variable takes up, for an inequality. -/
def slackValue? (c : Constraint) (x : Assignment) : Option Rat :=
  c.relation.slack?.map fun v => v * (c.bound - c.left x)

@[simp] theorem isSome_slackValue? : (c.slackValue? x).isSome = c.relation.slack?.isSome :=
  Option.isSome_map ..

/-- What an inequality that holds takes up is not negative. -/
theorem slackValue_nonneg {v : Rat} (h : c.Holds x) (hv : c.slackValue? x = some v) : 0 ≤ v := by
  obtain ⟨w, hw, rfl⟩ := Option.map_eq_some_iff.mp hv
  unfold Holds at h
  cases hrel : c.relation <;> rw [hrel] at h hw <;> simp [Relation.slack?] at hw <;> subst hw <;>
    simp [Relation.Holds] at h <;> linarith

end Constraint

namespace Program

variable {p : Program} {x y : Assignment} {c : Constraint} {i j : Nat}

/-- No right-hand side of a canonical program is negative. -/
theorem isCanonical_canonicalize (p : Program) : p.canonicalize.IsCanonical := by
  intro c hc
  obtain ⟨c₀, -, rfl⟩ := List.mem_map.mp hc
  exact not_lt.mpr c₀.canonical_bound_nonneg

/-- A program without negative right-hand sides is canonical as it is. -/
theorem IsCanonical.canonicalize_eq (h : p.IsCanonical) : p.canonicalize = p := by
  have hconstraints : p.constraints.map Constraint.canonical = p.constraints.map id :=
    List.map_congr_left fun c hc => Constraint.canonical_of_nonneg (not_lt.mp (h c hc))
  rw [canonicalize, hconstraints, List.map_id]

/-- The canonical program with a slack variable in every inequality. -/
def slacked (p : Program) : Program :=
  { p with
    slackCosts := p.slackCosts ++ List.replicate (p.canonicalize.columnsFor Relation.slack?) 0
    constraints := appendColumns Relation.slack? (p.canonicalize.columnsFor Relation.slack?) 0
      p.canonicalize.constraints }

/-- The slacked program with an artificial variable in every constraint that is not `<=`. -/
def augmented (p : Program) : Program := p.slacked.addArtificials.1

/-- Without artificial variables, slack variables are appended to the canonical program. -/
theorem addSlacks_canonicalize (h : p.artificials = 0) :
    p.canonicalize.addSlacks = .ok (p.slacked, p.canonicalize.columnsFor Relation.slack?) := if_pos h

/-- The standard form of a program without artificial variables. -/
theorem standardForm_eq (h : p.artificials = 0) :
    p.standardForm = .ok ⟨p.canonicalize, p.slacked, p.augmented⟩ := by
  rw [standardForm, addSlacks_canonicalize h]
  rfl

@[simp] theorem decisions_slacked (p : Program) : p.slacked.decisions = p.decisions := rfl

@[simp] theorem decisions_augmented (p : Program) : p.augmented.decisions = p.decisions := rfl

@[simp] theorem slacks_augmented (p : Program) : p.augmented.slacks = p.slacked.slacks := rfl

@[simp] theorem sense_augmented (p : Program) : p.augmented.sense = p.sense := rfl

@[simp] theorem objective_augmented (p : Program) : p.augmented.objective = p.objective := rfl

/-- No right-hand side of the augmented program is negative. -/
theorem bound_augmented_nonneg (hc : c ∈ p.augmented.constraints) : 0 ≤ c.bound := by
  obtain ⟨c', hc', -, hbound', -⟩ := exists_of_mem_appendColumns hc
  obtain ⟨c'', hc'', -, hbound'', -⟩ := exists_of_mem_appendColumns hc'
  obtain ⟨c₀, -, rfl⟩ := List.mem_map.mp hc''
  rw [hbound', hbound'']
  exact c₀.canonical_bound_nonneg

/-! The program as it was accepted has decision variables only. -/

section Accepted

variable (hp : p.Accepted)

include hp

theorem Accepted.slacks_eq : p.slacks = 0 := ((accepted_iff p).mp hp).2.2.2.1

theorem Accepted.artificials_eq : p.artificials = 0 := ((accepted_iff p).mp hp).2.2.2.2

/-- The variables of the slacked program have the costs that belong to them. -/
theorem Accepted.priced_slacked : p.slacked.Priced :=
  hp.priced.canonicalize.addSlacks (addSlacks_canonicalize hp.artificials_eq)

/-- So have those of the augmented program. -/
theorem Accepted.priced_augmented : p.augmented.Priced := hp.priced_slacked.addArtificials

/-- An accepted program has as many variables as decision variables. -/
theorem Accepted.variableCount_eq : p.variableCount = p.decisions := by
  rw [variableCount, hp.slacks_eq, hp.artificials_eq]
  rfl

/-- Every canonical constraint has a coefficient for each decision variable. -/
theorem Accepted.length_canonicalize (hc : c ∈ p.canonicalize.constraints) :
    c.coefficients.length = p.decisions := by
  obtain ⟨c₀, hc₀, rfl⟩ := List.mem_map.mp hc
  rw [Constraint.length_canonical]
  exact ((accepted_iff p).mp hp).2.2.1 c₀ hc₀

/-- The slacked program has a slack variable for each inequality. -/
theorem Accepted.slacks_slacked : p.slacked.slacks = p.canonicalize.columnsFor Relation.slack? := by
  have hslacks : p.slackCosts.length = 0 := hp.slacks_eq
  rw [slacks, slacked, List.length_append, List.length_replicate, hslacks, Nat.zero_add]

/-- The slacked program has decision and slack variables only. -/
theorem Accepted.variableCount_slacked : p.slacked.variableCount = p.decisions + p.slacked.slacks := by
  change p.decisions + p.slacked.slacks + p.artificials = _
  rw [hp.artificials_eq, Nat.add_zero]

/-- Every slacked constraint has a coefficient for each variable. -/
theorem Accepted.length_slacked (hc : c ∈ p.slacked.constraints) :
    c.coefficients.length = p.decisions + p.slacked.slacks := by
  obtain ⟨c', hc', -, -, hlength⟩ := exists_of_mem_appendColumns hc
  rw [hlength, hp.length_canonicalize hc', hp.slacks_slacked]

/-- The augmented program has an artificial variable for each constraint that is not `<=`. -/
theorem Accepted.artificials_augmented :
    p.augmented.artificials = p.slacked.columnsFor Relation.artificial? := by
  have hartificials : p.slacked.artificialCosts.length = 0 := hp.artificials_eq
  rw [artificials, augmented, addArtificials, List.length_append, List.length_replicate, hartificials, Nat.zero_add]

/-- Every augmented constraint has a coefficient for each variable. -/
theorem Accepted.length_augmented (hc : c ∈ p.augmented.constraints) :
    c.coefficients.length = p.augmented.variableCount := by
  obtain ⟨c', hc', -, -, hlength⟩ := exists_of_mem_appendColumns hc
  rw [hlength, hp.length_slacked hc', variableCount, hp.artificials_augmented]
  rfl

/-- As equations, the slacked constraints contain one slack variable for each inequality. -/
theorem Accepted.tight_slacked_iff : p.slacked.Tight x ↔
    ∀ i c, p.canonicalize.constraints[i]? = some c → c.left x + c.relation.slack?.getD 0 *
      x (1 + p.decisions + columnPlace Relation.slack? p.canonicalize.constraints i) = c.bound :=
  tight_appendColumns Relation.slack? (fun _ hc => hp.length_canonicalize hc) x

/-- Only the decision and slack variables count in the slacked equations. -/
theorem Accepted.tight_slacked_congr (h : ∀ j, 0 < j → j ≤ p.decisions + p.slacked.slacks → x j = y j) :
    p.slacked.Tight x ↔ p.slacked.Tight y := by
  have hleft : ∀ c ∈ p.slacked.constraints, c.left x = c.left y := fun c hc =>
    c.left_congr fun j hpos hj => h j hpos (hp.length_slacked hc ▸ hj)
  apply forall₂_congr
  intro c hc
  rw [Constraint.Tight, Constraint.Tight, hleft c hc]

/-- The decision variables determine the slack variables of a solution of the slacked equations. -/
theorem Accepted.eq_of_tight_slacked (hx : p.slacked.Tight x) (hy : p.slacked.Tight y)
    (h : ∀ j, 0 < j → j ≤ p.decisions → x j = y j) (hpos : 0 < j)
    (hj : j ≤ p.decisions + p.slacked.slacks) : x j = y j := by
  by_cases hdecision : j ≤ p.decisions
  · exact h j hpos hdecision
  · have hplace : j - (1 + p.decisions) < p.canonicalize.columnsFor Relation.slack? := by
      rw [← hp.slacks_slacked]
      omega
    obtain ⟨i, c, hc, hslack, heq⟩ := exists_columnPlace_eq _ _ hplace
    obtain ⟨v, hv⟩ := Option.isSome_iff_exists.mp hslack
    have hcolumn : 1 + p.decisions + columnPlace Relation.slack? p.canonicalize.constraints i = j := by omega
    have hrowx := hp.tight_slacked_iff.mp hx i c hc
    have hrowy := hp.tight_slacked_iff.mp hy i c hc
    have hleft : c.left x = c.left y := c.left_congr fun k hk hle =>
      h k hk (hp.length_canonicalize (List.mem_of_getElem? hc) ▸ hle)
    rw [hv, Option.getD_some, hcolumn] at hrowx hrowy
    rw [hleft] at hrowx
    exact mul_left_cancel₀ (Relation.slack_ne_zero hv) (add_left_cancel (hrowx.trans hrowy.symm))

/-- Artificial variables that are zero do not matter. -/
theorem Accepted.tight_augmented_iff (hx : ∀ j, p.decisions + p.slacked.slacks < j → x j = 0) :
    p.augmented.Tight x ↔ p.slacked.Tight x := by
  have haugmented := tight_appendColumns Relation.artificial?
    (fun c (hc : c ∈ p.slacked.constraints) => hp.length_slacked hc) x
  have hzero : ∀ k, x (1 + (p.decisions + p.slacked.slacks) + k) = 0 := fun k => hx _ (by omega)
  rw [Tight, augmented, addArtificials]
  apply haugmented.trans
  simp only [hzero, mul_zero, add_zero]
  constructor
  · intro h c hc
    obtain ⟨i, hi⟩ := List.mem_iff_getElem?.mp hc
    exact h i c hi
  · intro h i c hc
    exact h c (List.mem_of_getElem? hc)

/-- Nonnegative solutions of the slacked equations are feasible. -/
theorem Accepted.feasible_of_tight (hx : ∀ j, 0 < j → 0 ≤ x j) (htight : p.slacked.Tight x) :
    p.Feasible x := by
  refine ⟨fun j hpos _ => hx j hpos, fun c hc => ?_⟩
  rw [← Constraint.holds_canonical]
  obtain ⟨i, hi⟩ := List.mem_iff_getElem?.mp (List.mem_map_of_mem (f := Constraint.canonical) hc)
  have hrow := hp.tight_slacked_iff.mp htight i _ hi
  have hslack := hx (1 + p.decisions + columnPlace Relation.slack? p.canonicalize.constraints i) (by omega)
  unfold Constraint.Holds
  cases hrel : c.canonical.relation <;> rw [hrel] at hrow <;>
    simp [Relation.slack?] at hrow <;> simp [Relation.Holds] <;> linarith

end Accepted

/-! Slack values extend an assignment. -/

/-- The assignment with the slack variables set to what they take up, and all others to zero. -/
def withSlacks (p : Program) (x : Assignment) : Assignment := fun j =>
  if j ≤ p.decisions then x j
  else (p.canonicalize.constraints.filterMap (·.slackValue? x))[j - (1 + p.decisions)]?.getD 0

/-- The decision variables keep their values. -/
theorem withSlacks_of_le (hj : j ≤ p.decisions) : p.withSlacks x j = x j := if_pos hj

/-- The slack variable of an inequality takes up the difference of its sides. -/
theorem withSlacks_columnPlace {v : Rat} (hc : p.canonicalize.constraints[i]? = some c)
    (hv : c.slackValue? x = some v) :
    p.withSlacks x (1 + p.decisions + columnPlace Relation.slack? p.canonicalize.constraints i) = v := by
  have hget := getElem?_filterMap_columnPlace Relation.slack?
    (fun _ => Constraint.isSome_slackValue?) hc hv
  rw [withSlacks, if_neg (by omega), Nat.add_sub_cancel_left, hget]
  rfl

/-- The value of a variable behind the decision variables is a slack value or zero. -/
theorem withSlacks_cases (hj : p.decisions < j) :
    p.withSlacks x j = 0 ∨ ∃ c ∈ p.canonicalize.constraints, c.slackValue? x = some (p.withSlacks x j) := by
  rw [withSlacks, if_neg (by omega)]
  cases hget : (p.canonicalize.constraints.filterMap (·.slackValue? x))[j - (1 + p.decisions)]? with
  | none => exact .inl rfl
  | some v => exact .inr (List.mem_filterMap.mp (List.mem_of_getElem? hget))

section Accepted

variable (hp : p.Accepted)

include hp

/-- The variables behind the slack variables are zero. -/
theorem Accepted.withSlacks_eq_zero (hj : p.decisions + p.slacked.slacks < j) : p.withSlacks x j = 0 := by
  have hlength : (p.canonicalize.constraints.filterMap (·.slackValue? x)).length = p.slacked.slacks := by
    rw [List.length_filterMap_eq_countP, hp.slacks_slacked, columnsFor]
    simp only [Constraint.isSome_slackValue?]
  rw [withSlacks, if_neg (by omega), List.getElem?_eq_none (by omega)]
  rfl

/-- A feasible assignment solves the slacked equations with its slack values. -/
theorem Accepted.tight_withSlacks (hx : p.Feasible x) : p.slacked.Tight (p.withSlacks x) := by
  rw [hp.tight_slacked_iff]
  intro i c hc
  have hmem := List.mem_of_getElem? hc
  have hleft : c.left (p.withSlacks x) = c.left x :=
    c.left_congr fun j _ hj => withSlacks_of_le (hp.length_canonicalize hmem ▸ hj)
  rw [hleft]
  cases hslack : c.relation.slack? with
  | none =>
    -- Only an equation has no slack variable.
    obtain ⟨c₀, hc₀, rfl⟩ := List.mem_map.mp hmem
    have hholds := Constraint.holds_canonical.mpr (hx.2 c₀ hc₀)
    unfold Constraint.Holds at hholds
    cases hrel : c₀.canonical.relation <;> rw [hrel] at hslack hholds
    · cases hslack
    · cases hslack
    · rw [Option.getD_none, zero_mul, add_zero]
      exact hholds
  | some v =>
    have hvalue : c.slackValue? x = some (v * (c.bound - c.left x)) := by
      rw [Constraint.slackValue?, hslack, Option.map_some]
    have hsquare : v * v = 1 := by
      cases hrel : c.relation <;> rw [hrel] at hslack <;> cases hslack <;> norm_num
    rw [withSlacks_columnPlace hc hvalue, Option.getD_some, ← mul_assoc, hsquare]
    ring

/-- The slack values of a feasible assignment are not negative. -/
theorem Accepted.withSlacks_nonneg (hx : p.Feasible x) (hpos : 0 < j) : 0 ≤ p.withSlacks x j := by
  by_cases hj : j ≤ p.decisions
  · rw [withSlacks_of_le hj]
    exact hx.1 j hpos (hp.variableCount_eq ▸ hj)
  · rcases withSlacks_cases (x := x) (not_le.mp hj) with hzero | ⟨c, hc, hv⟩
    · exact hzero.ge
    · obtain ⟨c₀, hc₀, rfl⟩ := List.mem_map.mp hc
      exact Constraint.slackValue_nonneg (Constraint.holds_canonical.mpr (hx.2 c₀ hc₀)) hv

end Accepted

/-- Whether an assignment is feasible depends on the decision variables only. -/
theorem Accepted.feasible_congr (hp : p.Accepted) (h : ∀ j, 0 < j → j ≤ p.decisions → x j = y j)
    (hx : p.Feasible x) : p.Feasible y := by
  constructor
  · intro j hpos hj
    rw [← h j hpos (hp.variableCount_eq ▸ hj)]
    exact hx.1 j hpos hj
  · intro c hc
    have hlength : c.coefficients.length = p.decisions := ((accepted_iff p).mp hp).2.2.1 c hc
    have hleft : c.left x = c.left y := c.left_congr fun j hpos hj => h j hpos (hlength ▸ hj)
    have hholds := hx.2 c hc
    rwa [Constraint.Holds, hleft] at hholds

/-- The objective depends on the decision variables only. -/
theorem objectiveAt_congr (h : ∀ j, 0 < j → j ≤ p.decisions → x j = y j) :
    p.objectiveAt x = p.objectiveAt y :=
  weigh_congr fun j hpos hlt => h j hpos (by rw [decisions]; omega)

/-- Extending an assignment keeps its objective value. -/
theorem objectiveAt_withSlacks : p.objectiveAt (p.withSlacks x) = p.objectiveAt x :=
  objectiveAt_congr fun _ _ hj => withSlacks_of_le hj

/-- A feasible assignment extends by slack values to a nonnegative solution of the augmented equations. -/
theorem Accepted.exists_tight_augmented (hp : p.Accepted) (hx : p.Feasible x) :
    ∃ z : Assignment, (∀ j, 0 < j → 0 ≤ z j) ∧ (∀ j, p.decisions + p.slacked.slacks < j → z j = 0) ∧
      p.augmented.Tight z ∧ p.objectiveAt z = p.objectiveAt x := by
  have hzero : ∀ j, p.decisions + p.slacked.slacks < j → p.withSlacks x j = 0 := fun j hj =>
    hp.withSlacks_eq_zero hj
  have htight := (hp.tight_augmented_iff hzero).mpr (hp.tight_withSlacks hx)
  exact ⟨p.withSlacks x, fun j hpos => hp.withSlacks_nonneg hx hpos, hzero, htight, objectiveAt_withSlacks⟩

end Program

end ExactSimplex
