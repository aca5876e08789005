import ExactSimplex.Proofs.Algebra.Whole
import ExactSimplex.Proofs.Program.StandardForm

/-!
# Integral programs

The coefficients and right-hand sides of an integral program are whole. The slack variables of an assignment
of whole values are then whole as well; for this only the inequalities matter.
-/

namespace ExactSimplex

namespace Constraint

variable {c : Constraint} {x : Assignment}

/-- All numbers of the constraint are whole. -/
def IsIntegral (c : Constraint) : Prop := IsWhole c.bound ∧ ∀ a ∈ c.coefficients, IsWhole a

instance (c : Constraint) : Decidable c.IsIntegral :=
  inferInstanceAs (Decidable (IsWhole c.bound ∧ ∀ a ∈ c.coefficients, IsWhole a))

/-- Negating both sides keeps a constraint integral. -/
theorem IsIntegral.canonical (h : c.IsIntegral) : c.canonical.IsIntegral := by
  unfold Constraint.canonical
  split
  · refine ⟨h.1.neg, fun a ha => ?_⟩
    obtain ⟨b, hb, rfl⟩ := List.mem_map.mp ha
    exact (h.2 b hb).neg
  · exact h

/-- An equation stays one when both sides are negated. -/
theorem relation_canonical_of_eq (c : Constraint) (h : c.relation = .eq) : c.canonical.relation = .eq := by
  unfold Constraint.canonical
  split
  · rw [negate, h]
    rfl
  · exact h

/-- What an integral inequality takes up under whole values is whole. -/
theorem isWhole_slackValue {v : Rat} (h : c.IsIntegral)
    (hx : ∀ j, 0 < j → j ≤ c.coefficients.length → IsWhole (x j)) (hv : c.slackValue? x = some v) :
    IsWhole v := by
  obtain ⟨w, hw, rfl⟩ := Option.map_eq_some_iff.mp hv
  have hsign : IsWhole w := by
    cases hrel : c.relation <;> rw [hrel] at hw <;> cases hw
    · exact isWhole_iff.mpr ⟨1, rfl⟩
    · exact isWhole_iff.mpr ⟨-1, by norm_num⟩
  have hleft : IsWhole (c.left x) := isWhole_weigh (fun j hle hlt => hx j hle (by omega)) h.2
  exact hsign.mul (h.1.sub hleft)

end Constraint

namespace Program

variable {p : Program} {x : Assignment} {j : Nat}

/-- All numbers of the constraints are whole. -/
def IsIntegral (p : Program) : Prop := ∀ c ∈ p.constraints, c.IsIntegral

instance (p : Program) : Decidable p.IsIntegral :=
  inferInstanceAs (Decidable (∀ c ∈ p.constraints, c.IsIntegral))

/-- A feasible assignment that gives every decision variable a whole value. -/
def IntegerFeasible (p : Program) (x : Assignment) : Prop :=
  p.Feasible x ∧ ∀ j, 0 < j → j ≤ p.decisions → IsWhole (x j)

/-- At every integer point the slack values are whole as well. -/
def HasWholeSlacks (p : Program) : Prop :=
  ∀ x, p.IntegerFeasible x → ∀ j, 0 < j → IsWhole (p.withSlacks x j)

/-- The slack values of a feasible assignment of whole values are whole, if all inequalities are integral. -/
theorem Accepted.hasWholeSlacks_of_inequalities (hp : p.Accepted)
    (hintegral : ∀ c ∈ p.constraints, c.relation ≠ .eq → c.IsIntegral) : p.HasWholeSlacks := by
  intro x hx j hpos
  by_cases hj : j ≤ p.decisions
  · rw [withSlacks_of_le hj]
    exact hx.2 j hpos hj
  · rcases withSlacks_cases (x := x) (not_le.mp hj) with hzero | ⟨c, hc, hv⟩
    · rw [hzero]
      exact isWhole_zero
    · obtain ⟨c₀, hc₀, rfl⟩ := List.mem_map.mp hc
      have hrelation : c₀.relation ≠ .eq := by
        intro heq
        have hnone : c₀.canonical.slackValue? x = none := by
          rw [Constraint.slackValue?, c₀.relation_canonical_of_eq heq]
          rfl
        rw [hnone] at hv
        cases hv
      refine Constraint.isWhole_slackValue (hintegral c₀ hc₀ hrelation).canonical (fun k hkpos hk => ?_) hv
      exact hx.2 k hkpos (hp.length_canonicalize hc ▸ hk)

/-- So are those of an integral program. -/
theorem Accepted.hasWholeSlacks (hp : p.Accepted) (hintegral : p.IsIntegral) : p.HasWholeSlacks :=
  hp.hasWholeSlacks_of_inequalities fun c hc _ => hintegral c hc

end Program

end ExactSimplex
