import ExactSimplex.Proofs.Program.Reachable
import ExactSimplex.Proofs.Simplex.Runs

/-!
# Canonical programs

Where a right-hand side is negative, both sides are negated and the relation is turned around, whatever variables
were appended before. This changes no solution and no cost, and nothing is left to be done a second time. The method
begins with it, so that a program and its canonical form are solved alike.
-/

namespace ExactSimplex

namespace Program

variable {p : Program}

/-- Making a program canonical again changes nothing. -/
theorem canonicalize_canonicalize (p : Program) : p.canonicalize.canonicalize = p.canonicalize :=
  p.isCanonical_canonicalize.canonicalize_eq

/-- A program and its canonical form have the same standard form. -/
theorem standardForm_canonicalize (p : Program) : p.canonicalize.standardForm = p.standardForm := by
  rw [standardForm, canonicalize_canonicalize, standardForm]

end Program

namespace Simplex

variable {p : Program}

/-- Making a program canonical keeps its meaning, at every stage of its transformation. Its right-hand sides are not
negative any more. Each constraint holds under the same assignments as before, and is the same if its right-hand side
was not negative; the dimensions still agree, and apart from the constraints the program stays as it is, its costs
included. Doing so again changes nothing. A program without artificial variables is therefore solved like its
canonical form: with the same turns, recording the same steps, and with the same answer, which is a derivation. -/
theorem canonicalize_preserves (hp : p.Reachable) :
    p.canonicalize.Reachable ∧ p.canonicalize.IsConsistent ∧ p.canonicalize.IsCanonical ∧
    p.canonicalize.constraints.length = p.constraints.length ∧
    (∀ (i : Nat) (c : Constraint), p.constraints[i]? = some c → ∃ c', p.canonicalize.constraints[i]? = some c' ∧
      c.coefficients.length = p.variableCount ∧ c'.coefficients.length = p.variableCount ∧
      (∀ x, c'.Holds x ↔ c.Holds x) ∧ (0 ≤ c.bound → c' = c)) ∧
    p.canonicalize = { p with constraints := p.canonicalize.constraints } ∧ p.canonicalize.costs = p.costs ∧
    p.canonicalize.canonicalize = p.canonicalize ∧
    (p.artificials = 0 → ∀ rule limit, solve rule limit p.canonicalize = solve rule limit p ∧
      stepsWithin rule limit p.canonicalize = stepsWithin rule limit p ∧
      ∀ answer, solve rule limit p = some answer → ∃ d, answer = .ok d ∧ d.form.canonical = p.canonicalize) := by
  have hlength := hp.isConsistent.2.2
  refine ⟨hp.transform .canonicalize rfl, hp.isConsistent.canonicalize, p.isCanonical_canonicalize, List.length_map ..,
    fun i c hc => ⟨c.canonical, ?_, ?_, ?_, fun x => Constraint.holds_canonical, Constraint.canonical_of_nonneg⟩,
    rfl, rfl, p.canonicalize_canonicalize, fun hartificials rule limit => ⟨?_, ?_, fun answer h => ?_⟩⟩
  · rw [Program.canonicalize, List.getElem?_map, hc, Option.map_some]
  · exact hlength c (List.mem_of_getElem? hc)
  · exact c.length_canonical.trans (hlength c (List.mem_of_getElem? hc))
  · rw [solve, solve, Program.standardForm_canonicalize]
  · rw [stepsWithin, stepsWithin, Program.standardForm_canonicalize]
  · obtain ⟨d, rfl, hform⟩ := exists_derivation_of_solve hartificials h
    exact ⟨d, rfl, congrArg StandardForm.canonical hform⟩

/-- A program whose slack variables were appended before its right-hand sides were looked at. -/
def unsigned : Program where
  sense := .maximize
  objective := [1, 2]
  slackCosts := [0, 0]
  artificialCosts := []
  constraints := [⟨[1, 1, -1, 0], .ge, -3⟩, ⟨[2, -1, 0, 1], .le, -4⟩, ⟨[1, 0, 0, 0], .eq, 0⟩]

theorem canonicalize_unsigned : unsigned.Reachable ∧ unsigned.artificials = 0 ∧
    unsigned.canonicalize.constraints =
      [⟨[-1, -1, 1, 0], .le, 3⟩, ⟨[-2, 1, 0, -1], .ge, 4⟩, ⟨[1, 0, 0, 0], .eq, 0⟩] ∧
    unsigned.canonicalize.IsCanonical ∧ unsigned.canonicalize.canonicalize = unsigned.canonicalize ∧
    ∀ rule limit, solve rule limit unsigned.canonicalize = solve rule limit unsigned := by
  have haccepted : Program.Accepted
      ⟨.maximize, [1, 2], [], [], [⟨[1, 1], .ge, -3⟩, ⟨[2, -1], .le, -4⟩, ⟨[1, 0], .eq, 0⟩]⟩ := rfl
  have hreachable : unsigned.Reachable := .transform .addSlacks (.accepted haccepted) rfl
  obtain ⟨-, -, hcanonical, -, -, -, -, hidempotent, hsolve⟩ := canonicalize_preserves hreachable
  exact ⟨hreachable, rfl, by decide +kernel, hcanonical, hidempotent, fun rule limit => (hsolve rfl rule limit).1⟩

end Simplex

end ExactSimplex
