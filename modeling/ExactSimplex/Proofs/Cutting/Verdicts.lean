import ExactSimplex.Proofs.Cutting.IntegerOptimum

/-!
# What a solved run of the cutting plane method means

The record of a solved run ends with the result, and the solution that is read from it is an integer point of
the program as it was given, with its objective value. The numbers of the program need not be whole for this:
the cuts only take solutions away, and the run ends where the decision variables are whole.
-/

namespace ExactSimplex.Cutting

variable {rule : Pricing} {limit limit' : Nat} {p : Program} {t result : Tableau} {d : Simplex.Derivation}
  {c : Derivation}

/-- A solved run records its result last. The solution that is read from it has whole values that are not
negative, satisfies the program and tells its objective value. -/
theorem integerFeasible_of_solved (hp : p.Accepted) (hsimplex : Simplex.solve rule limit p = some (.ok d))
    (hd : d.ending = .solved t) (hcutting : solve p.decisions limit' t = some c)
    (hc : c.ending = .solved result) :
    ∃ a s, c.applications.getLast? = some a ∧ a.last? = some result ∧ result.IsFeasible ∧
      Solution.ofTableau result p.decisions = .ok s ∧ s.IsIntegral ∧ (∀ v ∈ s.values, 0 ≤ v.2) ∧
      p.IntegerFeasible s.assignment ∧ p.objectiveAt s.assignment = s.objectiveValue := by
  have ht := relaxes_of_solved hp hsimplex hd
  obtain ⟨_, -, -, h, hfeasible, hsource, hlast⟩ := exists_reaches_of_solve ht hcutting hc
  obtain ⟨a, ha, hstep⟩ := Option.bind_eq_some_iff.mp hlast
  obtain ⟨s, hs, hmember, hobjective, -, -⟩ := exists_solution hp h hfeasible hsource
  have hwhole : s.IsIntegral := Solution.forall_mem_values_ofTableau hs fun j hpos hj =>
    isWhole_variableValue h.wellFormed hfeasible hsource hpos hj
  have hnonneg : ∀ v ∈ s.values, 0 ≤ v.2 := Solution.forall_mem_values_ofTableau (P := (0 ≤ ·)) hs fun j _ _ =>
    h.wellFormed.variableValue_nonneg hfeasible j
  exact ⟨a, s, ha, hstep, hfeasible, hs, hwhole, hnonneg, hmember, hobjective⟩

/-- A peak between two slopes. -/
def peak : Program :=
  ⟨.maximize, [0, 1 / 2], [], [], [⟨[3 / 2, 1], .le, 3⟩, ⟨[-3 / 2, 1], .le, 0⟩]⟩

theorem integerFeasible_peak : ∃ d t c result s, Simplex.solve .steepest 3 peak = some (.ok d) ∧
    d.ending = .solved t ∧ solve peak.decisions 8 t = some c ∧ c.ending = .solved result ∧
    Solution.ofTableau result peak.decisions = .ok s ∧ peak.IntegerFeasible s.assignment := by
  have hrun : (integerRun? .steepest 3 8 peak).isSome = true := by decide +kernel
  obtain ⟨⟨moves, result⟩, hsome⟩ := Option.isSome_iff_exists.mp hrun
  obtain ⟨d, t, c, hd, hending, hc, -, hsolved⟩ := exists_of_integerRun? hsome
  obtain ⟨_, s, -, -, -, hs, -, -, hmember, -⟩ :=
    integerFeasible_of_solved (p := peak) rfl hd hending hc hsolved
  exact ⟨d, t, c, result, s, hd, hending, hc, hsolved, hs, hmember⟩

end ExactSimplex.Cutting
