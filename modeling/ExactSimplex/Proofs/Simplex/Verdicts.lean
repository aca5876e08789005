import ExactSimplex.Proofs.Optimum
import ExactSimplex.Proofs.Simplex.Optimality

/-!
# What the verdicts of the Simplex method mean

A result is an optimal solution of the program as it was given, and an infeasible program has no feasible
assignment. The verdict that a program is unbounded comes from the ratio test alone, which may fail before
the artificial variables have become zero; the last recorded tableau then tells when there is a feasible
assignment, and when there is none.
-/

namespace ExactSimplex.Simplex

variable {rule : Pricing} {limit j : Nat} {p : Program} {t : Tableau} {d : Derivation}

/-- A result is a feasible assignment that tells its objective value, and no feasible assignment has a better
one. -/
theorem optimal_of_solved (hp : p.Accepted) (h : solve rule limit p = some (.ok d))
    (hending : d.ending = .solved t) :
    ∃ s, Solution.ofTableau t p.decisions = .ok s ∧ s.Optimal p p.Feasible := by
  obtain ⟨t', ht', hopt, hfinite, htruncate⟩ := exists_of_solve_solved hp h hending
  have hart : ¬ StillArtificial t' := fun ⟨r, hr, hartificial, _⟩ => hfinite r hr hartificial
  have hobjective := ht'.isFinite_objectiveValue hfinite
  rw [← Tableau.objectiveValue_truncate htruncate] at hobjective
  obtain ⟨s, hs⟩ : ∃ s, Solution.ofTableau t p.decisions = .ok s :=
    ⟨_, Solution.ofTableau_eq_ok_iff.mpr ⟨hobjective, rfl⟩⟩
  have hvalue : s.objectiveValue = t'.objectiveValue.finite := by
    obtain ⟨-, rfl⟩ := Solution.ofTableau_eq_ok_iff.mp hs
    rw [Tableau.objectiveValue_truncate htruncate]
  have hassignment : ∀ j, 0 < j → j ≤ p.decisions → t'.variableValue j = s.assignment j := by
    intro j hpos hj
    rw [Solution.assignment_ofTableau hs hpos hj, Tableau.variableValue_truncate htruncate]
  refine ⟨s, hs, ?_, ?_, ?_⟩
  · exact hp.feasible_congr hassignment (feasible_variableValue hp ht' hart)
  · rw [hvalue, ← ht'.wellFormed.costAt_variableValue, ht'.finite_costAt]
    exact (Program.objectiveAt_congr hassignment).symm
  · intro x hx hbetter
    have hzero : ZeroArtificials p.augmented (p.withSlacks x) := fun j hj => hp.withSlacks_eq_zero hj
    have htight := (hp.tight_augmented_iff hzero).mpr (hp.tight_withSlacks hx)
    have hle := ht'.objectiveAt_le hfinite hopt (fun j hpos => hp.withSlacks_nonneg hx hpos) hzero htight
    have hextended : p.augmented.objectiveAt (p.withSlacks x) = p.objectiveAt x :=
      Program.objectiveAt_withSlacks
    rw [hextended, Program.sense_augmented] at hle
    rw [Sense.better_iff, hvalue] at hbetter
    exact absurd hle (not_le.mpr hbetter)

/-- Buying at least ten units at the lower of two prices. -/
def purchase : Program := ⟨.minimize, [2, 3], [], [], [⟨[1, 1], .ge, 10⟩]⟩

theorem optimal_purchase : ∃ d t, solve .steepest 3 purchase = some (.ok d) ∧ d.ending = .solved t ∧
    ∃ s, Solution.ofTableau t purchase.decisions = .ok s ∧ s.Optimal purchase purchase.Feasible := by
  have hsolved : (result? .steepest 3 purchase).isSome = true := by decide +kernel
  obtain ⟨t, hresult⟩ := Option.isSome_iff_exists.mp hsolved
  obtain ⟨d, hd, hending⟩ := outcome_eq_some_iff.mp (result?_eq_some_iff.mp hresult)
  exact ⟨d, t, hd, hending, optimal_of_solved rfl hd hending⟩

/-- An infeasible program has no feasible assignment. -/
theorem not_feasible_of_infeasible (hp : p.Accepted) (h : solve rule limit p = some (.ok d))
    (hending : d.ending = .failed .infeasible) : ¬ ∃ x, p.Feasible x := by
  obtain ⟨t, ht, hopt, hart⟩ := exists_of_solve_infeasible hp h hending
  rintro ⟨x, hx⟩
  exact not_stillArtificial_of_feasible hp ht hopt.isPenaltyOptimal hx hart

/-- A variable that is to be at least five and at most two. -/
def contradiction : Program := ⟨.minimize, [2], [], [], [⟨[1], .ge, 5⟩, ⟨[1], .le, 2⟩]⟩

theorem not_feasible_contradiction :
    outcome .steepest 2 contradiction = some (.failed .infeasible) ∧ ¬ ∃ x, contradiction.Feasible x := by
  have houtcome : outcome .steepest 2 contradiction = some (.failed .infeasible) := by decide +kernel
  obtain ⟨d, hd, hending⟩ := outcome_eq_some_iff.mp houtcome
  exact ⟨houtcome, not_feasible_of_infeasible rfl hd hending⟩

/-- A program that is found unbounded has a feasible assignment when every artificial variable that is basic in
the last recorded tableau is zero. Otherwise it has none, provided that no reduced cost improves by its multiple
of `M`, as is always so under the steepest rule. -/
theorem feasible_of_unbounded (hp : p.Accepted) (h : solve rule limit p = some (.ok d))
    (hending : d.ending = .failed (.unbounded j)) :
    ∃ t, d.steps.getLast? = some ⟨none, t⟩ ∧ (¬ StillArtificial t → ∃ x, p.Feasible x) ∧
      (rule = .steepest ∨ t.IsPenaltyOptimal → StillArtificial t → ¬ ∃ x, p.Feasible x) := by
  obtain ⟨t, c, ht, hlast, hselect, hentry⟩ := exists_of_solve_unbounded hp h hending
  refine ⟨t, hlast, fun hart => ⟨_, feasible_variableValue hp ht hart⟩, ?_⟩
  rintro hrule hart ⟨x, hx⟩
  have hopt : t.IsPenaltyOptimal := by
    rcases hrule with rfl | hopt
    · exact ht.isPenaltyOptimal_of_steepest hselect hentry
    · exact hopt
  exact not_stillArtificial_of_feasible hp ht hopt hx hart

/-- A variable that improves the objective, under an equation that every value of it satisfies. -/
def freeColumn : Program := ⟨.maximize, [1], [], [], [⟨[0], .eq, 0⟩]⟩

/-- A variable that improves the objective, under an equation that no value of it satisfies. -/
def zeroColumn : Program := ⟨.maximize, [1], [], [], [⟨[0], .eq, 1⟩]⟩

/-- The artificial variable of the equation is still basic in the last tableau of both, once at zero. -/
theorem feasible_freeColumn :
    (∃ d t, solve .first 1 freeColumn = some (.ok d) ∧ d.ending = .failed (.unbounded 1) ∧
      d.steps.getLast? = some ⟨none, t⟩ ∧ (∃ r ∈ t.rows, r.IsArtificial) ∧ ¬ StillArtificial t ∧
      ∃ x, freeColumn.Feasible x) ∧
    ∃ d t, solve .steepest 1 zeroColumn = some (.ok d) ∧ d.ending = .failed (.unbounded 1) ∧
      d.steps.getLast? = some ⟨none, t⟩ ∧ StillArtificial t ∧ ¬ ∃ x, zeroColumn.Feasible x := by
  have hfree : (derivation? .first 1 freeColumn).any (fun d => decide (d.ending = .failed (.unbounded 1) ∧
      ∀ step ∈ d.steps, (∃ r ∈ step.tableau.rows, r.IsArtificial) ∧ ¬ StillArtificial step.tableau)) = true := by
    decide +kernel
  have hzero : (derivation? .steepest 1 zeroColumn).any (fun d => decide (d.ending = .failed (.unbounded 1) ∧
      ∀ step ∈ d.steps, StillArtificial step.tableau)) = true := by decide +kernel
  obtain ⟨d, hd, hdecide⟩ := (Option.any_eq_true _ _).mp hfree
  obtain ⟨d', hd', hdecide'⟩ := (Option.any_eq_true _ _).mp hzero
  obtain ⟨hending, hsteps⟩ := of_decide_eq_true hdecide
  obtain ⟨hending', hsteps'⟩ := of_decide_eq_true hdecide'
  rw [derivation?_eq_some_iff] at hd hd'
  obtain ⟨t, hlast, hfeasible, -⟩ := feasible_of_unbounded (p := freeColumn) rfl hd hending
  obtain ⟨t', hlast', -, hinfeasible⟩ := feasible_of_unbounded (p := zeroColumn) rfl hd' hending'
  obtain ⟨hbasic, hart⟩ := hsteps _ (List.mem_of_getLast? hlast)
  have hart' : StillArtificial t' := hsteps' _ (List.mem_of_getLast? hlast')
  exact ⟨⟨d, t, hd, hending, hlast, hbasic, hart, hfeasible hart⟩,
    d', t', hd', hending', hlast', hart', hinfeasible (.inl rfl) hart'⟩

/-- Not every program that is found unbounded has a feasible assignment. -/
theorem exists_unbounded_not_feasible : zeroColumn.Accepted ∧
    (∀ rule, ∃ d, solve rule 1 zeroColumn = some (.ok d) ∧ d.ending = .failed (.unbounded 1)) ∧
    ¬ ∃ x, zeroColumn.Feasible x := by
  refine ⟨rfl, fun rule => outcome_eq_some_iff.mp ?_, ?_⟩
  · cases rule <;> decide +kernel
  · rintro ⟨x, -, hx⟩
    have hequation := hx ⟨[0], .eq, 1⟩ (List.mem_singleton.mpr rfl)
    simp [Constraint.Holds, Relation.Holds, Constraint.left, weigh] at hequation

end ExactSimplex.Simplex
