import ExactSimplex.Proofs.Cutting.Runs
import ExactSimplex.Proofs.Scaling.Cutting

/-!
# Both methods on a rescaled objective

The Simplex method and the cutting plane method after it work on a rescaled program as on the original one:
the same pivots and cuts in the same order, the same numbers in all tableaus, the same ending. Only the reduced
costs, and the ratios made of them, are multiplied.
-/

namespace ExactSimplex

variable {k : Rat} {p : Program}

/-! What corresponds. -/

/-- The second tableau has the numbers and the basic variables of the first. The finite parts of its reduced
costs are multiplied by the factor and the penalties by its sign. -/
structure Tableau.Proportional (k : Rat) (t t' : Tableau) : Prop where
  values : t'.rows.map (·.values) = t.rows.map (·.values)
  names : t'.names = t.names
  reducedCosts : t'.reducedCosts = t.reducedCosts.map fun c => ⟨factorSign k * c.penalty, k * c.finite⟩
  ratios : t'.ratios = t.ratios.map (Ratios.rescale k)

/-- The second step makes the same pivot on a proportional tableau. -/
structure Step.Proportional (k : Rat) (s s' : Step) : Prop where
  pivot : s'.pivot = s.pivot
  tableau : s.tableau.Proportional k s'.tableau

/-- The second derivation takes corresponding steps from the same basis to the corresponding ending. -/
structure Simplex.Derivation.Proportional (k : Rat) (d d' : Simplex.Derivation) : Prop where
  basis : d'.basis = d.basis
  steps : List.Forall₂ (Step.Proportional k) d.steps d'.steps
  ending : Ending.Corresponds (Tableau.Proportional k) d.ending d'.ending

namespace Cutting

/-- The second application applies the same cut by corresponding steps. -/
structure Application.Proportional (k : Rat) (a a' : Application) : Prop where
  source : a'.source = a.source
  cut : a'.cut = a.cut
  steps : List.Forall₂ (Step.Proportional k) a.steps a'.steps

/-- The second derivation makes the same cuts, with corresponding steps, and ends in the corresponding way. -/
structure Derivation.Proportional (k : Rat) (d d' : Derivation) : Prop where
  applications : List.Forall₂ (Application.Proportional k) d.applications d'.applications
  ending : Ending.Corresponds (Tableau.Proportional k) d.ending d'.ending

end Cutting

/-- A relation between values and their images holds throughout a list. -/
theorem forall₂_map_self {α β : Type} {R : α → β → Prop} {f : α → β} (h : ∀ a, R a (f a)) (l : List α) :
    List.Forall₂ R l (l.map f) :=
  List.forall₂_map_right_iff.mpr (List.forall₂_same.mpr fun a _ => h a)

theorem Tableau.proportional_rescale (k : Rat) (t : Tableau) : t.Proportional k (t.rescale k) :=
  ⟨t.values_rescale k, t.names_rescale k, t.reducedCosts_rescale k, rfl⟩

theorem Step.proportional_rescale (k : Rat) (s : Step) : s.Proportional k (s.rescale k) :=
  ⟨rfl, s.tableau.proportional_rescale k⟩

theorem Simplex.Derivation.proportional_rescale (k : Rat) (d : Simplex.Derivation) :
    d.Proportional k (d.rescale k) :=
  ⟨rfl, Simplex.steps_rescale k d ▸ forall₂_map_self (Step.proportional_rescale k) d.steps,
    Ending.corresponds_map (Tableau.proportional_rescale k) d.ending⟩

namespace Cutting

theorem Application.proportional_rescale (k : Rat) (a : Application) : a.Proportional k (a.rescale k) :=
  ⟨rfl, rfl, forall₂_map_self (Step.proportional_rescale k) a.steps⟩

theorem Derivation.proportional_rescale (k : Rat) (d : Derivation) : d.Proportional k (d.rescale k) := by
  have happlications : (d.rescale k).applications = d.applications.map (Application.rescale k) :=
    applications_rescale k d.moves
  refine ⟨?_, Ending.corresponds_map (Tableau.proportional_rescale k) d.ending⟩
  rw [happlications]
  exact forall₂_map_self (Application.proportional_rescale k) d.applications

end Cutting

/-! Runs that may go on. -/

namespace Simplex

theorem stepsWithin_rescale (hk : k ≠ 0) (rule : Pricing) (limit : Nat) (p : Program) :
    stepsWithin rule limit (p.rescale k) = (stepsWithin rule limit p).map (Step.rescale k) := by
  rw [stepsWithin, stepsWithin, Program.standardForm_rescale]
  cases p.standardForm with
  | error fault => rfl
  | ok form =>
    simp only [Except.map, Program.initialBasis_rescale]
    cases form.augmented.initialBasis with
    | error failure => rfl
    | ok basis =>
      simp only [Tableau.ofBasis_rescale, firstArtificial_rescale]
      cases Tableau.ofBasis form.augmented basis with
      | error fault => rfl
      | ok t =>
        simp only [Except.map, movesWithin_map (turn_rescale hk rule _), List.filterMap_map,
          List.map_filterMap]
        exact List.filterMap_congr fun move _ => move.step?_rescale k

end Simplex

namespace Cutting

theorem applicationsWithin_rescale (hk : k ≠ 0) (decisions limit : Nat) (t : Tableau) :
    applicationsWithin decisions limit (t.rescale k) =
      (applicationsWithin decisions limit t).map (Application.rescale k) := by
  have hmoves := movesWithin_map (turn_rescale hk decisions) limit ⟨t, 0⟩
  rw [applicationsWithin, applicationsWithin, ← applications_rescale, ← hmoves]
  rfl

end Cutting

/-! Both methods. -/

theorem Program.Accepted.rescale (k : Rat) (hp : p.Accepted) : (p.rescale k).Accepted := by
  rw [accepted_iff] at hp ⊢
  obtain ⟨hobjective, hconstraints, hlength, hslacks, hartificials⟩ := hp
  rw [slacks_rescale, artificials_rescale]
  refine ⟨?_, hconstraints, fun c hc => ?_, hslacks, hartificials⟩
  · exact mt List.map_eq_nil_iff.mp hobjective
  · exact (hlength c hc).trans (List.length_map ..).symm

/-- With the costs multiplied by a factor that is not zero, and the direction reversed if it is negative, the
Simplex method makes the same pivots on proportional tableaus and ends in the same way, or also goes on. On the
results of both runs, so does the cutting plane method, with the same cuts. -/
theorem proportional_of_rescale (hp : p.Accepted) (hk : k ≠ 0) (rule : Pricing) (limit : Nat) :
    (p.rescale k).Accepted ∧
    List.Forall₂ (Step.Proportional k) (Simplex.stepsWithin rule limit p)
      (Simplex.stepsWithin rule limit (p.rescale k)) ∧
    (Simplex.solve rule limit (p.rescale k) = none ↔ Simplex.solve rule limit p = none) ∧
    ∀ d, Simplex.solve rule limit p = some (.ok d) →
      d.steps = Simplex.stepsWithin rule limit p ∧
      ∃ d', Simplex.solve rule limit (p.rescale k) = some (.ok d') ∧ d.Proportional k d' ∧
        ∀ t t', d.ending = .solved t → d'.ending = .solved t' → ∀ limit',
          List.Forall₂ (Cutting.Application.Proportional k) (Cutting.applicationsWithin p.decisions limit' t)
            (Cutting.applicationsWithin (p.rescale k).decisions limit' t') ∧
          (Cutting.solve (p.rescale k).decisions limit' t' = none ↔ Cutting.solve p.decisions limit' t = none) ∧
          ∀ c, Cutting.solve p.decisions limit' t = some c →
            c.applications = Cutting.applicationsWithin p.decisions limit' t ∧
            ∃ c', Cutting.solve (p.rescale k).decisions limit' t' = some c' ∧ c.Proportional k c' := by
  have hsolve := Simplex.solve_rescale hk rule limit p
  refine ⟨hp.rescale k, ?_, ?_, fun d hd => ⟨Simplex.steps_eq_stepsWithin hd, ?_⟩⟩
  · rw [Simplex.stepsWithin_rescale hk]
    exact forall₂_map_self (Step.proportional_rescale k) _
  · rw [hsolve, Option.map_eq_none_iff]
  rw [hd] at hsolve
  refine ⟨d.rescale k, hsolve, d.proportional_rescale k, fun t t' ht ht' limit' => ?_⟩
  -- The result of the second run is the rescaled result of the first.
  obtain rfl : t.rescale k = t' := by
    rw [Simplex.Derivation.rescale, ht] at ht'
    exact Ending.solved.inj ht'
  have hcutting := Cutting.solve_rescale hk p.decisions limit' t
  rw [Program.decisions_rescale]
  refine ⟨?_, ?_, fun c hc => ⟨Cutting.applications_eq_applicationsWithin hc, ?_⟩⟩
  · rw [Cutting.applicationsWithin_rescale hk]
    exact forall₂_map_self (Cutting.Application.proportional_rescale k) _
  · rw [hcutting, Option.map_eq_none_iff]
  · rw [hc] at hcutting
    exact ⟨c.rescale k, hcutting, c.proportional_rescale k⟩

/-- Filling at least three and a half crates of two sizes, of which a large one costs three. -/
def crates : Program := ⟨.minimize, [1, 3], [], [], [⟨[2, 4], .ge, 7⟩, ⟨[1, 0], .le, 2⟩]⟩

/-- The costs of the crates as losses, counted double. -/
theorem proportional_crates : ∃ d t c d' t' c',
    Simplex.solve .steepest 6 crates = some (.ok d) ∧ d.ending = .solved t ∧ 2 ≤ d.steps.length ∧
    Cutting.solve crates.decisions 10 t = some c ∧ c.applications ≠ [] ∧
    Simplex.solve .steepest 6 (crates.rescale (-2)) = some (.ok d') ∧ d'.ending = .solved t' ∧
    d.Proportional (-2) d' ∧ Cutting.solve (crates.rescale (-2)).decisions 10 t' = some c' ∧
    c.Proportional (-2) c' := by
  have hrun : (Simplex.derivation? .steepest 6 crates).any (fun d => decide (2 ≤ d.steps.length)) = true ∧
      (Cutting.derivation? .steepest 6 10 crates).any (fun c => decide (c.applications ≠ [])) = true := by
    decide +kernel
  obtain ⟨e, he, hsteps⟩ := (Option.any_eq_true _ _).mp hrun.1
  obtain ⟨c, hc, happlications⟩ := (Option.any_eq_true _ _).mp hrun.2
  obtain ⟨d, t, hd, hending, hcutting⟩ := Cutting.derivation?_eq_some_iff.mp hc
  obtain rfl : e = d := by
    rw [Simplex.derivation?_eq_some_iff.mp he] at hd
    cases hd
    rfl
  obtain ⟨-, -, -, hended⟩ := proportional_of_rescale (p := crates) (k := -2) rfl (by decide) .steepest 6
  obtain ⟨-, d', hd', hproportional, hcuts⟩ := hended e hd
  have hsame := hproportional.ending
  rw [hending] at hsame
  generalize hending' : d'.ending = ending' at hsame
  cases hsame with
  | @solved _ t' _ =>
    obtain ⟨-, -, hcut⟩ := hcuts t t' hending hending' 10
    obtain ⟨-, c', hc', hcproportional⟩ := hcut c hcutting
    exact ⟨e, t, c, d', t', c', hd, hending, of_decide_eq_true hsteps, hcutting, of_decide_eq_true happlications,
      hd', hending', hproportional, hc', hcproportional⟩

end ExactSimplex
