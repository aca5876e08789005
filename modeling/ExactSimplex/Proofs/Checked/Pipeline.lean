import ExactSimplex.Proofs.Checked.Cutting
import ExactSimplex.Proofs.Checked.Simplex
import ExactSimplex.Proofs.Optimum

/-!
# The pipeline finds all it reads

A program is solved, its solution is read from the optimal tableau, cuts are added to this tableau until the
decision variables are whole, and a solution is read from the last tableau of the record. The method that solves
the program gives the start of this to the tableaus of the augmented program, its result is a tableau of the
relaxation, and so is each that the cutting plane method shows. On all of these the checks of every stage pass.
-/

namespace ExactSimplex

variable {p : Program} {decisions limit limit' : Nat} {cuts : List Cut} {t last : Tableau}

namespace Cutting

/-- The tableau at the end of the record has the cuts of all applications. -/
theorem mem_shown_of_last? {d : Derivation} (h : d.last? = some last) :
    (d.applications.map (·.cut), last) ∈ shown [] d.moves := by
  obtain ⟨a, ha, hlast⟩ := Option.bind_eq_some_iff.mp h
  obtain ⟨step, hstep, rfl⟩ := Option.map_eq_some_iff.mp hlast
  obtain ⟨front, happlications⟩ := List.getLast?_eq_some_iff.mp ha
  rw [happlications, List.map_append]
  exact mem_shown_of_applications happlications (List.mem_of_getLast? hstep)

/-- A run on a tableau of the relaxation ends its record with one. -/
theorem Relaxes.of_last? {d : Derivation} (ht : Relaxes p [] t) (h : solve decisions limit t = some d)
    (hlast : d.last? = some last) : Relaxes p (d.applications.map (·.cut)) last :=
  (kept_relaxes p).solve ht h _ (mem_shown_of_last? hlast)

/-- All that a solution tells can be read from a tableau of the relaxation. -/
theorem Relaxes.exists_checkedOfTableau (h : Relaxes p cuts t) (decisions : Nat) :
    ∃ s, Solution.checkedOfTableau t decisions = .ok s := by
  rw [h.wellFormed.checkedOfTableau_eq]
  exact ⟨_, Solution.ofTableau_eq_ok_iff.mpr ⟨h.isFinite_objectiveValue, rfl⟩⟩

end Cutting

/-- No stage of the pipeline meets a fault on an accepted program.

A fault ends the run of a method with all checks, and is then its answer. With every number of turns these methods
give what those without checks give, and no answer is a fault; so neither does a run that does not end meet one. -/
theorem faultless_of_accepted (hp : p.Accepted) (rule : Pricing) (limit limit' : Nat) :
    Simplex.checkedSolve rule limit p = Simplex.solve rule limit p ∧
    ∀ answer, Simplex.checkedSolve rule limit p = some answer →
      ∃ d, answer = .ok d ∧ (∀ fault, d.ending ≠ .fault fault) ∧
        ∀ t, d.ending = .solved t →
          (∃ s, Solution.checkedOfTableau t p.decisions = .ok s) ∧
          Cutting.checkedSolve p.decisions limit' t = Cutting.solve p.decisions limit' t ∧
          ∀ c, Cutting.checkedSolve p.decisions limit' t = some c →
            (∀ fault, c.ending ≠ .fault fault) ∧
            ∀ last, c.last? = some last → ∃ s, Solution.checkedOfTableau last p.decisions = .ok s := by
  have hsimplex := Simplex.checkedSolve_eq hp rule limit
  refine ⟨hsimplex, fun answer hanswer => ?_⟩
  rw [hsimplex] at hanswer
  obtain ⟨d, rfl, hending⟩ := Simplex.ending_of_solve hp hanswer
  refine ⟨d, rfl, fun fault hfault => ?_, fun t hsolved => ?_⟩
  · rcases hending with ⟨t, h⟩ | h | ⟨j, h⟩ <;> cases hfault.symm.trans h
  · have ht := Cutting.relaxes_of_solved hp hanswer hsolved
    have hfeasible := Simplex.isFeasible_of_solved hp hanswer hsolved
    have hcutting := Cutting.checkedSolve_eq ht p.decisions limit'
    refine ⟨ht.exists_checkedOfTableau p.decisions, hcutting, fun c hc => ?_⟩
    rw [hcutting] at hc
    exact ⟨ht.ending_ne_fault hfeasible hc, fun last hlast => (ht.of_last? hc hlast).exists_checkedOfTableau _⟩

/-- An equation that is told twice. -/
def toldTwice : Program := ⟨.maximize, [1, 0], [], [], [⟨[2, 1], .eq, 3⟩, ⟨[2, 1], .eq, 3⟩]⟩

theorem faultless_toldTwice : ∃ d t c last s s', Simplex.checkedSolve .steepest 6 toldTwice = some (.ok d) ∧
    d.ending = .solved t ∧ Solution.checkedOfTableau t toldTwice.decisions = .ok s ∧
    Cutting.checkedSolve toldTwice.decisions 6 t = some c ∧ c.last? = some last ∧
    Solution.checkedOfTableau last toldTwice.decisions = .ok s' := by
  have hrun : (Cutting.derivation? .steepest 6 6 toldTwice).any (fun c => c.last?.isSome) = true := by
    decide +kernel
  obtain ⟨c, hc, hlast⟩ := (Option.any_eq_true _ _).mp hrun
  obtain ⟨last, hlast⟩ := Option.isSome_iff_exists.mp hlast
  obtain ⟨d, t, hd, hsolved, hcutting⟩ := Cutting.derivation?_eq_some_iff.mp hc
  obtain ⟨hsimplex, hanswers⟩ := faultless_of_accepted (p := toldTwice) rfl .steepest 6 6
  rw [← hsimplex] at hd
  obtain ⟨d', hd', -, hstages⟩ := hanswers _ hd
  cases hd'
  obtain ⟨⟨s, hs⟩, hequal, hrest⟩ := hstages t hsolved
  rw [← hequal] at hcutting
  obtain ⟨s', hs'⟩ := (hrest c hcutting).2 last hlast
  exact ⟨d, t, c, last, s, s', hd, hsolved, hs, hcutting, hlast, hs'⟩

end ExactSimplex
