import ExactSimplex.Proofs.Simplex.Certificate

/-!
# The result of the Simplex method

The result is the tableau of the last turn without its artificial columns. No artificial variable is basic
in it, so all basic variables keep their columns, and the result has the solutions of the slacked equations.
-/

namespace ExactSimplex.Simplex

variable {rule : Pricing} {limit i j : Nat} {p : Program} {t t' : Tableau} {d : Derivation}

section

variable (ht : Represents p.augmented t) (hfinite : ∀ r ∈ t.rows, ¬ r.IsArtificial)
  (htruncate : t.truncate (firstArtificial p.augmented) = .ok t')

include ht hfinite in
/-- Where no row is artificial, all basic variables stand in front of the artificial columns. -/
theorem lt_firstArtificial_of_basicIn (hb : t.BasicIn i j) : j < firstArtificial p.augmented := by
  obtain ⟨r, hr, -⟩ := hb.exists_row
  have hfront := mt (ht.isArtificial_iff hb hr).mpr (hfinite r (List.mem_of_getElem? hr))
  unfold firstArtificial
  omega

include ht htruncate in
/-- The columns that are kept cost what their variables cost in the objective. -/
theorem price_truncate_firstArtificial (hpos : 0 < j) (hlt : j < t'.columns.length) :
    t'.price j = Cost.ofRat (p.objective[j - 1]?.getD 0) := by
  rw [Tableau.length_columns_truncate htruncate] at hlt
  rw [Tableau.price_truncate htruncate hlt]
  by_cases hdecision : j ≤ p.augmented.decisions
  · rw [Tableau.price_decision ht.columns hpos hdecision, Program.objective_augmented]
  · have hnone : p.objective[j - 1]? = none := by
      rw [Program.decisions_augmented, Program.decisions] at hdecision
      exact List.getElem?_eq_none (by omega)
    unfold firstArtificial at hlt
    rw [Tableau.price_slack ht.priced ht.columns (by omega) (by omega), hnone]
    rfl

include ht htruncate in
/-- Without its artificial columns a tableau has the solutions of the slacked equations. -/
theorem holds_truncate_firstArtificial (hp : p.Accepted) (hwell : t'.WellFormed) (x : Assignment) :
    t'.Holds x ↔ p.slacked.Tight x := by
  have hlength := Tableau.length_columns_truncate htruncate
  -- The equations concern the kept columns only, so the other variables may be taken to be zero.
  set y : Assignment := fun j => if j < firstArtificial p.augmented then x j else 0 with hy
  have hyx : ∀ j, j < firstArtificial p.augmented → x j = y j := fun j hj => (if_pos hj).symm
  have hyzero : ∀ j, firstArtificial p.augmented ≤ j → y j = 0 := fun j hj => if_neg (by omega)
  have hartificials : ZeroArtificials p.augmented y := fun j hj => hyzero j (by
    unfold firstArtificial
    omega)
  calc t'.Holds x
      ↔ t'.Holds y := Tableau.holds_congr hwell.rectangular fun j _ hj => hyx j (hlength ▸ hj)
    _ ↔ t.Holds y := Tableau.holds_truncate ht.wellFormed.rectangular hwell.rectangular htruncate hyzero
    _ ↔ p.augmented.Tight y := ht.holds_iff y hartificials
    _ ↔ p.slacked.Tight y := hp.tight_augmented_iff hartificials
    _ ↔ p.slacked.Tight x := hp.tight_slacked_congr fun j _ hj => (hyx j (by
        rw [firstArtificial, Program.decisions_augmented, Program.slacks_augmented]
        omega)).symm

include ht hfinite htruncate in
/-- Without its artificial columns the tableau is well formed. -/
theorem wellFormed_truncate_firstArtificial : t'.WellFormed :=
  ht.wellFormed.truncate htruncate fun _ _ => lt_firstArtificial_of_basicIn ht hfinite

end

/-- A solved run has worked on the standard form of its program. -/
theorem form_of_solve (hp : p.Accepted) (h : solve rule limit p = some (.ok d)) :
    d.form = ⟨p.canonicalize, p.slacked, p.augmented⟩ := by
  obtain ⟨d', heq, hform⟩ := exists_derivation_of_solve hp.artificials_eq h
  cases heq
  exact hform

/-- The result is a well-formed tableau over the variables of the slacked program, with the solutions of its
equations. -/
theorem wellFormed_of_solved (hp : p.Accepted) (h : solve rule limit p = some (.ok d))
    (hending : d.ending = .solved t) : t.WellFormed ∧ t.columns.length = p.slacked.variableCount + 1 ∧
      ∀ x, t.Holds x ↔ p.slacked.Tight x := by
  obtain ⟨t', ht', -, hfinite, htruncate⟩ := exists_of_solve_solved hp h hending
  have hwell := wellFormed_truncate_firstArtificial ht' hfinite htruncate
  refine ⟨hwell, ?_, holds_truncate_firstArtificial ht' htruncate hp hwell⟩
  rw [Tableau.length_columns_truncate htruncate, firstArtificial, hp.variableCount_slacked,
    Program.decisions_augmented, Program.slacks_augmented]
  omega

/-- The result is feasible. -/
theorem isFeasible_of_solved (hp : p.Accepted) (h : solve rule limit p = some (.ok d))
    (hending : d.ending = .solved t) : t.IsFeasible := by
  obtain ⟨t', ht', -, -, htruncate⟩ := exists_of_solve_solved hp h hending
  exact ht'.feasible.truncate htruncate

end ExactSimplex.Simplex
