import ExactSimplex.Proofs.Simplex.Record
import ExactSimplex.Proofs.Simplex.Result
import ExactSimplex.Proofs.Tableau.Rank

/-!
# The result and the constraints

As systems of equations over the decision and slack variables, the result and the slacked constraints are
equivalent. The rows of the result are linearly independent, so that exactly the redundant ones are gone:
what remains are as many as the rank of the constraints.
-/

namespace ExactSimplex.Simplex

variable {rule : Pricing} {limit : Nat} {p : Program} {t : Tableau} {d : Derivation}

/-- The result has the solutions of the slacked constraints, whatever the signs of the values. Its rows are
linearly independent, there are as many as the rank of the constraints, and no removal of a row has lost a
constraint. -/
theorem equivalent_of_solved (hp : p.Accepted) (h : solve rule limit p = some (.ok d))
    (hending : d.ending = .solved t) :
    t.columns.length = d.form.slacked.variableCount + 1 ∧
      (∀ x, t.Holds x ↔ d.form.slacked.Tight x) ∧
      LinearIndependent Rat (t.coefficients d.form.slacked.variableCount).row ∧
      t.rows.length = d.form.slacked.coefficients.rank ∧
      ∀ i before after, .drop i before after ∈ d.moves →
        ∀ x, ZeroArtificials d.form.augmented x → (after.Holds x ↔ before.Holds x) := by
  obtain ⟨hwell, hcolumns, hiff⟩ := wellFormed_of_solved hp h hending
  have hlength : ∀ c ∈ p.slacked.constraints, c.coefficients.length = p.slacked.variableCount := by
    intro c hc
    rw [hp.length_slacked hc, hp.variableCount_slacked]
  have hshown := allRepresent_of_solve hp h
  rw [form_of_solve hp h]
  exact ⟨hcolumns, hiff, hwell.linearIndependent_row hcolumns,
    hwell.length_rows_eq_rank hcolumns hlength hiff, fun _ _ _ hdrop _ hx => holds_drop_iff hshown hdrop hx⟩

/-- The same equation twice, once with doubled numbers. -/
def doubled : Program := ⟨.maximize, [1, 2], [], [], [⟨[1, 1], .eq, 2⟩, ⟨[2, 2], .eq, 4⟩]⟩

theorem equivalent_doubled : ∃ d t, solve .steepest 4 doubled = some (.ok d) ∧ d.ending = .solved t ∧
    (∀ x, t.Holds x ↔ d.form.slacked.Tight x) ∧ d.form.slacked.constraints.length = 2 ∧
    d.form.slacked.coefficients.rank = 1 := by
  have hrun : (result? .steepest 4 doubled).any (fun t => decide (t.rows.length = 1)) = true := by
    decide +kernel
  obtain ⟨t, hresult, hrows⟩ := (Option.any_eq_true _ _).mp hrun
  obtain ⟨d, hd, hending⟩ := outcome_eq_some_iff.mp (result?_eq_some_iff.mp hresult)
  obtain ⟨-, hiff, -, hrank, -⟩ := equivalent_of_solved (p := doubled) rfl hd hending
  have hform := form_of_solve (p := doubled) rfl hd
  refine ⟨d, t, hd, hending, hiff, ?_, hrank.symm.trans (of_decide_eq_true hrows)⟩
  rw [hform]
  rfl

end ExactSimplex.Simplex
