import ExactSimplex.Proofs.Simplex.Totality
import ExactSimplex.Proofs.Tableau.RowSpace

/-!
# The first basis

The scan for a starting basis sees coefficients only, and the columns of surplus variables have a single entry too.
It finds the slack variable of every row that is `<=` and the artificial variable of every other one, so that the
first tableau is read off without a pivot. No right-hand side is negative, and the first basic solution is feasible.
-/

namespace ExactSimplex

/-- The column of the slack variable of constraint `i`: the variables that were there before and the slack variables
of the constraints in front come before it. -/
def StandardForm.slackColumn (form : StandardForm) (i : Nat) : Nat :=
  1 + form.canonical.variableCount + Program.columnPlace Relation.slack? form.canonical.constraints i

/-- The column of the artificial variable of constraint `i`: the variables that were there before and the artificial
variables of the constraints in front come before it. -/
def StandardForm.artificialColumn (form : StandardForm) (i : Nat) : Nat :=
  1 + form.slacked.variableCount + Program.columnPlace Relation.artificial? form.slacked.constraints i

namespace Program

variable {p : Program} {c : Constraint}

/-- The starting variable of a row stands in the column of its slack or artificial variable. -/
theorem Accepted.startPosition_add_one {form : StandardForm} (hp : p.Accepted) (hform : p.standardForm = .ok form)
    (i : Nat) (c : Constraint) :
    p.startPosition i c + 1 = if c.relation = .le then form.slackColumn i else form.artificialColumn i := by
  cases (standardForm_eq hp.artificials_eq).symm.trans hform
  have hcanonical : p.canonicalize.variableCount = p.decisions := hp.variableCount_eq
  simp only [StandardForm.slackColumn, StandardForm.artificialColumn, hcanonical, hp.variableCount_slacked,
    startPosition]
  split <;> omega

end Program

namespace Simplex

variable {p : Program}

/-- The method always starts from a basis of unit columns. The basic variable of a row is the slack variable of its
constraint if that is `<=` in canonical form, and its artificial variable otherwise; these are different variables.
The tableau of the program on this basis has the unit vector of each row in the column of its basic variable, whose
reduced cost is zero, and is feasible. Every run is one from this tableau, which no pivot was made on, and none fails
for want of a basis. -/
theorem starts_from_unit_basis (hp : p.Accepted) : ∃ form columns t, p.standardForm = .ok form ∧
    form.augmented.initialBasis = .ok ⟨columns, []⟩ ∧ columns.length = p.constraints.length ∧
    (∀ i c, p.constraints[i]? = some c → columns[i]? =
      some (if c.canonical.relation = .le then form.slackColumn i else form.artificialColumn i)) ∧
    columns.Nodup ∧ Tableau.ofProgram form.augmented columns = .ok t ∧ t.rows.length = p.constraints.length ∧
    (∀ i j, columns[i]? = some j → (∀ k, t.entry k j = if k = i then 1 else 0) ∧ t.reducedCost j = 0) ∧
    t.IsFeasible ∧
    (∀ rule limit, solve rule limit p = (run (turn rule (firstArtificial form.augmented)) limit t).map fun r =>
      .ok ⟨form, List.zipWith (fun j c => (variableName j, c.bound)) columns form.augmented.constraints, r.1,
        finish (firstArtificial form.augmented) r.2⟩) ∧
    ∀ rule limit d, solve rule limit p = some (.ok d) → ∀ row, d.ending ≠ .failed (.noInitialBasis row) := by
  obtain ⟨columns, hinitial, hbasis, hunit, hposition⟩ := hp.exists_initialBasis
  have hlength := fun c (hc : c ∈ p.augmented.constraints) => hp.length_augmented hc
  have hbasic := fun i j (hj : columns[i]? = some j) => Tableau.basicIn_start hbasis hunit hj
  have hnames := (Tableau.wellFormed_start hbasis hunit hlength).names_nodup
  rw [Tableau.names_start hbasis] at hnames
  have hform := Program.standardForm_eq hp.artificials_eq
  refine ⟨_, columns, Tableau.start p.augmented columns, hform, hinitial, ?_, fun i c hc => ?_, hnames.of_map,
    Tableau.ofProgram_eq_start hbasis hunit hlength, ?_, fun i j hj => ⟨(hbasic i j hj).entry_eq, ?_⟩,
    Tableau.isFeasible_start hbasis fun _ => Program.bound_augmented_nonneg,
    fun rule limit => solve_eq_of_ofBasis hp hinitial (Tableau.ofBasis_eq_start hbasis hunit hlength),
    fun rule limit d hd row => ?_⟩
  · rw [hbasis, Program.length_constraints_augmented]
  · have hcanonical : p.canonicalize.constraints[i]? = some c.canonical := by
      rw [Program.canonicalize, List.getElem?_map, hc, Option.map_some]
    rw [hposition i _ hcanonical, hp.startPosition_add_one hform]
  · rw [Tableau.length_rows_start hbasis, Program.length_constraints_augmented]
  · exact (hbasic i j hj).reducedCost_eq_zero
  · obtain ⟨d', heq, hending⟩ := ending_of_solve hp hd
    cases heq
    rcases hending with ⟨t, hsolved⟩ | hinfeasible | ⟨j, hunbounded⟩
    · simp [hsolved]
    · simp [hinfeasible]
    · simp [hunbounded]

/-- All relations, with negative right-hand sides that change two of them. -/
def crossed : Program where
  sense := .maximize
  objective := [1, 1]
  slackCosts := []
  artificialCosts := []
  constraints := [⟨[-1, -1], .eq, -4⟩, ⟨[1, -1], .ge, -2⟩, ⟨[-1, 0], .le, -1⟩, ⟨[1, 0], .le, 3⟩]

theorem starts_crossed : crossed.Accepted ∧ ∃ form t, crossed.standardForm = .ok form ∧
    form.augmented.initialBasis = .ok ⟨[6, 3, 7, 5], []⟩ ∧
    Tableau.ofProgram form.augmented [6, 3, 7, 5] = .ok t ∧ t.IsFeasible ∧
    ∀ k, t.entry k 7 = if k = 2 then 1 else 0 := by
  have haccepted : crossed.Accepted := rfl
  obtain ⟨form, columns, t, hform, hinitial, -, -, -, htableau, -, hunit, hfeasible, -⟩ :=
    starts_from_unit_basis haccepted
  cases hform
  have hcolumns : columns = [6, 3, 7, 5] := by
    have hscan := hinitial.symm.trans (show _ = Except.ok ⟨[6, 3, 7, 5], []⟩ by decide +kernel)
    cases hscan
    rfl
  subst hcolumns
  exact ⟨haccepted, _, t, rfl, hinitial, htableau, hfeasible, (hunit 2 7 rfl).1⟩

end Simplex

end ExactSimplex
