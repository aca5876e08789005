import ExactSimplex.Program.Basis
import ExactSimplex.Tableau.Pivot

/-!
# The tableau of a program

Every constraint is read as an equation and becomes a row, headed by the variable that is to be basic in
it. A starting basis names these variables by their columns; rows that fell back on a decision variable
are pivoted on it, since its column need not be a unit vector.
-/

namespace ExactSimplex.Tableau

/-- The column of right-hand sides, then one column for each variable. -/
def columnsOf (p : Program) : List Column :=
  ⟨columnName 0, none⟩ :: p.costs.mapIdx fun j cost => ⟨columnName (j + 1), some cost⟩

/-- The tableau of a program with one basic variable for each constraint, given by its column. -/
def ofProgram (p : Program) (basis : List Nat) : Except Fault Tableau :=
  if basis.length ≠ p.constraints.length then .error .basisLength
  else if ∃ j ∈ basis, j = 0 ∨ p.variableCount < j then .error .basisColumn
  else
    make p.sense (basis.map fun j => (variableName j, p.costs[j - 1]?.getD 0)) (columnsOf p)
      (p.constraints.map fun c => c.bound :: c.coefficients)

/-- The tableau of a program in which the variables of a starting basis are basic. -/
def ofBasis (p : Program) (basis : Basis) : Except Fault Tableau := do
  let t ← ofProgram p basis.columns
  basis.fallback.foldlM (fun t i => t.pivot i (basis.columns[i]?.getD 0)) t

end ExactSimplex.Tableau
