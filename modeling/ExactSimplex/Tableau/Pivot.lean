import ExactSimplex.Tableau.Basic

/-!
# Exchanging a basic variable

A pivot divides its row by the pivot element and subtracts the divided row from every other one as often
as clears the pivot column. The variable of the column is basic afterwards, in place of the one that had
the row.
-/

namespace ExactSimplex

/-- A position to pivot on. -/
structure Pivot where
  /-- The row of the variable that leaves the basis. -/
  row : Nat
  /-- The column of the variable that enters the basis. -/
  column : Nat
  deriving DecidableEq, Repr

/-- The row divided by its entry in column `j`. -/
def Row.normalized (r : Row) (j : Nat) : List Rat := r.values.map (· / r.entry j)

/-- The row less a multiple of `source` that clears its entry in column `j`. -/
def Row.eliminate (r : Row) (j : Nat) (source : List Rat) : Row :=
  { r with values := List.zipWith (fun v s => v - r.entry j * s) r.values source }

namespace Tableau

/-- The tableau in which the variable of column `j` has taken row `i`, which was `leaving`. -/
def exchange (t : Tableau) (i j : Nat) (leaving : Row) : Tableau :=
  let source := leaving.normalized j
  { t with
    rows := (t.rows.map (·.eliminate j source)).set i ⟨variableName j, t.price j, source⟩
    ratios := none
    index := (t.index.erase leaving.name).insert (variableName j) i }

/-- Exchanges the basic variable of a row for that of a column, on an element that is not zero. -/
def pivot (t : Tableau) (i j : Nat) : Except Fault Tableau :=
  match t.rows[i]? with
  | none => .error .noRow
  | some leaving =>
    if j = 0 ∨ t.columns.length ≤ j then .error .noColumn
    else if leaving.entry j = 0 then .error .zeroPivot
    else .ok (t.exchange i j leaving)

/-- A pivot is made exactly on an element that exists, belongs to a variable and is not zero. -/
theorem pivot_eq_ok_iff {t t' : Tableau} {i j : Nat} :
    t.pivot i j = .ok t' ↔
      ∃ leaving, t.rows[i]? = some leaving ∧ 0 < j ∧ j < t.columns.length ∧ leaving.entry j ≠ 0 ∧
        t' = t.exchange i j leaving := by
  unfold pivot
  cases h : t.rows[i]? with
  | none => simp
  | some leaving =>
    simp only [Option.some.injEq, exists_eq_left']
    by_cases hj : j = 0 ∨ t.columns.length ≤ j
    · simp only [hj, if_true, reduceCtorEq, false_iff]
      omega
    · by_cases hz : leaving.entry j = 0
      · simp [hj, hz]
      · simp only [hj, hz, if_false, Except.ok.injEq, ne_eq, not_false_eq_true, true_and]
        constructor
        · rintro rfl
          exact ⟨by omega, by omega, rfl⟩
        · exact fun h => h.2.2.symm

end Tableau

end ExactSimplex
