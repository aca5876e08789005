import ExactSimplex.Simplex.Move
import ExactSimplex.Tableau.Resize

/-!
# Expelling artificial variables

When no variable improves the objective any more, artificial variables may still be basic at zero. One
pass over the rows from the top exchanges each of them for the first variable in its row that is not
artificial. A row without such a variable says nothing about the others, and is removed.
-/

namespace ExactSimplex

/-- The basic variable of the row is artificial: it costs a multiple of the large constant. -/
def Row.IsArtificial (r : Row) : Prop := ¬ r.cost.IsFinite

instance (r : Row) : Decidable r.IsArtificial := inferInstanceAs (Decidable (¬ r.cost.IsFinite))

namespace Simplex

/-- The first column in front of `first` in which the row is not zero. -/
def expellingColumn? (first : Nat) (r : Row) : Option Nat :=
  (List.range' 1 (first - 1)).find? fun j => r.entry j ≠ 0

/-- Expels the artificial variables from `count` rows, beginning with row `i`; the artificial columns begin
with column `first`. A removed row leaves its place to the row below. -/
def sweep (first : Nat) : (count i : Nat) → Tableau → List Move × Except Fault Tableau
  | 0, _, t => ([], .ok t)
  | count + 1, i, t =>
    match t.rows[i]? with
    | none => ([], .ok t)
    | some r =>
      if r.IsArtificial then
        match expellingColumn? first r with
        | some j =>
          match t.pivot i j with
          | .error fault => ([], .error fault)
          | .ok t' =>
            let rest := sweep first count (i + 1) t'
            (.expel ⟨i, j⟩ t t' :: rest.1, rest.2)
        | none =>
          match t.removeRow i with
          | .error fault => ([], .error fault)
          | .ok t' =>
            let rest := sweep first count i t'
            (.drop i t t' :: rest.1, rest.2)
      else sweep first count (i + 1) t

end Simplex

end ExactSimplex
