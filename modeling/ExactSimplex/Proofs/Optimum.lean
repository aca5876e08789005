import ExactSimplex.Program.Meaning
import ExactSimplex.Solution

/-!
# Optimal solutions

A solution is optimal among some assignments when it is one of them, tells its objective value, and none of
them has a better one. The values of a solution that is read from a tableau are those of the basic solution.
-/

namespace ExactSimplex

namespace Solution

/-- The value that a solution tells for each variable; a variable it does not mention is zero. -/
def assignment (s : Solution) : Assignment := fun j => (s.values.lookup (variableName j)).getD 0

/-- The solution is the best of the given assignments to the variables of a program. -/
structure Optimal (p : Program) (among : Assignment → Prop) (s : Solution) : Prop where
  member : among s.assignment
  objective : p.objectiveAt s.assignment = s.objectiveValue
  best : ∀ x, among x → ¬ p.sense.Better (p.objectiveAt x) s.objectiveValue

private theorem lookup_map_variableName (f : Nat → Rat) {js : List Nat} {j : Nat} (hj : j ∈ js) :
    (js.map fun i => (variableName i, f i)).lookup (variableName j) = some (f j) := by
  induction js with
  | nil => cases hj
  | cons i js ih =>
    rw [List.map_cons, List.lookup_cons]
    by_cases hij : j = i
    · simp [hij]
    · have hname : (variableName j == variableName i) = false := by
        simpa using fun heq => hij (variableName_injective heq)
      rw [hname]
      exact ih ((List.mem_cons.mp hj).resolve_left hij)

/-- A solution is read from a tableau exactly when the objective value does not contain `M`. -/
theorem ofTableau_eq_ok_iff {t : Tableau} {decisions : Nat} {s : Solution} :
    ofTableau t decisions = .ok s ↔ t.objectiveValue.IsFinite ∧
      s = ⟨t.objectiveValue.finite,
        (List.range' 1 decisions).map fun j => (variableName j, t.variableValue j)⟩ := by
  by_cases h : t.objectiveValue.IsFinite
  · simp only [ofTableau, h, if_true, Except.ok.injEq, true_and]
    exact eq_comm
  · simp only [ofTableau, h, if_false, reduceCtorEq, false_and]

/-- The value told for a decision variable is its value in the basic solution. -/
theorem assignment_ofTableau {t : Tableau} {decisions j : Nat} {s : Solution}
    (h : ofTableau t decisions = .ok s) (hpos : 0 < j) (hj : j ≤ decisions) :
    s.assignment j = t.variableValue j := by
  obtain ⟨-, rfl⟩ := ofTableau_eq_ok_iff.mp h
  have hmem : j ∈ List.range' 1 decisions := by
    rw [List.mem_range'_1]
    omega
  rw [assignment, lookup_map_variableName t.variableValue hmem]
  rfl

/-- What holds of the values of all decision variables holds of the values that a solution tells. -/
theorem forall_mem_values_ofTableau {t : Tableau} {decisions : Nat} {s : Solution} {P : Rat → Prop}
    (h : ofTableau t decisions = .ok s) (hP : ∀ j, 0 < j → j ≤ decisions → P (t.variableValue j)) :
    ∀ v ∈ s.values, P v.2 := by
  obtain ⟨-, rfl⟩ := ofTableau_eq_ok_iff.mp h
  intro v hv
  obtain ⟨j, hj, rfl⟩ := List.mem_map.mp hv
  rw [List.mem_range'_1] at hj
  exact hP j (by omega) (by omega)

end Solution

end ExactSimplex
