import ExactSimplex.Cost.Basic

/-!
# Linear programs

A linear program asks for the best value of a linear objective over all nonnegative assignments that
satisfy a list of constraints, each of them one of `<=`, `>=` and `=`. Besides its decision variables it
has the slack and the artificial variables that were appended to it, each with a cost of its own; decision
variables come first, then the slack variables, then the artificial ones.
-/

namespace ExactSimplex

/-- The direction of optimization. -/
inductive Sense
  | maximize
  | minimize
  deriving DecidableEq, Repr

namespace Sense

/-- Where no direction is named, the objective is maximized. -/
instance : Inhabited Sense := ⟨.maximize⟩

/-- The cost of an artificial variable, which makes every assignment that uses it a bad one. -/
def artificialCost : Sense → Cost
  | .maximize => -Cost.large
  | .minimize => Cost.large

/-- A reduced cost promises a better objective if its variable enters the basis. -/
def Improving : Sense → Cost → Prop
  | .maximize, c => c.IsNegative
  | .minimize, c => c.IsPositive

instance (s : Sense) (c : Cost) : Decidable (s.Improving c) :=
  match s with
  | .maximize => inferInstanceAs (Decidable c.IsNegative)
  | .minimize => inferInstanceAs (Decidable c.IsPositive)

end Sense

/-- How the two sides of a constraint are related. -/
inductive Relation
  | le
  | ge
  | eq
  deriving DecidableEq, Repr

namespace Relation

/-- The relation between the negated sides. -/
def flip : Relation → Relation
  | .le => .ge
  | .ge => .le
  | .eq => .eq

/-- The coefficient of a slack variable, which takes up the difference of the sides of an inequality. -/
def slack? : Relation → Option Rat
  | .le => some 1
  | .ge => some (-1)
  | .eq => none

/-- The coefficient of an artificial variable, for a constraint whose slack alone gives no basic variable. -/
def artificial? : Relation → Option Rat
  | .le => none
  | .ge => some 1
  | .eq => some 1

end Relation

/-- A linear constraint, with one coefficient for each variable of its program. -/
structure Constraint where
  coefficients : List Rat
  relation : Relation
  /-- The right-hand side. -/
  bound : Rat
  deriving DecidableEq, Repr

/-- A linear program, with the variables that were appended to its decision variables. -/
structure Program where
  sense : Sense
  /-- The cost of each decision variable. -/
  objective : List Rat
  /-- The cost of each slack variable. -/
  slackCosts : List Rat
  /-- The cost of each artificial variable. -/
  artificialCosts : List Cost
  constraints : List Constraint
  deriving DecidableEq, Repr

/-- Why a description is not that of a linear program. -/
inductive ShapeError
  /-- There is no variable. -/
  | noVariables
  /-- There is no constraint. -/
  | noConstraints
  /-- A constraint has `found` coefficients where there are `expected` variables. -/
  | coefficientCount (constraint expected found : Nat)
  deriving DecidableEq, Repr

namespace Program

/-- How many decision variables there are. -/
def decisions (p : Program) : Nat := p.objective.length

/-- How many slack variables there are. -/
def slacks (p : Program) : Nat := p.slackCosts.length

/-- How many artificial variables there are. -/
def artificials (p : Program) : Nat := p.artificialCosts.length

/-- How many variables there are in all. -/
def variableCount (p : Program) : Nat := p.decisions + p.slacks + p.artificials

/-- The costs of all variables, in order. -/
def costs (p : Program) : List Cost :=
  p.objective.map Cost.ofRat ++ p.slackCosts.map Cost.ofRat ++ p.artificialCosts

/-- The variable at position `j` is artificial: it comes after the decision and slack variables. -/
def IsArtificial (p : Program) (j : Nat) : Prop := p.decisions + p.slacks ≤ j

instance (p : Program) (j : Nat) : Decidable (p.IsArtificial j) :=
  inferInstanceAs (Decidable (p.decisions + p.slacks ≤ j))

/-- There is exactly one cost for each variable. -/
@[simp] theorem length_costs (p : Program) : p.costs.length = p.variableCount := by
  simp [costs, variableCount, decisions, slacks, artificials, Nat.add_assoc]

/-- The program of a list of constraints over decision variables only. Every constraint must have one
coefficient for each of them; of several that do not, the first is reported. -/
def ofConstraints (sense : Sense) (objective : List Rat) (constraints : List Constraint) :
    Except ShapeError Program :=
  if objective = [] then .error .noVariables
  else if constraints = [] then .error .noConstraints
  else
    match constraints.findIdx? (fun c => c.coefficients.length ≠ objective.length) with
    | some i =>
      let found := (constraints[i]?.map (·.coefficients.length)).getD 0
      .error (.coefficientCount i objective.length found)
    | none => .ok ⟨sense, objective, [], [], constraints⟩

/-- A program is accepted exactly when it has a variable, a constraint and the right number of
coefficients everywhere. -/
theorem ofConstraints_eq_ok_iff {sense : Sense} {objective : List Rat} {constraints : List Constraint}
    {p : Program} :
    ofConstraints sense objective constraints = .ok p ↔
      (objective ≠ [] ∧ constraints ≠ [] ∧ ∀ c ∈ constraints, c.coefficients.length = objective.length) ∧
        p = ⟨sense, objective, [], [], constraints⟩ := by
  unfold ofConstraints
  by_cases ho : objective = []
  · simp [ho]
  by_cases hc : constraints = []
  · simp [ho, hc]
  simp only [ho, hc, if_false, ne_eq, not_false_eq_true, true_and]
  cases hi : constraints.findIdx? (fun c => c.coefficients.length ≠ objective.length) with
  | some i =>
    have hsome : (constraints.findIdx? (fun c => c.coefficients.length ≠ objective.length)).isSome = true := by
      rw [hi]; rfl
    rw [List.findIdx?_isSome, List.any_eq_true] at hsome
    obtain ⟨c, hmem, hne⟩ := hsome
    simp only [reduceCtorEq, false_iff, not_and]
    intro hall
    exact absurd (hall c hmem) (by simpa using hne)
  | none =>
    rw [List.findIdx?_eq_none_iff] at hi
    have hall : ∀ c ∈ constraints, c.coefficients.length = objective.length := by
      intro c hmem
      simpa using hi c hmem
    simp only [Except.ok.injEq]
    exact ⟨fun h => ⟨hall, h.symm⟩, fun h => h.2.symm⟩

end Program

end ExactSimplex
