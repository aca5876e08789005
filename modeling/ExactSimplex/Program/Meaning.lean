import ExactSimplex.Program.Standard

/-!
# The meaning of a linear program

An assignment gives every variable a value. A program means the set of assignments that satisfy it, and
the value that its objective takes on each of them; everything the solvers answer is a statement about
these two.
-/

namespace ExactSimplex

/-- A value for every variable: `x j` is the value of variable `xj`. -/
abbrev Assignment := Nat → Rat

/-- The sum of the coefficients times the values of the variables, of which `xk` is the first. -/
def weigh (x : Assignment) : (k : Nat) → List Rat → Rat
  | _, [] => 0
  | k, a :: as => a * x k + weigh x (k + 1) as

/-- Coefficients that follow others belong to the variables that follow. -/
theorem weigh_append (x : Assignment) (k : Nat) (as bs : List Rat) :
    weigh x k (as ++ bs) = weigh x k as + weigh x (k + as.length) bs := by
  induction as generalizing k with
  | nil => rw [List.nil_append, weigh, Rat.zero_add, List.length_nil, Nat.add_zero]
  | cons a as ih =>
    simp only [List.cons_append, weigh, ih, List.length_cons, Rat.add_assoc]
    rw [Nat.add_assoc, Nat.add_comm 1]

/-- Variables with coefficient zero do not count. -/
theorem weigh_replicate_zero (x : Assignment) (k n : Nat) : weigh x k (List.replicate n 0) = 0 := by
  induction n generalizing k with
  | zero => rfl
  | succ n ih => rw [List.replicate_succ, weigh, ih, Rat.zero_mul, Rat.zero_add]

/-- A single coefficient `v`, at place `i` among zeros, gives the multiple of its variable. -/
theorem weigh_set_replicate_zero (x : Assignment) (v : Rat) (k : Nat) {i n : Nat} (h : i < n) :
    weigh x k ((List.replicate n 0).set i v) = v * x (k + i) := by
  induction n generalizing k i with
  | zero => exact absurd h (Nat.not_lt_zero i)
  | succ n ih =>
    cases i with
    | zero => rw [List.replicate_succ, List.set_cons_zero, weigh, weigh_replicate_zero, Rat.add_zero, Nat.add_zero]
    | succ i =>
      rw [List.replicate_succ, List.set_cons_succ, weigh, ih (k + 1) (Nat.lt_of_succ_lt_succ h), Rat.zero_mul,
        Rat.zero_add, Nat.add_assoc, Nat.add_comm 1]

/-- No variable from `x1` to `xn` is negative. -/
def Nonnegative (n : Nat) (x : Assignment) : Prop := ∀ j, 0 < j → j ≤ n → 0 ≤ x j

/-- The two sides are related as the relation says. -/
def Relation.Holds : Relation → Rat → Rat → Prop
  | .le, a, b => a ≤ b
  | .ge, a, b => b ≤ a
  | .eq, a, b => a = b

/-- The first objective value is better than the second. -/
def Sense.Better : Sense → Rat → Rat → Prop
  | .maximize, a, b => b < a
  | .minimize, a, b => a < b

namespace Constraint

/-- The left-hand side under an assignment. -/
def left (c : Constraint) (x : Assignment) : Rat := weigh x 1 c.coefficients

/-- The assignment satisfies the constraint. -/
def Holds (c : Constraint) (x : Assignment) : Prop := c.relation.Holds (c.left x) c.bound

/-- The assignment satisfies the constraint as an equation. -/
def Tight (c : Constraint) (x : Assignment) : Prop := c.left x = c.bound

end Constraint

namespace Program

/-- The assignment satisfies all constraints. -/
def Holds (p : Program) (x : Assignment) : Prop := ∀ c ∈ p.constraints, c.Holds x

/-- The assignment satisfies all constraints as equations. -/
def Tight (p : Program) (x : Assignment) : Prop := ∀ c ∈ p.constraints, c.Tight x

/-- The assignment satisfies all constraints and is not negative. -/
def Feasible (p : Program) (x : Assignment) : Prop := Nonnegative p.variableCount x ∧ p.Holds x

/-- The objective value of an assignment to the decision variables. -/
def objectiveAt (p : Program) (x : Assignment) : Rat := weigh x 1 p.objective

/-- A program that was accepted from its description, with decision variables only. -/
def Accepted (p : Program) : Prop :=
  Program.ofConstraints p.sense p.objective p.constraints = .ok p

/-- A program that transformations lead to, from one that was accepted. -/
inductive Reachable : Program → Prop
  | accepted {p : Program} (h : p.Accepted) : Reachable p
  | transform {p p' : Program} (t : Transformation) (hp : Reachable p) (h : p.transform t = .ok p') :
      Reachable p'

/-- An accepted program has a variable, a constraint, and a coefficient for each variable everywhere. -/
theorem accepted_iff (p : Program) :
    p.Accepted ↔ p.objective ≠ [] ∧ p.constraints ≠ [] ∧
      (∀ c ∈ p.constraints, c.coefficients.length = p.objective.length) ∧ p.slacks = 0 ∧ p.artificials = 0 := by
  rw [Accepted, ofConstraints_eq_ok_iff]
  obtain ⟨sense, objective, slackCosts, artificialCosts, constraints⟩ := p
  simp only [Program.mk.injEq, true_and, and_true, slacks, artificials, List.length_eq_zero_iff]
  constructor
  · rintro ⟨⟨ho, hc, hl⟩, hs, ha⟩
    exact ⟨ho, hc, hl, hs, ha⟩
  · rintro ⟨ho, hc, hl, hs, ha⟩
    exact ⟨⟨ho, hc, hl⟩, hs, ha⟩

end Program

end ExactSimplex
