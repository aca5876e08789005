import ExactSimplex.Fault
import ExactSimplex.Program.Basic

/-!
# Bringing a program into standard form

Three transformations lead to a program in which every constraint has a unit column: make all right-hand
sides nonnegative, append a slack variable to every inequality, append an artificial variable to every
constraint that is not `<=`.
-/

namespace ExactSimplex

/-- The constraint with both sides negated. -/
def Constraint.negate (c : Constraint) : Constraint :=
  ⟨c.coefficients.map (- ·), c.relation.flip, -c.bound⟩

/-- The constraint with a nonnegative right-hand side. -/
def Constraint.canonical (c : Constraint) : Constraint :=
  if c.bound < 0 then c.negate else c

namespace Program

/-- All right-hand sides are nonnegative. -/
def IsCanonical (p : Program) : Prop := ∀ c ∈ p.constraints, ¬ c.bound < 0

instance (p : Program) : Decidable p.IsCanonical :=
  inferInstanceAs (Decidable (∀ c ∈ p.constraints, ¬ c.bound < 0))

/-- Negates every constraint whose right-hand side is negative. -/
def canonicalize (p : Program) : Program :=
  { p with constraints := p.constraints.map Constraint.canonical }

/-- How many constraints have a negative right-hand side. -/
def negatives (p : Program) : Nat := p.constraints.countP fun c => c.bound < 0

/-- Appends one column for each constraint that `entry` gives a coefficient. Of the `count` new columns,
the constraints in front have taken the first `used`. -/
def appendColumns (entry : Relation → Option Rat) (count : Nat) : Nat → List Constraint → List Constraint
  | _, [] => []
  | used, c :: cs =>
    match entry c.relation with
    | some v =>
      { c with coefficients := c.coefficients ++ (List.replicate count 0).set used v } ::
        appendColumns entry count (used + 1) cs
    | none =>
      { c with coefficients := c.coefficients ++ List.replicate count 0 } ::
        appendColumns entry count used cs

/-- How many constraints `entry` gives a coefficient. -/
def columnsFor (entry : Relation → Option Rat) (p : Program) : Nat :=
  p.constraints.countP fun c => (entry c.relation).isSome

/-- Appends a slack variable, which costs nothing, to every inequality, and tells how many. Slack variables come
before artificial ones, so a program that has artificial variables already is refused. -/
def addSlacks (p : Program) : Except Fault (Program × Nat) :=
  if p.artificials = 0 then
    let count := p.columnsFor Relation.slack?
    .ok ({ p with
      slackCosts := p.slackCosts ++ List.replicate count 0
      constraints := appendColumns Relation.slack? count 0 p.constraints }, count)
  else .error .artificialsPresent

/-- Slack variables are appended when there are no artificial ones. -/
theorem addSlacks_eq_ok_iff {p : Program} {result : Program × Nat} : p.addSlacks = .ok result ↔
    p.artificials = 0 ∧ result = ({ p with
      slackCosts := p.slackCosts ++ List.replicate (p.columnsFor Relation.slack?) 0
      constraints := appendColumns Relation.slack? (p.columnsFor Relation.slack?) 0 p.constraints },
      p.columnsFor Relation.slack?) := by
  unfold addSlacks
  split
  · simp [*, eq_comm]
  · simp [*]

/-- Appends an artificial variable, at the penalty for the direction of optimization, to every constraint that is
not `<=`, and tells how many. -/
def addArtificials (p : Program) : Program × Nat :=
  let count := p.columnsFor Relation.artificial?
  ({ p with
    artificialCosts := p.artificialCosts ++ List.replicate count p.sense.artificialCost
    constraints := appendColumns Relation.artificial? count 0 p.constraints }, count)

end Program

/-- The transformations of a program. -/
inductive Transformation
  | canonicalize
  | addSlacks
  | addArtificials
  deriving DecidableEq, Repr

/-- Applies a transformation. -/
def Program.transform (p : Program) : Transformation → Except Fault Program
  | .canonicalize => .ok p.canonicalize
  | .addSlacks => p.addSlacks.map (·.1)
  | .addArtificials => .ok p.addArtificials.1

/-- Applying the second transformation gives the program that slack variables were appended to. -/
theorem Program.transform_addSlacks_eq_ok_iff {p p' : Program} :
    p.transform .addSlacks = .ok p' ↔ ∃ count, p.addSlacks = .ok (p', count) := by
  rw [transform]
  cases p.addSlacks with
  | error fault => simp [Except.map]
  | ok result => simp [Except.map, Prod.ext_iff]

/-- A program on its way to one that has a unit column in every row. -/
structure StandardForm where
  /-- All right-hand sides are nonnegative. -/
  canonical : Program
  /-- Every inequality has a slack variable besides. -/
  slacked : Program
  /-- Every constraint that is not `<=` has an artificial variable besides. -/
  augmented : Program
  deriving DecidableEq, Repr

/-- Applies the three transformations in order. -/
def Program.standardForm (p : Program) : Except Fault StandardForm :=
  let canonical := p.canonicalize
  match canonical.addSlacks with
  | .error fault => .error fault
  | .ok (slacked, _) => .ok ⟨canonical, slacked, slacked.addArtificials.1⟩

end ExactSimplex
