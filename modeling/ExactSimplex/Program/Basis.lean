import ExactSimplex.Failure
import ExactSimplex.Program.Basic

/-!
# A starting basis

Each constraint needs a variable that can be basic in it. Slack and artificial variables whose column is a
unit vector are taken in the order of their columns, each for the row in which its column is not zero. A
row that gets none of them falls back on the first decision variable with coefficient `1` or `-1`.
-/

namespace ExactSimplex

/-- A choice of basic variables. -/
structure Basis where
  /-- For each row the column of its basic variable. -/
  columns : List Nat
  /-- The rows, in order, that fell back on a decision variable. -/
  fallback : List Nat
  deriving DecidableEq, Repr

/-- The position of the one in a column that is otherwise zero. -/
def unitRow? : List Rat → Option Nat
  | [] => none
  | a :: as =>
    if a = 0 then (unitRow? as).map (· + 1)
    else if a = 1 ∧ ∀ b ∈ as, b = 0 then some 0
    else none

namespace Program

/-- The coefficients of the variable at position `j`, by row. -/
def column (p : Program) (j : Nat) : List Rat := p.constraints.map fun c => c.coefficients[j]?.getD 0

/-- Gives the variable at position `j` the row of its unit column, unless that row is taken. -/
def takeRow (p : Program) (slots : List (Option Nat)) (j : Nat) : List (Option Nat) :=
  match unitRow? (p.column j) with
  | some i => slots.modify i fun slot => slot.or (some (j + 1))
  | none => slots

/-- The rows as the unit columns of slack and artificial variables fill them. -/
def unitColumns (p : Program) : List (Option Nat) :=
  (List.range' p.decisions (p.slacks + p.artificials)).foldl p.takeRow
    (List.replicate p.constraints.length none)

/-- The first decision variable with coefficient `1` or `-1`, by its column. -/
def fallbackColumn? (p : Program) (c : Constraint) : Option Nat :=
  ((c.coefficients.take p.decisions).findIdx? fun a => a = 1 ∨ a = -1).map (· + 1)

/-- A basic variable for every row; the first row without one is reported. -/
def initialBasis (p : Program) : Except Failure Basis :=
  let slots := p.unitColumns
  let filled := List.zipWith (fun slot c => slot.or (p.fallbackColumn? c)) slots p.constraints
  match filled.findIdx? (·.isNone) with
  | some row => .error (.noInitialBasis row)
  | none => .ok {
      columns := filled.filterMap id
      fallback := (List.range slots.length).filter fun i => slots[i]? = some none }

end Program

end ExactSimplex
