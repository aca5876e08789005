import ExactSimplex.Fault
import ExactSimplex.Program.Basic
import ExactSimplex.Tableau.Names

/-!
# Simplex tableaus

A tableau holds one row of numbers for each basic variable. Column `A0` holds the right-hand sides, which
are the values of the basic variables, and every other column the coefficients of one variable. Below the
rows belongs the row of reduced costs, which the rows and costs determine; its entry in column `A0` is the
objective value. A `Sheet` is a tableau in the form in which it is stored, with that row written down.
-/

namespace ExactSimplex

/-- A basic variable with its cost, and the numbers of its row, the right-hand side first. -/
structure Row where
  name : String
  cost : Cost
  values : List Rat
  deriving DecidableEq, Repr

/-- A column with the cost of its variable; the column of right-hand sides has none. -/
structure Column where
  name : String
  cost : Option Cost
  deriving DecidableEq, Repr

/-- Ratios that were compared to choose a pivot. -/
inductive Ratios
  /-- One for each row that limits the entering variable. -/
  | primal (ratios : List (Option Rat))
  /-- One for each column that may replace the leaving variable. -/
  | dual (ratios : List (Option Rat))
  deriving DecidableEq, Repr

/-- One state of the Simplex method. -/
structure Tableau where
  sense : Sense
  rows : List Row
  columns : List Column
  /-- The ratios of the last choice, if no change was made since. -/
  ratios : Option Ratios
  /-- Where basic variables are looked up by name. -/
  index : NameIndex
  deriving DecidableEq

namespace Row

/-- The number in column `j`. -/
def entry (r : Row) (j : Nat) : Rat := r.values[j]?.getD 0

/-- The right-hand side, which is the value of the basic variable. -/
def bound (r : Row) : Rat := r.entry 0

end Row

namespace Tableau

/-- The number in row `i` and column `j`. -/
def entry (t : Tableau) (i j : Nat) : Rat := (t.rows[i]?.map (·.entry j)).getD 0

/-- The cost of the variable of column `j`, zero for the column of right-hand sides. -/
def price (t : Tableau) (j : Nat) : Cost := (t.columns[j]?.bind (·.cost)).getD 0

/-- The name of the basic variable of row `i`. -/
def basicName (t : Tableau) (i : Nat) : String := (t.rows[i]?.map (·.name)).getD ""

/-- What the basic variables together cost along column `j`, less the cost of its own variable. -/
def reducedCost (t : Tableau) (j : Nat) : Cost :=
  (t.rows.map fun r => r.entry j • r.cost).sum - t.price j

/-- The row of reduced costs. -/
def reducedCosts (t : Tableau) : List Cost := (List.range t.columns.length).map t.reducedCost

/-- The objective value of the basic solution. -/
def objectiveValue (t : Tableau) : Cost := t.reducedCost 0

/-- No variable promises a better objective. -/
def IsOptimal (t : Tableau) : Prop := ∀ c ∈ t.reducedCosts.tail, ¬ t.sense.Improving c

instance (t : Tableau) : Decidable t.IsOptimal :=
  inferInstanceAs (Decidable (∀ c ∈ t.reducedCosts.tail, ¬ t.sense.Improving c))

/-- No basic variable is negative. -/
def IsFeasible (t : Tableau) : Prop := ∀ r ∈ t.rows, ¬ r.bound < 0

instance (t : Tableau) : Decidable t.IsFeasible :=
  inferInstanceAs (Decidable (∀ r ∈ t.rows, ¬ r.bound < 0))

/-- The row in which a name is found. -/
def rowOf? (t : Tableau) (name : String) : Option Nat := t.index[name]?

/-- The value of variable `xj` in the basic solution; a variable that is not basic is zero. -/
def variableValue (t : Tableau) (j : Nat) : Rat :=
  match t.rowOf? (variableName j) with
  | some i => t.entry i 0
  | none => 0

/-- The names of the basic variables, by row. -/
def names (t : Tableau) : List String := t.rows.map (·.name)

/-- The tableau of given basic variables, columns and numbers. There must be one row of numbers for each
basic variable, with one number for each column, and the first column must have no cost. -/
def make (sense : Sense) (basic : List (String × Cost)) (columns : List Column)
    (values : List (List Rat)) : Except Fault Tableau :=
  if basic.length ≠ values.length then .error .rowCount
  else if ∃ row ∈ values, row.length ≠ columns.length then .error .rowLength
  else if (columns.head?.map (·.cost)) ≠ some none then .error .constantColumn
  else
    .ok {
      sense
      rows := List.zipWith (fun head values => ⟨head.1, head.2, values⟩) basic values
      columns
      ratios := none
      index := NameIndex.ofNames 0 (basic.map (·.1)) }

/-- The number in row `i` and column `j`, where there must be one. -/
def value (t : Tableau) (i j : Nat) : Except Fault Rat :=
  match t.rows[i]? with
  | none => .error .noRow
  | some r =>
    match r.values[j]? with
    | none => .error .noColumn
    | some q => .ok q

/-- The cost of the variable of column `j`, where there must be a column. -/
def columnCost (t : Tableau) (j : Nat) : Except Fault Cost :=
  if j < t.columns.length then .ok (t.price j) else .error .noColumn

@[simp] theorem length_reducedCosts (t : Tableau) : t.reducedCosts.length = t.columns.length := by
  simp [reducedCosts]

/-- The row of reduced costs, position by position. -/
theorem getElem?_reducedCosts (t : Tableau) (j : Nat) :
    t.reducedCosts[j]? = if j < t.columns.length then some (t.reducedCost j) else none := by
  by_cases h : j < t.columns.length
  · simp [reducedCosts, h]
  · simp [reducedCosts, h]

/-- Optimality concerns every column but that of the right-hand sides. -/
theorem isOptimal_iff (t : Tableau) :
    t.IsOptimal ↔ ∀ j, 0 < j → j < t.columns.length → ¬ t.sense.Improving (t.reducedCost j) := by
  constructor
  · intro h j hpos hlt
    refine h _ (List.mem_of_getElem? (i := j - 1) ?_)
    rw [List.getElem?_tail, getElem?_reducedCosts, Nat.sub_add_cancel hpos, if_pos hlt]
  · intro h c hc
    obtain ⟨j, hj⟩ := List.mem_iff_getElem?.mp hc
    rw [List.getElem?_tail, getElem?_reducedCosts] at hj
    split at hj
    · rename_i hlt
      cases hj
      exact h (j + 1) (Nat.succ_pos j) hlt
    · cases hj

end Tableau

end ExactSimplex
