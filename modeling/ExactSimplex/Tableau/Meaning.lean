import ExactSimplex.Program.Meaning
import ExactSimplex.Tableau.Resize

/-!
# The meaning of a tableau

Each row is an equation between the variables of the columns. A tableau is well formed when its rows and
columns agree in size, its basic variables have unit columns and the costs of their columns, and the name
index finds exactly the basic variables.
-/

namespace ExactSimplex

/-- The assignment satisfies the equation of the row. -/
def Row.Holds (r : Row) (x : Assignment) : Prop := weigh x 1 r.values.tail = r.bound

namespace Tableau

/-- The assignment satisfies the equations of all rows. -/
def Holds (t : Tableau) (x : Assignment) : Prop := ∀ r ∈ t.rows, r.Holds x

/-- Every row has one number for each column. -/
def Rectangular (t : Tableau) : Prop := ∀ r ∈ t.rows, r.values.length = t.columns.length

/-- The variable of column `j` is basic in row `i`: it heads the row, at its own cost, and its column is
the unit vector of the row. -/
structure BasicIn (t : Tableau) (i j : Nat) : Prop where
  pos : 0 < j
  lt : j < t.columns.length
  name : t.basicName i = variableName j
  cost : (t.rows[i]?.map (·.cost)) = some (t.price j)
  entry_self : t.entry i j = 1
  entry_other : ∀ k, k < t.rows.length → k ≠ i → t.entry k j = 0

/-- What holds of every tableau that the methods work on. -/
structure WellFormed (t : Tableau) : Prop where
  rectangular : t.Rectangular
  cost_eq_none_iff : ∀ j, j < t.columns.length → ((t.columns[j]?.bind (·.cost)) = none ↔ j = 0)
  nonempty : 0 < t.columns.length
  basic : ∀ i, i < t.rows.length → ∃ j, t.BasicIn i j
  names_nodup : t.names.Nodup
  rowOf?_eq_some_iff : ∀ name i, t.rowOf? name = some i ↔ t.names[i]? = some name
  fits : ∀ ratios, t.ratios = some ratios → t.Fits ratios

end Tableau

end ExactSimplex
