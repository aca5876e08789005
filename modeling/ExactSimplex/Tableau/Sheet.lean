import ExactSimplex.Tableau.Resize
import ExactSimplex.Tableau.Start

/-!
# Tableaus as they are stored

What is stored keeps the heads of the rows apart from the grid of numbers, and the row of reduced costs below
the grid. That row is not read off the grid: it is there, and every change has to write it anew.
-/

namespace ExactSimplex

/-- One state of the Simplex method as it is stored. -/
@[ext] structure Sheet where
  sense : Sense
  /-- The basic variables and their costs, by row. -/
  heads : List (String × Cost)
  columns : List Column
  /-- The numbers of each row, the right-hand side first. -/
  grid : List (List Rat)
  /-- The row of reduced costs, as it was last written. -/
  reducedCosts : List Cost
  ratios : Option Ratios
  index : NameIndex
  deriving DecidableEq

namespace Sheet

/-- The number in row `i` and column `j`. -/
def entry (s : Sheet) (i j : Nat) : Rat := (s.grid[i]?.map fun row => row[j]?.getD 0).getD 0

/-- The cost of the variable of column `j`, zero for the column of right-hand sides. -/
def price (s : Sheet) (j : Nat) : Cost := (s.columns[j]?.bind (·.cost)).getD 0

/-- The names of the basic variables, by row. -/
def names (s : Sheet) : List String := s.heads.map (·.1)

/-- What the heads of the rows together cost along column `j`, less the cost of its own variable. -/
def pricedOut (s : Sheet) (j : Nat) : Cost :=
  (List.zipWith (fun head row => row[j]?.getD 0 • head.2) s.heads s.grid).sum - s.price j

/-- Writes the row of reduced costs anew. -/
def refresh (s : Sheet) : Sheet :=
  { s with reducedCosts := (List.range s.columns.length).map s.pricedOut }

/-- Enters all heads of rows in an empty index. -/
def reindex (s : Sheet) : Sheet := { s with index := NameIndex.ofNames 0 s.names }

/-! Reading. -/

/-- The objective value of the basic solution, as it stands in the row of reduced costs. -/
def objectiveValue (s : Sheet) : Cost := s.reducedCosts[0]?.getD 0

/-- No variable promises a better objective. -/
def IsOptimal (s : Sheet) : Prop := ∀ c ∈ s.reducedCosts.tail, ¬ s.sense.Improving c

instance (s : Sheet) : Decidable s.IsOptimal :=
  inferInstanceAs (Decidable (∀ c ∈ s.reducedCosts.tail, ¬ s.sense.Improving c))

/-- No basic variable is negative. -/
def IsFeasible (s : Sheet) : Prop := ∀ row ∈ s.grid, ¬ row[0]?.getD 0 < 0

instance (s : Sheet) : Decidable s.IsFeasible :=
  inferInstanceAs (Decidable (∀ row ∈ s.grid, ¬ row[0]?.getD 0 < 0))

/-- The row in which a name is found. -/
def rowOf? (s : Sheet) (name : String) : Option Nat := s.index[name]?

/-- The value of variable `xj` in the basic solution; a variable that is not basic is zero. -/
def variableValue (s : Sheet) (j : Nat) : Rat :=
  match s.rowOf? (variableName j) with
  | some i => s.entry i 0
  | none => 0

/-! Making. -/

/-- The sheet of given basic variables, columns and numbers. There must be one row of numbers for each basic
variable, with one number for each column, and the first column must have no cost. -/
def make (sense : Sense) (heads : List (String × Cost)) (columns : List Column) (grid : List (List Rat)) :
    Except Fault Sheet :=
  if heads.length ≠ grid.length then .error .rowCount
  else if ∃ row ∈ grid, row.length ≠ columns.length then .error .rowLength
  else if (columns.head?.map (·.cost)) ≠ some none then .error .constantColumn
  else
    .ok (refresh (reindex { sense, heads, columns, grid, reducedCosts := [], ratios := none, index := ∅ }))

/-- The sheet of a program with one basic variable for each constraint, given by its column. -/
def ofProgram (p : Program) (basis : List Nat) : Except Fault Sheet :=
  if basis.length ≠ p.constraints.length then .error .basisLength
  else if ∃ j ∈ basis, j = 0 ∨ p.variableCount < j then .error .basisColumn
  else
    make p.sense (basis.map fun j => (variableName j, p.costs[j - 1]?.getD 0)) (Tableau.columnsOf p)
      (p.constraints.map fun c => c.bound :: c.coefficients)

/-! Changing. -/

/-- Clears the entry of a row in column `j` with a multiple of `source`. A row that is zero there stays. -/
def clear (source : List Rat) (j : Nat) (row : List Rat) : List Rat :=
  let factor := row[j]?.getD 0
  if factor = 0 then row else row.mapIdx fun k v => v - factor * source[k]?.getD 0

/-- The sheet in which the variable of column `j` has taken row `i`, which had this name and these numbers. -/
def exchange (s : Sheet) (i j : Nat) (leaving : String) (row : List Rat) : Sheet :=
  let source := row.map (· / row[j]?.getD 0)
  refresh { s with
    heads := s.heads.set i (variableName j, s.price j)
    grid := s.grid.mapIdx fun k row => if k = i then source else clear source j row
    ratios := none
    index := (s.index.erase leaving).insert (variableName j) i }

/-- Exchanges the basic variable of a row for that of a column, on an element that is not zero. The name of
the variable that leaves is told. -/
def pivot (s : Sheet) (i j : Nat) : Except Fault (Sheet × String) :=
  match s.heads[i]?, s.grid[i]? with
  | some leaving, some row =>
    if j = 0 ∨ s.columns.length ≤ j then .error .noColumn
    else if row[j]?.getD 0 = 0 then .error .zeroPivot
    else .ok (s.exchange i j leaving.1 row, leaving.1)
  | _, _ => .error .noRow

/-- Keeps the first `n` columns. The name index stays as it is. -/
def truncate (s : Sheet) (n : Nat) : Except Fault Sheet :=
  if 0 < n ∧ n ≤ s.columns.length then
    .ok (refresh { s with columns := s.columns.take n, grid := s.grid.map (·.take n), ratios := none })
  else .error .noColumn

/-- Removes row `i` and its basic variable. The rows behind it move up. -/
def removeRow (s : Sheet) (i : Nat) : Except Fault Sheet :=
  if i < s.heads.length then
    .ok (refresh (reindex { s with heads := s.heads.eraseIdx i, grid := s.grid.eraseIdx i, ratios := none }))
  else .error .noRow

/-- Appends a row and a column for its basic variable, which costs nothing. The last of the given numbers is
the entry of that variable; the other rows are zero in the new column. -/
def appendRow (s : Sheet) (values : List Rat) : Except Fault Sheet :=
  let j := s.columns.length
  if values.length = j + 1 then
    .ok (refresh { s with
      columns := s.columns ++ [⟨columnName j, some 0⟩]
      heads := s.heads ++ [(variableName j, 0)]
      grid := s.grid.map (· ++ [0]) ++ [values]
      ratios := none
      index := s.index.insert (variableName j) s.heads.length })
  else .error .rowLength

/-- Ratios fit a sheet when there is one for each row, or one for each column. -/
def Fits (s : Sheet) : Ratios → Prop
  | .primal ratios => ratios.length = s.heads.length
  | .dual ratios => ratios.length = s.columns.length

instance (s : Sheet) (ratios : Ratios) : Decidable (s.Fits ratios) :=
  match ratios with
  | .primal ratios => inferInstanceAs (Decidable (ratios.length = s.heads.length))
  | .dual ratios => inferInstanceAs (Decidable (ratios.length = s.columns.length))

/-- Records the ratios of a choice, if they fit. The row of reduced costs stays. -/
def record (s : Sheet) (ratios : Ratios) : Except Fault Sheet :=
  if s.Fits ratios then .ok { s with ratios := some ratios } else .error .ratioCount

/-- The tableau that is stored, without its row of reduced costs. -/
def tableau (s : Sheet) : Tableau where
  sense := s.sense
  rows := List.zipWith (fun head values => ⟨head.1, head.2, values⟩) s.heads s.grid
  columns := s.columns
  ratios := s.ratios
  index := s.index

end Sheet

/-- What is stored of a tableau. -/
def Tableau.sheet (t : Tableau) : Sheet where
  sense := t.sense
  heads := t.rows.map fun r => (r.name, r.cost)
  columns := t.columns
  grid := t.rows.map (·.values)
  reducedCosts := t.reducedCosts
  ratios := t.ratios
  index := t.index

end ExactSimplex
