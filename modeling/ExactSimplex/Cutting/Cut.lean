import ExactSimplex.Number.Rounding

/-!
# Fractional cuts

A cut is derived from a row whose basic variable has a fractional value. Every number of the row is split
into a whole part and the fraction that remains. The negated fractions make a new row, which the present
basic solution violates.
-/

namespace ExactSimplex

/-- The whole part of a number: rounded towards zero, but `-1` for every negative number that is not whole. -/
def wholePart (q : Rat) : Rat := if q < 0 ∧ ¬ IsWhole q then -1 else truncate q

/-- A number of the source row and the whole part that is split off. -/
structure Part where
  name : String
  whole : Rat
  value : Rat
  deriving DecidableEq, Repr

/-- What remains of a number without its whole part. -/
def Part.fraction (p : Part) : Rat := p.value - p.whole

/-- A cut, given by how each number of its source row was split. -/
structure Cut where
  parts : List Part
  deriving DecidableEq, Repr

namespace Cut

/-- The cut of a row with basic variable `xv`; the part in column `j` is named `yvj`. -/
def ofRow (v : Nat) (row : List Rat) : Cut where
  parts := row.mapIdx fun j q => ⟨"y" ++ toString v ++ toString j, wholePart q, q⟩

/-- The new row: the negated fractions, then the coefficient of its own basic variable. -/
def row (c : Cut) : List Rat := c.parts.map (fun p => -p.fraction) ++ [1]

/-- The new row has one number more than its source. -/
@[simp] theorem length_row_ofRow (v : Nat) (source : List Rat) :
    (ofRow v source).row.length = source.length + 1 := by
  simp [ofRow, row]

end Cut

end ExactSimplex
