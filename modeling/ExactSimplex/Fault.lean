/-!
# Broken preconditions

Operations on numbers, programs and tableaus that are given something they are not defined on answer
with a fault that names the broken precondition. A fault is not a verdict about a linear program.
-/

namespace ExactSimplex

/-- The precondition that an operation found broken. -/
inductive Fault
  /-- A number was divided by zero. -/
  | divisionByZero
  /-- There are not as many rows of values as there are basic variables. -/
  | rowCount
  /-- A row does not have one value for each column. -/
  | rowLength
  /-- There is no first column, or the first column has a cost. -/
  | constantColumn
  /-- A basis does not name one column for each constraint. -/
  | basisLength
  /-- A basis names a column that belongs to no variable. -/
  | basisColumn
  /-- There is no such row. -/
  | noRow
  /-- There is no such column, or it belongs to no variable. -/
  | noColumn
  /-- The element to pivot on is zero. -/
  | zeroPivot
  /-- The recorded ratios are not one for each row, or one for each column. -/
  | ratioCount
  /-- Slack variables were asked for after artificial variables had been added. -/
  | artificialsPresent
  /-- A column still improves the objective where none should. -/
  | notOptimal
  /-- A value that has to be finite contains a multiple of `M`. -/
  | penaltyLeft
  deriving DecidableEq, Repr

section

variable {α β : Type} {x : Except Fault α} {f : α → Except Fault β}

/-- A composition gives a result when both of its parts do. -/
theorem bind_eq_ok_iff {b : β} : (x >>= f) = .ok b ↔ ∃ a, x = .ok a ∧ f a = .ok b := by
  cases x with
  | error fault => simp [bind, Except.bind]
  | ok a => simp [bind, Except.bind]

/-- A composition is at fault when its first part is, or the second on the result of the first. -/
theorem bind_eq_error_iff {fault : Fault} :
    (x >>= f) = .error fault ↔ x = .error fault ∨ ∃ a, x = .ok a ∧ f a = .error fault := by
  cases x with
  | error fault => simp [bind, Except.bind]
  | ok a => simp [bind, Except.bind]

end

end ExactSimplex
