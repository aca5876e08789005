import ExactSimplex.Fault

/-!
# Rounding and dividing rational numbers

Whole numbers among the rationals, rounding towards zero, and division that refuses a zero divisor.
-/

namespace ExactSimplex

/-- A rational number is whole when its denominator in lowest terms is one. -/
def IsWhole (q : Rat) : Prop := q.den = 1

instance (q : Rat) : Decidable (IsWhole q) := inferInstanceAs (Decidable (q.den = 1))

/-- The number rounded towards zero. -/
def truncate (q : Rat) : Int := q.num.tdiv q.den

/-- A whole number is its own truncation. -/
theorem truncate_of_isWhole {q : Rat} (h : IsWhole q) : (truncate q : Rat) = q := by
  have hd : q.den = 1 := h
  have ht : truncate q = q.num := by simp [truncate, hd]
  rw [ht]
  exact Rat.ext (Rat.num_intCast _) ((Rat.den_intCast _).trans hd.symm)

/-- The quotient of two numbers; dividing by zero is refused. -/
def divide (a b : Rat) : Except Fault Rat :=
  if b = 0 then .error .divisionByZero else .ok (a / b)

/-- Division fails exactly on a zero divisor. -/
theorem divide_eq_ok_iff {a b q : Rat} : divide a b = .ok q ↔ b ≠ 0 ∧ q = a / b := by
  by_cases hb : b = 0 <;> simp [divide, hb, eq_comm]

end ExactSimplex
