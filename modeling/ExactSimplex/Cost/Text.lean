import ExactSimplex.Cost.Basic
import ExactSimplex.Number.Numeral

/-!
# The written form of costs

A cost is written like `7M - 11`, `-M`, `(1/2)M + 3` or, without a multiple of `M`, as its finite part
alone. A factor of one is not written, a factor that is no integer stands in brackets, and the finite
part is left out beside an `M` when it is zero.
-/

namespace ExactSimplex.Cost

/-- The multiple of `M`, for a penalty that is not zero. -/
def penaltyText (p : Rat) : String :=
  if p = 1 then "M"
  else if p = -1 then "-M"
  else if p.den = 1 then Numeral.write p ++ "M"
  else "(" ++ Numeral.write p ++ ")M"

/-- The finite part behind a multiple of `M`, with its sign set apart. -/
def finiteText (f : Rat) : String :=
  if 0 < f then " + " ++ Numeral.write f
  else if f < 0 then " - " ++ Numeral.write (-f)
  else ""

/-- The written form of a cost. -/
def text (c : Cost) : String :=
  if c.penalty = 0 then Numeral.write c.finite else penaltyText c.penalty ++ finiteText c.finite

example : text ⟨7, -11⟩ = "7M - 11" := by cbv

example : text ⟨-1, 5 / 2⟩ = "-M + 5/2" := by cbv

example : text ⟨1 / 2, 3⟩ = "(1/2)M + 3" := by cbv

end ExactSimplex.Cost
