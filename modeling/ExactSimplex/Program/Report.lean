import ExactSimplex.Cost.Text
import ExactSimplex.Message
import ExactSimplex.Program.Standard

/-!
# Messages about programs

Each transformation of a program tells how much it changed.
-/

namespace ExactSimplex

/-- What a transformation that led from one program to another tells. -/
def Transformation.message (before after : Program) : Transformation → Message
  | .canonicalize =>
    .debug ("Canonicalized, " ++ toString before.negatives ++ " of " ++
      toString before.constraints.length ++ " constraints negated")
  | .addSlacks => .debug ("Added " ++ toString (after.slacks - before.slacks) ++ " slack variables")
  | .addArtificials =>
    .debug ("Added " ++ toString (after.artificials - before.artificials) ++
      " artificial variables with cost " ++ before.sense.artificialCost.text)

end ExactSimplex
