import ExactSimplex.Program.Report
import ExactSimplex.Simplex.Solve
import ExactSimplex.Tableau.Layout

/-!
# Messages of the Simplex method

A derivation is told move by move, with the steps counted from one and each pivot shown in its tableau.
-/

namespace ExactSimplex.Simplex

/-- The messages of a pivot that is step `k`. -/
def pivotMessages (k : Nat) (pivot : Pivot) (before after : Tableau) : List Message :=
  [.trace ("Pivoting on (" ++ toString pivot.row ++ ", " ++ toString pivot.column ++ ") in\n" ++ before.text),
    .debug ("Step " ++ toString k ++ ": " ++ variableName pivot.column ++ " enters in row " ++
      toString pivot.row ++ ", " ++ before.basicName pivot.row ++ " leaves, objective value " ++
      after.objectiveValue.text)]

/-- The messages of a move that `k` steps came before. -/
def Move.messages (k : Nat) : Move → List Message
  | .enter pivot before after => pivotMessages (k + 1) pivot before after
  | .expel pivot before after =>
    .debug ("Artificial variable " ++ before.basicName pivot.row ++ " is basic at zero") ::
      pivotMessages (k + 1) pivot before after
  | .drop row _ _ => [.debug ("Row " ++ toString row ++ " is redundant, removing it")]
  | .stuck _ => []

/-- The messages of all moves, which `k` steps came before. -/
def moveMessages : (k : Nat) → List Move → List Message
  | _, [] => []
  | k, move :: moves =>
    move.messages k ++ moveMessages (if move.step?.isSome then k + 1 else k) moves

/-- The starting basis, as the names of its variables. -/
def basisMessage (basis : List (String × Rat)) : Message :=
  .debug ("Initial basis: [" ++ ", ".intercalate (basis.map fun v => "\"" ++ v.1 ++ "\"") ++ "]")

/-- The messages about how a derivation ended. -/
def Derivation.endMessages (d : Derivation) : List Message :=
  match d.ending with
  | .solved t =>
    (if 0 < d.form.augmented.artificials then
      [.debug ("Removing " ++ toString d.form.augmented.artificials ++ " artificial columns")]
    else []) ++
      [.debug ("Optimum reached after " ++ toString d.steps.length ++ " steps, objective value " ++
          t.objectiveValue.text),
        .trace ("Optimal tableau:\n" ++ t.text)]
  | .failed failure =>
    [.debug ("Stopped after " ++ toString d.steps.length ++ " steps: " ++ failure.message)]
  | .fault _ => []

/-- The messages of a derivation, after those of the transformations. -/
def Derivation.bodyMessages (d : Derivation) : List Message :=
  match d.ending with
  | .failed (.noInitialBasis row) =>
    [.debug ("No initial basis: " ++ (Failure.noInitialBasis row).message)]
  | _ => basisMessage d.basis :: moveMessages 0 d.moves ++ d.endMessages

/-- The messages of solving a program. One that was refused had been made canonical before. -/
def messages (p : Program) : Except Fault Derivation → List Message
  | .error _ => [Transformation.canonicalize.message p p.canonicalize]
  | .ok d =>
    [Transformation.canonicalize.message p d.form.canonical,
      Transformation.addSlacks.message d.form.canonical d.form.slacked,
      Transformation.addArtificials.message d.form.slacked d.form.augmented] ++ d.bodyMessages

/-- Announces why the method stopped. -/
def failureText (failure : Failure) : String := "Simplex method stopped: " ++ failure.message

end ExactSimplex.Simplex
