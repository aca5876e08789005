import ExactSimplex.Cutting.Solve
import ExactSimplex.Message
import ExactSimplex.Tableau.Layout

/-!
# Messages of the cutting plane method

A derivation is told move by move, with the cuts counted from one and each pivot shown in its tableau.
-/

namespace ExactSimplex.Cutting

/-- The messages of a move that `k` cuts came before. -/
def Move.messages (k : Nat) : Move → List Message
  | .cut source _ _ _ =>
    [.debug ("Cut " ++ toString (k + 1) ++ " from " ++ variableName source.column ++ " = " ++
      Numeral.write source.value ++ " in row " ++ toString source.row)]
  | .restore pivot before _ =>
    [.trace ("Dual pivot on (" ++ toString pivot.row ++ ", " ++ toString pivot.column ++ ") in\n" ++
        before.text),
      .debug ("Dual pivot: " ++ variableName pivot.column ++ " enters in row " ++ toString pivot.row ++
        ", " ++ before.basicName pivot.row ++ " leaves")]
  | .stuck _ => []

/-- The move is a cut. -/
def Move.isCut : Move → Bool
  | .cut _ _ _ _ => true
  | _ => false

/-- The messages of all moves, which `k` cuts came before. -/
def moveMessages : (k : Nat) → List Move → List Message
  | _, [] => []
  | k, move :: moves => move.messages k ++ moveMessages (if move.isCut then k + 1 else k) moves

/-- The messages about how a derivation ended. -/
def Derivation.endMessages (d : Derivation) : List Message :=
  match d.ending with
  | .solved t =>
    [.debug ("Integer solution after " ++ toString d.applications.length ++ " cuts, objective value " ++
      t.objectiveValue.text)]
  | .failed .alreadyInteger => [.debug "Solution is already integer"]
  | .failed failure =>
    [.debug ("Stopped after " ++ toString d.applications.length ++ " cuts: " ++ failure.message)]
  | .fault _ => []

/-- The messages of a derivation. -/
def Derivation.messages (d : Derivation) : List Message := moveMessages 0 d.moves ++ d.endMessages

/-- Announces why the method stopped. -/
def failureText (failure : Failure) : String := "cutting plane method stopped: " ++ failure.message

end ExactSimplex.Cutting
