import ExactSimplex.Number.Numeral
import ExactSimplex.Program.Basic

/-!
# Reading linear programs

The numbers of a program arrive as text. They are read in the order in which a program is written down:
all costs, then of each constraint its coefficients and its right-hand side. Only a program whose numbers
could all be read is looked at for its shape.
-/

namespace ExactSimplex

/-- Why a program could not be read. -/
inductive ProgramError
  /-- A number could not be read. -/
  | numeral (error : NumeralError)
  /-- The description is not that of a linear program. -/
  | shape (error : ShapeError)
  deriving DecidableEq, Repr

/-- The message says what is missing, or where the numbers disagree. -/
def ShapeError.message : ShapeError → String
  | .noVariables => "a linear program needs at least one variable"
  | .noConstraints => "a linear program needs at least one constraint"
  | .coefficientCount constraint expected found =>
    "constraint " ++ toString constraint ++ " has " ++ toString found ++
      " coefficients, expected one for each of the " ++ toString expected ++ " variables"

/-- The message of whatever went wrong. -/
def ProgramError.message : ProgramError → String
  | .numeral error => error.message
  | .shape error => error.message

/-- Reads a list of numbers; the first one that is malformed is reported. -/
def Numeral.readAll (texts : List String) : Except NumeralError (List Rat) :=
  texts.mapM Numeral.read

/-- A constraint whose numbers are still text. -/
structure ConstraintText where
  coefficients : List String
  relation : Relation
  bound : String
  deriving DecidableEq, Repr

/-- Reads the coefficients of a constraint, then its right-hand side. -/
def Constraint.read (text : ConstraintText) : Except NumeralError Constraint := do
  let coefficients ← Numeral.readAll text.coefficients
  let bound ← Numeral.read text.bound
  return ⟨coefficients, text.relation, bound⟩

/-- Reads the costs, then the constraints, and puts them together to a program. -/
def Program.read (sense : Sense) (objective : List String) (constraints : List ConstraintText) :
    Except ProgramError Program := do
  let objective ← (Numeral.readAll objective).mapError .numeral
  let constraints ← (constraints.mapM Constraint.read).mapError .numeral
  (Program.ofConstraints sense objective constraints).mapError .shape

end ExactSimplex
