import ExactSimplex.Program.Standard
import ExactSimplex.Run
import ExactSimplex.Simplex.Pricing
import ExactSimplex.Simplex.Ratio
import ExactSimplex.Simplex.Sweep
import ExactSimplex.Tableau.Start

/-!
# The Simplex method

Variables enter the basis as long as one improves the objective. Then an artificial variable that is basic
at a nonzero value shows that the program is infeasible; otherwise the artificial variables are expelled,
and the method goes on, since this may have made another variable improve the objective. When there was
nothing to expel, the tableau without its artificial columns is the result.
-/

namespace ExactSimplex.Simplex

/-- Some artificial variable is basic at a value other than zero. -/
def StillArtificial (t : Tableau) : Prop := ∃ r ∈ t.rows, r.IsArtificial ∧ r.bound ≠ 0

instance (t : Tableau) : Decidable (StillArtificial t) :=
  inferInstanceAs (Decidable (∃ r ∈ t.rows, r.IsArtificial ∧ r.bound ≠ 0))

/-- One turn: a variable enters, or artificial variables are expelled, or the run ends. -/
def turn (rule : Pricing) (first : Nat) (t : Tableau) : Turn Move Tableau (Ending Tableau) :=
  match rule.select t with
  | some (j, _) =>
    match enter t j with
    | .error fault => .done [] (.fault fault)
    | .ok (.unlimited before) => .done [.stuck before] (.failed (.unbounded j))
    | .ok (.pivoted pivot before after) => .next [.enter pivot before after] after
  | none =>
    if ¬ t.IsOptimal then .done [] (.fault .notOptimal)
    else if StillArtificial t then .done [.stuck t] (.failed .infeasible)
    else
      match sweep first t.rows.length 0 t with
      | (moves, .error fault) => .done moves (.fault fault)
      | ([], .ok t') => .done [] (.solved t')
      | (moves, .ok t') => .next moves t'

/-- Everything the method did with a program. -/
structure Derivation where
  form : StandardForm
  /-- The basic variables at the start and their values, by row. -/
  basis : List (String × Rat)
  moves : List Move
  ending : Ending Tableau

/-- The steps of a derivation, in order. -/
def Derivation.steps (d : Derivation) : List Step := d.moves.filterMap Move.step?

/-- The column with which the artificial columns of a program begin. -/
def firstArtificial (p : Program) : Nat := 1 + p.decisions + p.slacks

/-- Cuts the artificial columns off the last tableau. -/
def finish (first : Nat) : Ending Tableau → Ending Tableau
  | .solved t =>
    match t.truncate first with
    | .ok t' => .solved t'
    | .error fault => .fault fault
  | ending => ending

/-- Solves a program in standard form from a starting basis, within a number of turns. -/
def solveFrom (rule : Pricing) (limit : Nat) (form : StandardForm) (basis : Basis) : Option Derivation :=
  let p := form.augmented
  let named := List.zipWith (fun j c => (variableName j, c.bound)) basis.columns p.constraints
  match Tableau.ofBasis p basis with
  | .error fault => some ⟨form, named, [], .fault fault⟩
  | .ok t =>
    (run (turn rule (firstArtificial p)) limit t).map fun r =>
      ⟨form, named, r.1, finish (firstArtificial p) r.2⟩

/-- Solves a program within a number of turns. A program that has artificial variables already is
refused. -/
def solve (rule : Pricing) (limit : Nat) (p : Program) : Option (Except Fault Derivation) :=
  match p.standardForm with
  | .error fault => some (.error fault)
  | .ok form =>
    match form.augmented.initialBasis with
    | .error failure => some (.ok ⟨form, [], [], .failed failure⟩)
    | .ok basis => (solveFrom rule limit form basis).map .ok

end ExactSimplex.Simplex
