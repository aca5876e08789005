import ExactSimplex.Cutting.Dual
import ExactSimplex.Run

/-!
# The cutting plane method

Beginning with an optimal tableau, a cut is added whenever no right-hand side is negative and some
decision variable is not whole; after each cut negative right-hand sides are pivoted away. The method ends
when all decision variables are whole, or when a row shows that they cannot be.
-/

namespace ExactSimplex.Cutting

/-- The present tableau and the number of cuts that led to it. -/
structure State where
  tableau : Tableau
  cuts : Nat

/-- Derives a cut from a row and appends it, unless the row has whole coefficients only. -/
def addCut (s : State) (source : Source) : Turn Move State (Ending Tableau) :=
  let row := ((s.tableau.rows[source.row]?).map (·.values)).getD []
  if ∀ q ∈ row.tail, IsWhole q then .done [] (.failed (.noFractionalCoefficient source.row))
  else
    let cut := Cut.ofRow source.column row
    match s.tableau.appendRow cut.row with
    | .error fault => .done [] (.fault fault)
    | .ok after => .next [.cut source cut s.tableau after] ⟨after, s.cuts + 1⟩

/-- Pivots one negative right-hand side away. Before the first cut there should have been none. -/
def restoreFeasibility (s : State) : Turn Move State (Ending Tableau) :=
  if s.cuts = 0 then .done [] (.failed .infeasible)
  else
    match leavingRow? s.tableau with
    | none => .next [] s
    | some (i, r) =>
      match restore s.tableau i r with
      | .error fault => .done [] (.fault fault)
      | .ok (.blocked before) => .done [.stuck before] (.failed (.noPivotColumn i))
      | .ok (.pivoted pivot before after) => .next [.restore pivot before after] { s with tableau := after }

/-- One turn: a cut, a pivot towards feasibility, or the end. -/
def turn (decisions : Nat) (s : State) : Turn Move State (Ending Tableau) :=
  if s.tableau.IsFeasible then
    match source? s.tableau decisions with
    | some source => addCut s source
    | none =>
      if s.cuts = 0 then .done [] (.failed .alreadyInteger) else .done [] (.solved s.tableau)
  else restoreFeasibility s

/-- Everything the method did with a tableau. -/
structure Derivation where
  moves : List Move
  ending : Ending Tableau

/-- The cuts of a derivation with the steps taken to apply them. -/
def Derivation.applications (d : Derivation) : List Application := Cutting.applications d.moves

/-- The tableau that the last step of the last cut left, if there was one. -/
def Derivation.last? (d : Derivation) : Option Tableau := d.applications.getLast?.bind (·.last?)

/-- Cuts a tableau until its first `decisions` variables are whole, within a number of turns. -/
def solve (decisions limit : Nat) (t : Tableau) : Option Derivation :=
  (run (turn decisions) limit ⟨t, 0⟩).map fun r => ⟨r.1, r.2⟩

end ExactSimplex.Cutting
