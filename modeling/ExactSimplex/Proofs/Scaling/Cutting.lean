import ExactSimplex.Cutting.Solve
import ExactSimplex.Proofs.Scaling.Simplex

/-!
# The cutting plane method on a rescaled objective

Cuts and right-hand sides do not depend on costs. The ratios of the dual ratio test are all multiplied by the
same positive number, so that the least one stays where it is. A run on a rescaled tableau therefore makes the
same cuts and the same pivots.
-/

namespace ExactSimplex

variable {k : Rat}

/-- A traversal with corresponding results gives a list of them. -/
theorem mapM_map_except {α β β' : Type} {f : α → Except Fault β} {f' : α → Except Fault β'} {g : β → β'}
    (h : ∀ a, f' a = (f a).map g) (l : List α) : l.mapM f' = (l.mapM f).map (List.map g) := by
  induction l with
  | nil => rfl
  | cons a l ih =>
    rw [List.mapM_cons, List.mapM_cons, h, ih]
    cases f a with
    | error fault => rfl
    | ok b => cases l.mapM f <;> rfl

/-- The least ratio stays where it is when all ratios grow by the same factor. -/
theorem leastRatio_rescale (hk : k ≠ 0) (ratios : List (Option Rat)) :
    leastRatio (ratios.map (Option.map (k.abs * ·))) = leastRatio ratios := by
  have hless : ∀ a b : Rat, decide (k.abs * a < k.abs * b) = decide (a < b) := fun a b =>
    decide_eq_decide.mpr (mul_lt_mul_iff_right₀ (abs_pos_of_ne_zero hk))
  rw [leastRatio, firstBest_map hless, Option.map_map]
  rfl

namespace Cutting

/-- The move with its tableaus rescaled. -/
def Move.rescale (k : Rat) : Move → Move
  | .cut source made before after => .cut source made (before.rescale k) (after.rescale k)
  | .restore pivot before after => .restore pivot (before.rescale k) (after.rescale k)
  | .stuck tableau => .stuck (tableau.rescale k)

/-- The restoration with its tableaus rescaled. -/
def Restoration.rescale (k : Rat) : Restoration → Restoration
  | .pivoted pivot before after => .pivoted pivot (before.rescale k) (after.rescale k)
  | .blocked tableau => .blocked (tableau.rescale k)

/-- The state with its tableau rescaled. -/
def State.rescale (k : Rat) (s : State) : State := ⟨s.tableau.rescale k, s.cuts⟩

/-- The application with the tableaus of its steps rescaled. -/
def Application.rescale (k : Rat) (a : Application) : Application :=
  { a with steps := a.steps.map (Step.rescale k) }

/-! Choices. -/

theorem source?_rescale (k : Rat) (t : Tableau) (decisions : Nat) :
    source? (t.rescale k) decisions = source? t decisions := by
  have hcandidate : candidate? (t.rescale k) = candidate? t := by
    funext j
    have hrow : (t.rescale k).rowOf? (variableName j) = t.rowOf? (variableName j) := rfl
    rw [candidate?, candidate?, hrow]
    simp only [Tableau.entry_rescale]
  rw [source?, source?, hcandidate]

theorem leavingRow?_rescale (k : Rat) (t : Tableau) :
    leavingRow? (t.rescale k) = (leavingRow? t).map fun leaving => (leaving.1, leaving.2.rescale k) := by
  have hbounds : ((t.rescale k).rows.map fun r => some r.bound) = t.rows.map fun r => some r.bound :=
    List.map_map ..
  rw [leavingRow?, leavingRow?, hbounds]
  cases leastRatio (t.rows.map fun r => some r.bound) with
  | none => rfl
  | some i =>
    simp only [Tableau.getElem?_rows_rescale]
    cases t.rows[i]? with
    | none => rfl
    | some r =>
      have hbound : (r.rescale k).bound = r.bound := rfl
      simp only [Option.map_some, hbound]
      split <;> rfl

theorem dualRatio_rescale (k : Rat) (t : Tableau) (r : Row) (j : Nat) :
    dualRatio (t.rescale k) (r.rescale k) j = (dualRatio t r j).map (Option.map (k.abs * ·)) := by
  have hentry : (r.rescale k).entry j = r.entry j := rfl
  rw [dualRatio, dualRatio, hentry, Tableau.reducedCost_rescale]
  split
  · simp only [Cost.isFinite_rescale]
    split
    · rw [Cost.finite_rescale, mul_div_assoc, abs_mul_eq]
      rfl
    · rfl
  · rfl

theorem dualRatios_rescale (k : Rat) (t : Tableau) (r : Row) :
    dualRatios (t.rescale k) (r.rescale k) =
      (dualRatios t r).map (List.map (Option.map (k.abs * ·))) := by
  rw [dualRatios, dualRatios, Tableau.length_columns_rescale]
  exact mapM_map_except (dualRatio_rescale k t r) _

/-! One turn. -/

theorem restore_rescale (hk : k ≠ 0) (t : Tableau) (i : Nat) (r : Row) :
    restore (t.rescale k) i (r.rescale k) = (restore t i r).map (Restoration.rescale k) := by
  rw [restore, restore, dualRatios_rescale]
  cases dualRatios t r with
  | error fault => rfl
  | ok ratios =>
    have hdual : Ratios.dual (ratios.map (Option.map (k.abs * ·))) = (Ratios.dual ratios).rescale k := rfl
    simp only [Except.map, bind, Except.bind, hdual, Tableau.record_rescale, leastRatio_rescale hk]
    cases t.record (.dual ratios) with
    | error fault => rfl
    | ok before =>
      cases leastRatio ratios with
      | none => rfl
      | some j =>
        simp only [Tableau.pivot_rescale]
        cases before.pivot i j with
        | error fault => rfl
        | ok after => rfl

theorem addCut_rescale (k : Rat) (s : State) (source : Source) :
    addCut (s.rescale k) source =
      (addCut s source).map (Move.rescale k) (State.rescale k) (Ending.map (Tableau.rescale k)) := by
  have hvalues : ((s.rescale k).tableau.rows[source.row]?).map (·.values) =
      (s.tableau.rows[source.row]?).map (·.values) := by
    rw [State.rescale, Tableau.getElem?_rows_rescale, Option.map_map]
    rfl
  rw [addCut, addCut, hvalues]
  split
  · rfl
  · simp only [State.rescale, Tableau.appendRow_rescale]
    cases s.tableau.appendRow _ with
    | error fault => rfl
    | ok after => rfl

theorem restoreFeasibility_rescale (hk : k ≠ 0) (s : State) :
    restoreFeasibility (s.rescale k) =
      (restoreFeasibility s).map (Move.rescale k) (State.rescale k) (Ending.map (Tableau.rescale k)) := by
  rw [restoreFeasibility, restoreFeasibility]
  split
  · rename_i hcuts
    rw [if_pos (show s.cuts = 0 from hcuts)]
    rfl
  · rename_i hcuts
    rw [if_neg (show ¬ s.cuts = 0 from hcuts)]
    simp only [State.rescale, leavingRow?_rescale]
    cases leavingRow? s.tableau with
    | none => rfl
    | some leaving =>
      simp only [Option.map_some, restore_rescale hk]
      cases restore s.tableau leaving.1 leaving.2 with
      | error fault => rfl
      | ok restoration => cases restoration <;> rfl

/-- Every turn is the same on the rescaled tableau. -/
theorem turn_rescale (hk : k ≠ 0) (decisions : Nat) (s : State) :
    turn decisions (s.rescale k) =
      (turn decisions s).map (Move.rescale k) (State.rescale k) (Ending.map (Tableau.rescale k)) := by
  have hfeasible : (s.rescale k).tableau.IsFeasible ↔ s.tableau.IsFeasible := Tableau.isFeasible_rescale k _
  have hsource : source? (s.rescale k).tableau decisions = source? s.tableau decisions :=
    source?_rescale k s.tableau decisions
  unfold turn
  simp only [hfeasible, hsource]
  split
  · cases source? s.tableau decisions with
    | some source => exact addCut_rescale k s source
    | none =>
      dsimp only
      split
      · rename_i hcuts
        rw [if_pos (show s.cuts = 0 from hcuts)]
        rfl
      · rename_i hcuts
        rw [if_neg (show ¬ s.cuts = 0 from hcuts)]
        rfl
  · exact restoreFeasibility_rescale hk s

/-! Whole runs. -/

theorem grouped_rescale (k : Rat) (moves : List Move) :
    grouped (moves.map (Move.rescale k)) =
      ((grouped moves).1.map (Step.rescale k), (grouped moves).2.map (Application.rescale k)) := by
  induction moves with
  | nil => rfl
  | cons move moves ih =>
    cases move <;> simp [Move.rescale, grouped, ih, Application.rescale, Step.rescale]

theorem applications_rescale (k : Rat) (moves : List Move) :
    applications (moves.map (Move.rescale k)) = (applications moves).map (Application.rescale k) := by
  rw [applications, grouped_rescale]
  rfl

/-- The derivation with its tableaus rescaled. -/
def Derivation.rescale (k : Rat) (d : Derivation) : Derivation :=
  ⟨d.moves.map (Move.rescale k), d.ending.map (Tableau.rescale k)⟩

/-- The run on the rescaled tableau is the rescaled run, or both go on. -/
theorem solve_rescale (hk : k ≠ 0) (decisions limit : Nat) (t : Tableau) :
    solve decisions limit (t.rescale k) = (solve decisions limit t).map (Derivation.rescale k) := by
  have hrun := run_map (turn_rescale hk decisions) limit ⟨t, 0⟩
  rw [solve, solve, show (⟨t.rescale k, 0⟩ : State) = State.rescale k ⟨t, 0⟩ from rfl, hrun, Option.map_map,
    Option.map_map]
  rfl

end Cutting

end ExactSimplex
