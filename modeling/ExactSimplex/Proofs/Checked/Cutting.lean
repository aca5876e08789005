import ExactSimplex.Proofs.Checked.Tableau
import ExactSimplex.Proofs.Cutting.Totality
import ExactSimplex.Proofs.Lockstep

/-!
# A cutting plane method that checks what it reads

The method reads right-hand sides, the row a cut is derived from, and reduced costs for the ratios of a row. On
tableaus of the relaxation all of these exist, and the name index leads to rows that do, so that the method with
all checks takes the same turns, whether its run ends or not.
-/

namespace ExactSimplex

variable {t : Tableau} {r : Row} {decisions i j : Nat}

/-- Whether no basic variable is negative. -/
def Tableau.checkedIsFeasible (t : Tableau) : Except Fault Bool := do
  let bounds ← t.rows.mapM fun r => r.read 0
  .ok (decide (∀ b ∈ bounds, ¬ b < 0))

namespace Cutting

open Tableau

/-! The source of a cut. -/

/-- The decision variable of column `j`, if it is basic with a positive fractional part. -/
def checkedCandidate? (t : Tableau) (j : Nat) : Except Fault (Option Source) :=
  match t.rowOf? (variableName j) with
  | none => .ok none
  | some i => do
    let value ← t.value i 0
    let source : Source := ⟨j, i, value⟩
    .ok (if 0 < source.fraction then some source else none)

/-- The first of the first `decisions` variables with the largest fractional part. -/
def checkedSource? (t : Tableau) (decisions : Nat) : Except Fault (Option Source) := do
  let candidates ← (List.range' 1 decisions).mapM (checkedCandidate? t)
  .ok ((firstBest (fun a b => decide (b.fraction < a.fraction)) candidates).map (·.2))

/-! The dual ratio test. -/

/-- The row with the smallest right-hand side, of several the first, if that is negative. -/
def checkedLeavingRow? (t : Tableau) : Except Fault (Option (Nat × Row)) := do
  let bounds ← t.rows.mapM fun r => r.read 0
  match leastRatio (bounds.map some) with
  | none => .ok none
  | some i => do
    let r ← lookup .noRow t.rows i
    let bound ← r.read 0
    .ok (if bound < 0 then some (i, r) else none)

/-- The ratio of column `j` for a leaving row, if the column may enter in it. -/
def checkedDualRatio (costs : List Cost) (r : Row) (j : Nat) : Except Fault (Option Rat) := do
  let entry ← r.read j
  if 0 < j ∧ entry < 0 then do
    let cost ← lookup .noColumn costs j
    if cost.IsFinite then do
      let ratio ← divide cost.finite entry
      .ok (some ratio.abs)
    else .error .penaltyLeft
  else .ok none

/-- The ratios of all columns for a leaving row. -/
def checkedDualRatios (t : Tableau) (r : Row) : Except Fault (List (Option Rat)) := do
  let costs ← t.checkedReducedCosts
  (List.range t.columns.length).mapM (checkedDualRatio costs r)

/-- Records the ratios for row `i`, and exchanges its variable for that of the column with the least. -/
def checkedRestore (t : Tableau) (i : Nat) (r : Row) : Except Fault Restoration := do
  let ratios ← checkedDualRatios t r
  let before ← t.record (.dual ratios)
  match leastRatio ratios with
  | none => return .blocked before
  | some j => return .pivoted ⟨i, j⟩ before (← before.checkedPivot i j)

/-! One turn. -/

/-- Derives a cut from a row and appends it, unless the row has whole coefficients only. -/
def checkedAddCut (s : State) (source : Source) : Turn Move State (Ending Tableau) :=
  match lookup .noRow s.tableau.rows source.row with
  | .error fault => .done [] (.fault fault)
  | .ok r =>
    match behindFirst .noColumn r.values with
    | .error fault => .done [] (.fault fault)
    | .ok coefficients =>
      if ∀ q ∈ coefficients, IsWhole q then .done [] (.failed (.noFractionalCoefficient source.row))
      else
        let cut := Cut.ofRow source.column r.values
        match s.tableau.checkedAppendRow cut.row with
        | .error fault => .done [] (.fault fault)
        | .ok after => .next [.cut source cut s.tableau after] ⟨after, s.cuts + 1⟩

/-- Pivots one negative right-hand side away. -/
def checkedRestoreFeasibility (s : State) : Turn Move State (Ending Tableau) :=
  if s.cuts = 0 then .done [] (.failed .infeasible)
  else
    match checkedLeavingRow? s.tableau with
    | .error fault => .done [] (.fault fault)
    | .ok none => .next [] s
    | .ok (some (i, r)) =>
      match checkedRestore s.tableau i r with
      | .error fault => .done [] (.fault fault)
      | .ok (.blocked before) => .done [.stuck before] (.failed (.noPivotColumn i))
      | .ok (.pivoted pivot before after) => .next [.restore pivot before after] { s with tableau := after }

/-- One turn: a cut, a pivot towards feasibility, or the end. -/
def checkedTurn (decisions : Nat) (s : State) : Turn Move State (Ending Tableau) :=
  match s.tableau.checkedIsFeasible with
  | .error fault => .done [] (.fault fault)
  | .ok true =>
    match checkedSource? s.tableau decisions with
    | .error fault => .done [] (.fault fault)
    | .ok (some source) => checkedAddCut s source
    | .ok none =>
      if s.cuts = 0 then .done [] (.failed .alreadyInteger) else .done [] (.solved s.tableau)
  | .ok false => checkedRestoreFeasibility s

section Turn

variable (h : t.WellFormed)

include h

theorem mapM_read_zero : (t.rows.mapM fun r => r.read 0) = .ok (t.rows.map Row.bound) :=
  mapM_eq_ok_map fun _ hr => h.shaped.read_eq hr h.nonempty

theorem checkedIsFeasible_eq : t.checkedIsFeasible = .ok (decide t.IsFeasible) := by
  rw [checkedIsFeasible, mapM_read_zero h, ok_bind]
  refine congrArg Except.ok (decide_eq_decide.mpr ?_)
  rw [List.forall_mem_map, IsFeasible]

theorem checkedSource?_eq (decisions : Nat) : checkedSource? t decisions = .ok (source? t decisions) := by
  have hcandidates : (List.range' 1 decisions).mapM (checkedCandidate? t) =
      .ok ((List.range' 1 decisions).map (candidate? t)) := by
    refine mapM_eq_ok_map fun j _ => ?_
    unfold checkedCandidate? candidate?
    cases hrow : t.rowOf? (variableName j) with
    | none => rfl
    | some i =>
      dsimp only
      rw [h.shaped.value_eq (h.lt_of_rowOf? hrow) h.nonempty, ok_bind]
  rw [checkedSource?, hcandidates, ok_bind, source?]

theorem checkedLeavingRow?_eq : checkedLeavingRow? t = .ok (leavingRow? t) := by
  rw [checkedLeavingRow?, mapM_read_zero h, ok_bind, leavingRow?, List.map_map]
  change (match leastRatio (t.rows.map fun r => some r.bound) with
    | none => _
    | some i => _) = _
  cases hleast : leastRatio (t.rows.map fun r => some r.bound) with
  | none => rfl
  | some i =>
    obtain ⟨q, hq, -⟩ := leastRatio_le hleast
    have hi := (List.getElem?_eq_some_iff.mp hq).1
    rw [List.length_map] at hi
    have hrow := List.getElem?_eq_getElem hi
    dsimp only
    rw [lookup_of_getElem? hrow, ok_bind, h.shaped.read_eq (List.getElem_mem hi) h.nonempty, ok_bind, hrow]
    rfl

theorem checkedDualRatios_eq (hr : r ∈ t.rows) : checkedDualRatios t r = dualRatios t r := by
  rw [checkedDualRatios, h.shaped.checkedReducedCosts_eq, ok_bind, dualRatios]
  refine mapM_congr_of_mem fun j hj => ?_
  have hlt := List.mem_range.mp hj
  have hcost : t.reducedCosts[j]? = some (t.reducedCost j) := by rw [getElem?_reducedCosts, if_pos hlt]
  rw [checkedDualRatio, h.shaped.read_eq hr hlt, ok_bind, dualRatio]
  by_cases hneg : 0 < j ∧ r.entry j < 0
  · rw [if_pos hneg, if_pos hneg, lookup_of_getElem? hcost, ok_bind,
      divide_eq_ok_iff.mpr ⟨hneg.2.ne, rfl⟩]
    rfl
  · rw [if_neg hneg, if_neg hneg]

theorem checkedRestore_eq (hrow : t.rows[i]? = some r) : checkedRestore t i r = restore t i r := by
  rw [checkedRestore, restore, checkedDualRatios_eq h (List.mem_of_getElem? hrow)]
  refine bind_congr_of_ok fun ratios _ => bind_congr_of_ok fun before hbefore => ?_
  cases leastRatio ratios with
  | none => rfl
  | some j =>
    dsimp only
    rw [(h.shaped.record hbefore).checkedPivot_eq]

end Turn

variable {s : State}

theorem checkedAddCut_eq (h : s.tableau.WellFormed) {source : Source}
    (hsource : source? s.tableau decisions = some source) : checkedAddCut s source = addCut s source := by
  have hi := h.lt_of_rowOf? (of_source? hsource).1
  have hrow := List.getElem?_eq_getElem hi
  have hlength : 0 < s.tableau.rows[source.row].values.length := by
    rw [h.rectangular _ (List.getElem_mem hi)]
    exact h.nonempty
  rw [checkedAddCut, addCut, lookup_of_getElem? hrow]
  dsimp only
  rw [behindFirst_eq hlength, hrow, h.shaped.checkedAppendRow_eq]
  rfl

theorem checkedRestoreFeasibility_eq (h : s.tableau.WellFormed) :
    checkedRestoreFeasibility s = restoreFeasibility s := by
  rw [checkedRestoreFeasibility, restoreFeasibility, checkedLeavingRow?_eq h]
  cases hleaving : leavingRow? s.tableau with
  | none => rfl
  | some leaving =>
    obtain ⟨i, r⟩ := leaving
    dsimp only
    rewrite [checkedRestore_eq h (of_leavingRow? hleaving).1]
    rfl

/-- A turn with all checks is the same turn. -/
theorem checkedTurn_eq (h : s.tableau.WellFormed) : checkedTurn decisions s = turn decisions s := by
  rw [checkedTurn, turn, checkedIsFeasible_eq h]
  by_cases hfeasible : s.tableau.IsFeasible
  · rw [decide_eq_true hfeasible, if_pos hfeasible]
    dsimp only
    rw [checkedSource?_eq h]
    cases hsource : source? s.tableau decisions with
    | none => rfl
    | some source => exact checkedAddCut_eq h hsource
  · rw [decide_eq_false hfeasible, if_neg hfeasible]
    exact checkedRestoreFeasibility_eq h

/-! A whole run. -/

/-- Cuts a tableau until its first `decisions` variables are whole, within a number of turns. -/
def checkedSolve (decisions limit : Nat) (t : Tableau) : Option Derivation :=
  (run (checkedTurn decisions) limit ⟨t, 0⟩).map fun r => ⟨r.1, r.2⟩

/-- The method with all checks gives the same derivation from a tableau of the relaxation, and goes on where it
does. -/
theorem checkedSolve_eq {p : Program} (ht : Relaxes p [] t) (decisions limit : Nat) :
    checkedSolve decisions limit t = solve decisions limit t := by
  rw [checkedSolve, solve, run_congr (I := fun s => ∃ cuts, Relaxes p cuts s.tableau) ?_ ?_ ⟨[], ht⟩]
  · rintro s ⟨_, hs⟩
    exact checkedTurn_eq hs.wellFormed
  · rintro s moves s' ⟨_, hs⟩ hturn
    exact ⟨_, ((kept_relaxes p).turn hs hturn).1⟩

end Cutting

end ExactSimplex
