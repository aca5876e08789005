import ExactSimplex.Proofs.Checked.Start
import ExactSimplex.Proofs.Lockstep
import ExactSimplex.Proofs.Simplex.Totality

/-!
# A Simplex method that checks what it reads

Every choice of the method reads reduced costs, right-hand sides or the entries of a column or a row. On the
tableaus of the augmented program all of these exist, so that the method with all checks takes the same turns and
gives the same derivation, whether its run ends or not.
-/

namespace ExactSimplex

variable {rule : Pricing} {t t' : Tableau} {r : Row} {first count i j : Nat}

/-! Choices. -/

/-- The column of the entering variable with its reduced cost. -/
def Pricing.checkedSelect (rule : Pricing) (t : Tableau) : Except Fault (Option (Nat × Cost)) := do
  let costs ← t.checkedReducedCosts
  let candidates ← (List.range' 1 (t.columns.length - 1)).mapM fun j => lookup .noColumn costs j
  .ok (firstBest (rule.prefers t.sense)
    (none :: candidates.map fun c => if t.sense.Improving c then some c else none))

namespace Tableau

/-- Whether no variable promises a better objective. -/
def checkedIsOptimal (t : Tableau) : Except Fault Bool := do
  let costs ← t.checkedReducedCosts
  let others ← behindFirst .noColumn costs
  .ok (decide (∀ c ∈ others, ¬ t.sense.Improving c))

/-- How far each row lets the variable of column `j` grow. -/
def checkedLimits (t : Tableau) (j : Nat) : Except Fault (List (Option Rat)) :=
  t.rows.mapM fun r => do
    let entry ← r.read j
    if 0 < entry then do
      let bound ← r.read 0
      let ratio ← divide bound entry
      .ok (some ratio)
    else .ok none

namespace Shaped

variable (h : t.Shaped)

include h

theorem checkedSelect_eq (rule : Pricing) : rule.checkedSelect t = .ok (rule.select t) := by
  have hcandidates : ((List.range' 1 (t.columns.length - 1)).mapM fun j => lookup .noColumn t.reducedCosts j) =
      .ok ((List.range' 1 (t.columns.length - 1)).map t.reducedCost) := by
    refine mapM_eq_ok_map fun j hj => lookup_of_getElem? ?_
    rw [List.mem_range'_1] at hj
    rw [getElem?_reducedCosts, if_pos (by omega)]
  have htail : (List.range' 1 (t.columns.length - 1)).map t.reducedCost = t.reducedCosts.tail := by
    rw [reducedCosts, ← List.map_tail, List.range_eq_range', List.tail_range']
  rw [Pricing.checkedSelect, h.checkedReducedCosts_eq, ok_bind, hcandidates, ok_bind, htail]
  rfl

theorem checkedIsOptimal_eq : t.checkedIsOptimal = .ok (decide t.IsOptimal) := by
  have hpos : 0 < t.reducedCosts.length := t.length_reducedCosts.symm ▸ h.nonempty
  rw [checkedIsOptimal, h.checkedReducedCosts_eq, ok_bind, behindFirst_eq hpos, ok_bind]
  rfl

theorem checkedLimits_eq (hj : j < t.columns.length) : t.checkedLimits j = .ok (t.limits j) := by
  refine mapM_eq_ok_map fun r hr => ?_
  rw [h.read_eq hr hj, ok_bind]
  by_cases hpos : 0 < r.entry j
  · rw [if_pos hpos, if_pos hpos, h.read_eq hr h.nonempty, ok_bind, divide_eq_ok_iff.mpr ⟨hpos.ne', rfl⟩, ok_bind]
    rfl
  · rw [if_neg hpos, if_neg hpos]

end Shaped

end Tableau

namespace Simplex

open Tableau

/-! One turn. -/

/-- Records the ratios of column `j`, and exchanges its variable for that of the row with the least. -/
def checkedEnter (t : Tableau) (j : Nat) : Except Fault Entry := do
  let limits ← t.checkedLimits j
  let before ← t.record (.primal limits)
  match leastRatio limits with
  | none => return .unlimited before
  | some i => return .pivoted ⟨i, j⟩ before (← before.checkedPivot i j)

/-- Whether some artificial variable is basic at a value other than zero. -/
def checkedStillArtificial (t : Tableau) : Except Fault Bool := do
  let bounds ← (t.rows.filter fun r => r.IsArtificial).mapM fun r => r.read 0
  .ok (decide (∃ b ∈ bounds, b ≠ 0))

/-- The first column in front of `first` in which the row is not zero. -/
def checkedExpellingColumn? (first : Nat) (r : Row) : Except Fault (Option Nat) := do
  let entries ← (List.range' 1 (first - 1)).mapM fun j => do
    let entry ← r.read j
    .ok (j, entry)
  .ok ((entries.find? fun entry => entry.2 ≠ 0).map (·.1))

/-- Expels the artificial variables from `count` rows, beginning with row `i`. -/
def checkedSweep (first : Nat) : (count i : Nat) → Tableau → List Move × Except Fault Tableau
  | 0, _, t => ([], .ok t)
  | count + 1, i, t =>
    match t.rows[i]? with
    | none => ([], .ok t)
    | some r =>
      if r.IsArtificial then
        match checkedExpellingColumn? first r with
        | .error fault => ([], .error fault)
        | .ok (some j) =>
          match t.checkedPivot i j with
          | .error fault => ([], .error fault)
          | .ok t' =>
            let rest := checkedSweep first count (i + 1) t'
            (.expel ⟨i, j⟩ t t' :: rest.1, rest.2)
        | .ok none =>
          match t.checkedRemoveRow i with
          | .error fault => ([], .error fault)
          | .ok t' =>
            let rest := checkedSweep first count i t'
            (.drop i t t' :: rest.1, rest.2)
      else checkedSweep first count (i + 1) t

/-- One turn: a variable enters, or artificial variables are expelled, or the run ends. -/
def checkedTurn (rule : Pricing) (first : Nat) (t : Tableau) : Turn Move Tableau (Ending Tableau) :=
  match rule.checkedSelect t with
  | .error fault => .done [] (.fault fault)
  | .ok (some (j, _)) =>
    match checkedEnter t j with
    | .error fault => .done [] (.fault fault)
    | .ok (.unlimited before) => .done [.stuck before] (.failed (.unbounded j))
    | .ok (.pivoted pivot before after) => .next [.enter pivot before after] after
  | .ok none =>
    match t.checkedIsOptimal with
    | .error fault => .done [] (.fault fault)
    | .ok false => .done [] (.fault .notOptimal)
    | .ok true =>
      match checkedStillArtificial t with
      | .error fault => .done [] (.fault fault)
      | .ok true => .done [.stuck t] (.failed .infeasible)
      | .ok false =>
        match checkedSweep first t.rows.length 0 t with
        | (moves, .error fault) => .done moves (.fault fault)
        | ([], .ok t') => .done [] (.solved t')
        | (moves, .ok t') => .next moves t'

section Turn

variable (h : t.Shaped)

include h

theorem checkedEnter_eq (hj : j < t.columns.length) : checkedEnter t j = enter t j := by
  rw [checkedEnter, enter, h.checkedLimits_eq hj, ok_bind]
  refine bind_congr_of_ok fun before hbefore => ?_
  cases leastRatio (t.limits j) with
  | none => rfl
  | some i =>
    dsimp only
    rw [(h.record hbefore).checkedPivot_eq]

theorem checkedStillArtificial_eq : checkedStillArtificial t = .ok (decide (StillArtificial t)) := by
  have hbounds : ((t.rows.filter fun r => r.IsArtificial).mapM fun r => r.read 0) =
      .ok ((t.rows.filter fun r => r.IsArtificial).map Row.bound) :=
    mapM_eq_ok_map fun r hr => h.read_eq (List.mem_of_mem_filter hr) h.nonempty
  rw [checkedStillArtificial, hbounds, ok_bind]
  refine congrArg Except.ok (decide_eq_decide.mpr ?_)
  simp [StillArtificial, and_assoc]

theorem checkedExpellingColumn?_eq (hr : r ∈ t.rows) (hfirst : first ≤ t.columns.length) :
    checkedExpellingColumn? first r = .ok (expellingColumn? first r) := by
  have hentries : ((List.range' 1 (first - 1)).mapM fun j => do
      let entry ← r.read j
      Except.ok (j, entry)) = .ok ((List.range' 1 (first - 1)).map fun j => (j, r.entry j)) := by
    refine mapM_eq_ok_map fun j hj => ?_
    rw [List.mem_range'_1] at hj
    rw [h.read_eq hr (by omega), ok_bind]
  rw [checkedExpellingColumn?, hentries, ok_bind, List.find?_map, Option.map_map]
  exact congrArg Except.ok Option.map_id'

end Turn

/-- Neither a pivot nor the removal of a row takes a column away. -/
theorem checkedSweep_eq (h : t.Shaped) (hfirst : first ≤ t.columns.length) :
    checkedSweep first count i t = sweep first count i t := by
  induction count generalizing i t with
  | zero => rfl
  | succ count ih =>
    rw [checkedSweep, sweep]
    cases hrow : t.rows[i]? with
    | none => rfl
    | some r =>
      dsimp only
      by_cases hartificial : r.IsArtificial
      · rw [if_pos hartificial, if_pos hartificial, checkedExpellingColumn?_eq h (List.mem_of_getElem? hrow) hfirst]
        cases expellingColumn? first r with
        | some j =>
          dsimp only
          rw [h.checkedPivot_eq]
          cases hpivot : t.pivot i j with
          | error fault => rfl
          | ok t' =>
            have hcolumns : t'.columns = t.columns := by
              obtain ⟨_, -, -, -, -, rfl⟩ := pivot_eq_ok_iff.mp hpivot
              rfl
            dsimp only
            rw [ih (h.pivot hpivot) (hcolumns ▸ hfirst)]
        | none =>
          dsimp only
          rw [h.checkedRemoveRow_eq]
          cases hremove : t.removeRow i with
          | error fault => rfl
          | ok t' =>
            dsimp only
            rw [ih (h.removeRow hremove) (columns_removeRow hremove ▸ hfirst)]
      · rw [if_neg hartificial, if_neg hartificial]
        exact ih h hfirst

/-- A turn with all checks is the same turn. -/
theorem checkedTurn_eq (h : t.Shaped) (hfirst : first ≤ t.columns.length) :
    checkedTurn rule first t = turn rule first t := by
  rw [checkedTurn, turn, h.checkedSelect_eq]
  cases hselect : rule.select t with
  | some best =>
    obtain ⟨j, c⟩ := best
    dsimp only
    rewrite [checkedEnter_eq h (Pricing.of_select hselect).2.1]
    rfl
  | none =>
    -- What the rule leaves is optimal, as is asserted behind the choice.
    have hoptimal := (Pricing.select_eq_none_iff rule t).mp hselect
    dsimp only
    rw [h.checkedIsOptimal_eq, decide_eq_true hoptimal, if_neg (not_not.mpr hoptimal),
      checkedStillArtificial_eq h, checkedSweep_eq h hfirst]
    by_cases hart : StillArtificial t
    · rw [decide_eq_true hart, if_pos hart]
    · rewrite [decide_eq_false hart, if_neg hart]
      rfl

/-! A whole run. -/

/-- How many columns stand from column `n` on. -/
def columnsFrom (t : Tableau) (n : Nat) : Except Fault Nat :=
  if n ≤ t.columns.length then .ok (t.columns.length - n) else .error .noColumn

/-- Cuts the artificial columns off the last tableau, once they are counted. -/
def checkedFinish (first : Nat) : Ending Tableau → Ending Tableau
  | .solved t =>
    match columnsFrom t first >>= fun _ => t.checkedTruncate first with
    | .ok t' => .solved t'
    | .error fault => .fault fault
  | ending => ending

theorem checkedFinish_eq {ending : Ending Tableau}
    (h : ∀ t, ending = .solved t → t.Shaped ∧ first ≤ t.columns.length) :
    checkedFinish first ending = finish first ending := by
  cases ending with
  | solved t =>
    obtain ⟨hshaped, hfirst⟩ := h t rfl
    rewrite [checkedFinish, finish, columnsFrom, if_pos hfirst, ok_bind, hshaped.checkedTruncate_eq]
    rfl
  | failed failure => rfl
  | fault fault => rfl

/-- Solves a program in standard form from a starting basis, within a number of turns. -/
def checkedSolveFrom (rule : Pricing) (limit : Nat) (form : StandardForm) (basis : Basis) : Option Derivation :=
  let p := form.augmented
  let named := List.zipWith (fun j c => (variableName j, c.bound)) basis.columns p.constraints
  match Tableau.checkedOfBasis p basis with
  | .error fault => some ⟨form, named, [], .fault fault⟩
  | .ok t =>
    (run (checkedTurn rule (firstArtificial p)) limit t).map fun r =>
      ⟨form, named, r.1, checkedFinish (firstArtificial p) r.2⟩

/-- Solves a program within a number of turns. -/
def checkedSolve (rule : Pricing) (limit : Nat) (p : Program) : Option (Except Fault Derivation) :=
  match p.checkedStandardForm with
  | .error fault => some (.error fault)
  | .ok form =>
    match form.augmented.checkedInitialBasis with
    | .error fault => some (.error fault)
    | .ok (.error failure) => some (.ok ⟨form, [], [], .failed failure⟩)
    | .ok (.ok basis) => (checkedSolveFrom rule limit form basis).map .ok

variable {q p : Program} {limit : Nat}

/-- A tableau that represents a program has a shape, and the columns in front of the artificial ones. -/
theorem Represents.shaped (h : Represents q t) : t.Shaped ∧ firstArtificial q ≤ t.columns.length :=
  ⟨h.wellFormed.shaped, h.firstArtificial_le⟩

/-- The tableau in which a run is solved represents the program that the first one does. -/
theorem Represents.of_run_solved {moves : List Move} (h : Represents q t)
    (hrun : run (Simplex.turn rule (firstArtificial q)) limit t = some (moves, .solved t')) : Represents q t' := by
  obtain ⟨front, last, s, hreach, hdone, -⟩ := exists_reaches_of_run hrun
  obtain ⟨-, -, -, hsweep⟩ := turn_eq_solved hdone
  exact (sweep_nil hsweep).1 ▸ h.reaches hreach

/-- The method with all checks gives the same derivation of an accepted program, and goes on where it does. -/
theorem checkedSolve_eq (hp : p.Accepted) (rule : Pricing) (limit : Nat) :
    checkedSolve rule limit p = solve rule limit p := by
  obtain ⟨columns, t, hinitial, -, hbasis, -, hstart⟩ := exists_start hp
  have hrun : run (checkedTurn rule (firstArtificial p.augmented)) limit t =
      run (turn rule (firstArtificial p.augmented)) limit t :=
    run_congr (I := Represents p.augmented) (fun _ ht => checkedTurn_eq ht.shaped.1 ht.shaped.2)
      (fun _ _ _ ht hturn => ht.turn hturn) hstart limit
  -- The last tableau still has all columns, so that the artificial ones can be counted and cut off.
  have hfinish : ∀ r, run (turn rule (firstArtificial p.augmented)) limit t = some r →
      checkedFinish (firstArtificial p.augmented) r.2 = finish (firstArtificial p.augmented) r.2 := by
    rintro ⟨moves, ending⟩ hr
    refine checkedFinish_eq fun t' hsolved => ?_
    obtain rfl : ending = .solved t' := hsolved
    exact (hstart.of_run_solved hr).shaped
  rw [checkedSolve, solve, hp.checkedStandardForm_eq, Program.standardForm_eq hp.artificials_eq]
  dsimp only
  rw [Program.checkedInitialBasis_eq hp.isConsistent_augmented, hinitial]
  dsimp only
  rw [checkedSolveFrom, solveFrom]
  dsimp only
  rw [Tableau.checkedOfBasis_eq, hbasis]
  dsimp only
  rw [hrun]
  cases hr : run (turn rule (firstArtificial p.augmented)) limit t with
  | none => rfl
  | some r =>
    rw [Option.map_some, Option.map_some, hfinish r hr]
    rfl

end Simplex

end ExactSimplex
