import ExactSimplex.Proofs.Scaling.Tableaus
import ExactSimplex.Simplex.Solve

/-!
# The Simplex method on a rescaled objective

Both pricing rules compare reduced costs by what they promise, so that a rescaled objective leaves their
choice. The ratio test and the removal of artificial variables do not depend on finite costs at all. A run on
the rescaled program therefore makes the same moves, on rescaled tableaus.
-/

namespace ExactSimplex

variable {k : Rat}

/-- The step with its tableau rescaled. -/
def Step.rescale (k : Rat) (s : Step) : Step := { s with tableau := s.tableau.rescale k }

/-! Choices. -/

theorem Tableau.improvements_rescale (hk : k ≠ 0) (t : Tableau) :
    (t.rescale k).improvements = t.improvements.map (Option.map (Cost.rescale k)) := by
  rw [improvements, improvements, reducedCosts_rescale, List.map_cons, Option.map_none, ← List.map_tail,
    List.map_map, List.map_map]
  congr 1
  refine List.map_congr_left fun c _ => ?_
  by_cases h : t.sense.Improving c
  · rw [Function.comp_apply, Function.comp_apply, if_pos h,
      if_pos (show (t.rescale k).sense.Improving _ from (Sense.improving_rescale hk t.sense c).mpr h)]
    rfl
  · rw [Function.comp_apply, Function.comp_apply, if_neg h,
      if_neg (show ¬ (t.rescale k).sense.Improving _ from mt (Sense.improving_rescale hk t.sense c).mp h)]
    rfl

theorem Pricing.prefers_rescale (hk : k ≠ 0) (rule : Pricing) (sense : Sense) (a b : Cost) :
    rule.prefers (sense.rescale k) (Cost.rescale k a) (Cost.rescale k b) = rule.prefers sense a b := by
  cases rule with
  | steepest =>
    rw [prefers, prefers, ← map_sub]
    exact decide_eq_decide.mpr (Sense.improving_rescale hk sense (a - b))
  | first => rfl

/-- Both rules select the same column. -/
theorem Pricing.select_rescale (hk : k ≠ 0) (rule : Pricing) (t : Tableau) :
    rule.select (t.rescale k) = (rule.select t).map fun best => (best.1, Cost.rescale k best.2) := by
  rw [select, Tableau.improvements_rescale hk]
  exact firstBest_map (rule.prefers_rescale hk t.sense) t.improvements

theorem Tableau.limits_rescale (k : Rat) (t : Tableau) (j : Nat) : (t.rescale k).limits j = t.limits j :=
  List.map_map ..

theorem Row.isArtificial_rescale (k : Rat) (r : Row) : (r.rescale k).IsArtificial ↔ r.IsArtificial :=
  not_congr Cost.isFinite_rescale

namespace Simplex

/-- The move with its tableaus rescaled. -/
def Move.rescale (k : Rat) : Move → Move
  | .enter pivot before after => .enter pivot (before.rescale k) (after.rescale k)
  | .expel pivot before after => .expel pivot (before.rescale k) (after.rescale k)
  | .drop row before after => .drop row (before.rescale k) (after.rescale k)
  | .stuck tableau => .stuck (tableau.rescale k)

theorem Move.step?_rescale (k : Rat) (move : Move) :
    (move.rescale k).step? = move.step?.map (Step.rescale k) := by
  cases move <;> rfl

/-- The entry with its tableaus rescaled. -/
def Entry.rescale (k : Rat) : Entry → Entry
  | .pivoted pivot before after => .pivoted pivot (before.rescale k) (after.rescale k)
  | .unlimited tableau => .unlimited (tableau.rescale k)

/-! One turn. -/

theorem enter_rescale (k : Rat) (t : Tableau) (j : Nat) :
    enter (t.rescale k) j = (enter t j).map (Entry.rescale k) := by
  have hprimal : Ratios.primal (t.limits j) = (Ratios.primal (t.limits j)).rescale k := rfl
  simp only [enter, Tableau.limits_rescale]
  rw [hprimal, Tableau.record_rescale, ← hprimal]
  cases t.record (.primal (t.limits j)) with
  | error fault => rfl
  | ok before =>
    cases hratio : leastRatio (t.limits j) with
    | none => rfl
    | some i =>
      simp only [Except.map, bind, Except.bind, Tableau.pivot_rescale]
      cases before.pivot i j with
      | error fault => rfl
      | ok after => rfl

theorem stillArtificial_rescale (k : Rat) (t : Tableau) : StillArtificial (t.rescale k) ↔ StillArtificial t := by
  unfold StillArtificial
  constructor
  · rintro ⟨r, hr, hartificial, hbound⟩
    obtain ⟨r', hr', rfl⟩ := List.mem_map.mp hr
    exact ⟨r', hr', (r'.isArtificial_rescale k).mp hartificial, hbound⟩
  · rintro ⟨r, hr, hartificial, hbound⟩
    exact ⟨r.rescale k, List.mem_map_of_mem hr, (r.isArtificial_rescale k).mpr hartificial, hbound⟩

theorem sweep_rescale (k : Rat) (first count i : Nat) (t : Tableau) :
    sweep first count i (t.rescale k) =
      ((sweep first count i t).1.map (Move.rescale k), (sweep first count i t).2.map (Tableau.rescale k)) := by
  induction count generalizing i t with
  | zero => rfl
  | succ count ih =>
    rw [sweep, sweep, Tableau.getElem?_rows_rescale]
    cases t.rows[i]? with
    | none => rfl
    | some r =>
      have hcolumn : expellingColumn? first (r.rescale k) = expellingColumn? first r := rfl
      simp only [Option.map_some, r.isArtificial_rescale k, hcolumn]
      by_cases hartificial : r.IsArtificial
      · simp only [if_pos hartificial]
        cases expellingColumn? first r with
        | some j =>
          simp only [Tableau.pivot_rescale]
          cases t.pivot i j with
          | error fault => rfl
          | ok t' =>
            simp only [Except.map, ih]
            rfl
        | none =>
          simp only [Tableau.removeRow_rescale]
          cases t.removeRow i with
          | error fault => rfl
          | ok t' =>
            simp only [Except.map, ih]
            rfl
      · simp only [if_neg hartificial]
        exact ih (i + 1) t

/-- Every turn is the same on the rescaled tableau. -/
theorem turn_rescale (hk : k ≠ 0) (rule : Pricing) (first : Nat) (t : Tableau) :
    turn rule first (t.rescale k) =
      (turn rule first t).map (Move.rescale k) (Tableau.rescale k) (Ending.map (Tableau.rescale k)) := by
  unfold turn
  rw [Pricing.select_rescale hk]
  cases rule.select t with
  | some best =>
    simp only [Option.map_some, enter_rescale]
    cases enter t best.1 with
    | error fault => rfl
    | ok entry => cases entry <;> rfl
  | none =>
    simp only [Option.map_none, Tableau.isOptimal_rescale hk, stillArtificial_rescale,
      Tableau.length_rows_rescale, sweep_rescale]
    split
    · rfl
    · split
      · rfl
      · cases hsweep : sweep first t.rows.length 0 t with
        | mk moves last =>
          cases last with
          | error fault => rfl
          | ok t' => cases moves <;> rfl

/-! Whole runs. -/

/-- The derivation with its programs and tableaus rescaled. -/
def Derivation.rescale (k : Rat) (d : Derivation) : Derivation where
  form := ⟨d.form.canonical.rescale k, d.form.slacked.rescale k, d.form.augmented.rescale k⟩
  basis := d.basis
  moves := d.moves.map (Move.rescale k)
  ending := d.ending.map (Tableau.rescale k)

theorem steps_rescale (k : Rat) (d : Derivation) : (d.rescale k).steps = d.steps.map (Step.rescale k) := by
  rw [Derivation.steps, Derivation.steps, List.map_filterMap, Derivation.rescale, List.filterMap_map]
  exact List.filterMap_congr fun move _ => move.step?_rescale k

theorem firstArtificial_rescale (k : Rat) (p : Program) : firstArtificial (p.rescale k) = firstArtificial p := by
  rw [firstArtificial, Program.decisions_rescale, Program.slacks_rescale, firstArtificial]

theorem finish_rescale (k : Rat) (first : Nat) (ending : Ending Tableau) :
    finish first (ending.map (Tableau.rescale k)) = (finish first ending).map (Tableau.rescale k) := by
  cases ending with
  | solved t =>
    simp only [Ending.map, finish, Tableau.truncate_rescale]
    cases t.truncate first <;> rfl
  | failed failure => rfl
  | fault reason => rfl

/-- The run on the rescaled program is the rescaled run, or both go on. -/
theorem solve_rescale (hk : k ≠ 0) (rule : Pricing) (limit : Nat) (p : Program) :
    solve rule limit (p.rescale k) = (solve rule limit p).map (Except.map (Derivation.rescale k)) := by
  rw [solve, solve, Program.standardForm_rescale]
  cases p.standardForm with
  | error fault => rfl
  | ok form =>
    simp only [Except.map, Program.initialBasis_rescale]
    cases form.augmented.initialBasis with
    | error failure => rfl
    | ok basis =>
      simp only [solveFrom, Tableau.ofBasis_rescale, firstArtificial_rescale]
      cases Tableau.ofBasis form.augmented basis with
      | error fault => rfl
      | ok t =>
        simp only [Except.map, run_map (turn_rescale hk rule _), Option.map_map]
        congr 1
        funext r
        simp only [Function.comp_apply, finish_rescale]
        rfl

end Simplex

end ExactSimplex
