import ExactSimplex.Proofs.Simplex.Removals
import ExactSimplex.Proofs.Simplex.Totality

/-!
# Replaying the record

The steps of a record tell the whole run. Every step shows the tableau that the pivot of the step before it
leads to, apart from redundant rows, which are removed without a step. The run ends in the tableau behind the
last pivot: its artificial columns are cut off, or a step without a pivot shows why there is no result.
-/

namespace ExactSimplex

/-- The large constant does not occur in the tableau. -/
structure Tableau.FreeOfPenalty (t : Tableau) : Prop where
  rows : ∀ r ∈ t.rows, r.cost.IsFinite
  columns : ∀ c ∈ t.columns, ∀ cost, c.cost = some cost → cost.IsFinite
  reducedCosts : ∀ c ∈ t.reducedCosts, c.IsFinite

/-- With recorded ratios of the rows, the pivot of the step is in the column that the rule selects and in the first
row with the smallest ratio. Without, it is in a row with an artificial basic variable that is zero, and in the
first column in front of the artificial ones in which the row is not zero. -/
def Step.FollowsRule (rule : Pricing) (first : Nat) (s : Step) : Prop :=
  ∀ pivot, s.pivot = some pivot →
    match s.tableau.ratios with
    | some (.primal ratios) =>
      (∃ c, rule.select s.tableau = some (pivot.column, c)) ∧ ratios = s.tableau.limits pivot.column ∧
        ∃ q, ratios[pivot.row]? = some (some q) ∧
          (∀ (k : Nat) q', ratios[k]? = some (some q') → q ≤ q') ∧
          ∀ (k : Nat) q', k < pivot.row → ratios[k]? = some (some q') → q < q'
    | some (.dual _) => False
    | none =>
      ∃ r, s.tableau.rows[pivot.row]? = some r ∧ r.IsArtificial ∧ r.bound = 0 ∧
        Simplex.expellingColumn? first r = some pivot.column

namespace Simplex

variable {rule : Pricing} {first limit : Nat} {q p : Program} {start t t' before after : Tableau}
  {steps : List Step} {moves : List Move} {pivot : Pivot} {d : Derivation}

/-- The pivots of the steps, each made on the tableau of its step, lead from the first tableau to the last. In
the beginning and behind every pivot redundant rows may have been removed. -/
inductive Replays (first : Nat) (start : Tableau) : List Step → Tableau → Prop
  | start {removed : List Nat} {t : Tableau} (h : Removes first start removed t) : Replays first start [] t
  | pivot {steps : List Step} {before after t : Tableau} {pivot : Pivot} {removed : List Nat}
      (h : Replays first start steps before.plain) (hpivot : before.pivot pivot.row pivot.column = .ok after)
      (hremoves : Removes first after removed t) : Replays first start (steps ++ [⟨some pivot, before⟩]) t

namespace Replays

/-- Another redundant row may be removed. -/
theorem drop {i : Nat} {r : Row} (h : Replays first start steps t) (hrow : t.rows[i]? = some r)
    (hredundant : r.IsRedundant first) (hremove : t.removeRow i = .ok t') : Replays first start steps t' := by
  cases h with
  | start h => exact .start (h.snoc hrow hredundant hremove)
  | pivot h hpivot hremoves => exact .pivot h hpivot (hremoves.snoc hrow hredundant hremove)

/-- Another pivot may be made. -/
theorem snoc (h : Replays first start steps t) (hbefore : before.plain = t)
    (hpivot : before.pivot pivot.row pivot.column = .ok after) :
    Replays first start (steps ++ [⟨some pivot, before⟩]) after :=
  .pivot (hbefore ▸ h) hpivot .nil

end Replays

/-- A variable that enters follows the rule and the ratio test. -/
theorem followsRule_enter {j : Nat} {c : Cost} (hselect : rule.select t = some (j, c))
    (henter : enter t j = .ok (.pivoted pivot before after)) :
    Step.FollowsRule rule first ⟨some pivot, before⟩ := by
  obtain ⟨hrecord, i, hratio, rfl, -⟩ := enter_eq_pivoted_iff.mp henter
  obtain ⟨-, rfl⟩ := Tableau.record_eq_ok_iff.mp hrecord
  rintro _ ⟨⟩
  obtain ⟨q, hq, hleast⟩ := leastRatio_le hratio
  exact ⟨⟨c, hselect⟩, rfl, q, hq, hleast, fun k q' hk hq' => leastRatio_lt hratio hq hk hq'⟩

/-- An artificial variable that is expelled leaves for the first variable that is not artificial. -/
theorem followsRule_expel {i j : Nat} {r : Row} (hratios : t.ratios = none) (hrow : t.rows[i]? = some r)
    (hartificial : r.IsArtificial) (hzero : r.bound = 0) (hcolumn : expellingColumn? first r = some j) :
    Step.FollowsRule rule first ⟨some ⟨i, j⟩, t⟩ := by
  rintro _ ⟨⟩
  simp only [hratios]
  exact ⟨r, hrow, hartificial, hzero, hcolumn⟩

/-! The invariant of a run. -/

/-- The steps so far can be replayed and followed the rule. The tableau that they lead to represents the
program. -/
structure Retraces (rule : Pricing) (q : Program) (start : Tableau) (steps : List Step) (t : Tableau) : Prop where
  represents : Represents q t
  ratios : t.ratios = none
  replays : Replays (firstArtificial q) start steps t
  followsRule : ∀ s ∈ steps, s.FollowsRule rule (firstArtificial q)

namespace Retraces

theorem enter {j : Nat} {c : Cost} (h : Retraces rule q start steps t) (hselect : rule.select t = some (j, c))
    (henter : Simplex.enter t j = .ok (.pivoted pivot before after)) :
    Retraces rule q start (steps ++ [⟨some pivot, before⟩]) after := by
  obtain ⟨hrecord, i, -, rfl, hpivot⟩ := enter_eq_pivoted_iff.mp henter
  have hplain := (Tableau.plain_record hrecord).trans (Tableau.plain_of_ratios h.ratios)
  refine ⟨h.represents.enter henter, Tableau.ratios_pivot hpivot, h.replays.snoc hplain hpivot, ?_⟩
  exact List.forall_mem_append.mpr
    ⟨h.followsRule, List.forall_mem_singleton.mpr (followsRule_enter hselect henter)⟩

theorem expel {i j : Nat} {r : Row} (h : Retraces rule q start steps t) (hrow : t.rows[i]? = some r)
    (hartificial : r.IsArtificial) (hzero : r.bound = 0)
    (hcolumn : expellingColumn? (firstArtificial q) r = some j) (hpivot : t.pivot i j = .ok t') :
    Retraces rule q start (steps ++ [⟨some ⟨i, j⟩, t⟩]) t' := by
  have hreplays : Replays (firstArtificial q) start (steps ++ [⟨some ⟨i, j⟩, t⟩]) t' :=
    h.replays.snoc (Tableau.plain_of_ratios h.ratios) hpivot
  have hfollows : Step.FollowsRule rule (firstArtificial q) ⟨some ⟨i, j⟩, t⟩ :=
    followsRule_expel h.ratios hrow hartificial hzero hcolumn
  exact ⟨h.represents.expel hrow hzero hpivot, Tableau.ratios_pivot hpivot, hreplays,
    List.forall_mem_append.mpr ⟨h.followsRule, List.forall_mem_singleton.mpr hfollows⟩⟩

theorem drop {i : Nat} {r : Row} (h : Retraces rule q start steps t) (hrow : t.rows[i]? = some r)
    (hartificial : r.IsArtificial) (hzero : r.bound = 0)
    (hnone : expellingColumn? (firstArtificial q) r = none) (hremove : t.removeRow i = .ok t') :
    Retraces rule q start steps t' := by
  have hredundant : r.IsRedundant (firstArtificial q) :=
    ⟨hartificial, hzero, fun _ hpos hlt => entry_eq_zero_of_expellingColumn? hnone hpos hlt⟩
  have hratios : t'.ratios = none := by
    obtain ⟨-, rfl⟩ := Tableau.removeRow_eq_ok_iff.mp hremove
    rfl
  exact ⟨h.represents.drop hrow hzero hnone hremove, hratios, h.replays.drop hrow hredundant hremove,
    h.followsRule⟩

theorem sweeps (h : Retraces rule q start steps t) (hart : ¬ StillArtificial t)
    (hs : Sweeps (firstArtificial q) t moves t') :
    Retraces rule q start (steps ++ moves.filterMap Move.step?) t' := by
  induction hs generalizing steps with
  | nil t => simpa using h
  | expel hrow hartificial hcolumn hpivot _ ih =>
    have hzero := not_stillArtificial_iff.mp hart _ _ hrow hartificial
    have hstill := not_stillArtificial_expel hrow hzero hart h.represents.wellFormed.rectangular hpivot
    have hrest := ih (h.expel hrow hartificial hzero hcolumn hpivot) hstill
    rwa [List.append_assoc] at hrest
  | drop hrow hartificial hnone hremove _ ih =>
    have hzero := not_stillArtificial_iff.mp hart _ _ hrow hartificial
    exact ih (h.drop hrow hartificial hzero hnone hremove) (not_stillArtificial_drop hart hremove)

/-- Every turn after which the run goes on keeps the invariant. -/
theorem turn (h : Retraces rule q start steps t)
    (hturn : Simplex.turn rule (firstArtificial q) t = .next moves t') :
    Retraces rule q start (steps ++ moves.filterMap Move.step?) t' := by
  rcases turn_eq_next hturn with ⟨j, c, pivot, before, hselect, henter, rfl⟩ | ⟨-, hart, hsweep, -⟩
  · exact h.enter hselect henter
  · exact h.sweeps hart (sweeps_of_sweep hsweep)

end Retraces

/-- The steps that were made until a state is reached can be replayed. -/
theorem Represents.retraces (h : Represents q start) (hratios : start.ratios = none)
    (hreach : Reaches (Simplex.turn rule (firstArtificial q)) start moves t) :
    Retraces rule q start (moves.filterMap Move.step?) t := by
  let P : List Move → Tableau → Prop := fun moves t => Retraces rule q start (moves.filterMap Move.step?) t
  have hstep : ∀ moves t made t', P moves t →
      Simplex.turn rule (firstArtificial q) t = .next made t' → P (moves ++ made) t' := by
    intro moves t made t' ht hturn
    have hnext := ht.turn hturn
    rwa [← List.filterMap_append] at hnext
  have hretraces : P moves t := hreach.invariant hstep ⟨h, hratios, .start .nil, fun s hs => by cases hs⟩
  exact hretraces

/-! The end of a run. -/

/-- How the derivation ends when its pivots have led to the tableau `last`. -/
inductive Derivation.EndsIn (rule : Pricing) (d : Derivation) (replayed : List Step) (last : Tableau) : Prop
  | solved (t : Tableau) (hsteps : d.steps = replayed) (hending : d.ending = .solved t)
      (htruncate : last.truncate (firstArtificial d.form.augmented) = .ok t) (hoptimal : t.IsOptimal)
      (hfeasible : t.IsFeasible) (hfree : t.FreeOfPenalty)
  | infeasible (hsteps : d.steps = replayed ++ [⟨none, last⟩]) (hending : d.ending = .failed .infeasible)
      (hoptimal : last.IsOptimal) (hartificial : StillArtificial last)
  | unbounded (j : Nat) (c : Cost) (detected : Tableau) (hsteps : d.steps = replayed ++ [⟨none, detected⟩])
      (hending : d.ending = .failed (.unbounded j)) (hlast : detected.plain = last)
      (hselect : rule.select detected = some (j, c))
      (hratios : detected.ratios = some (.primal (detected.limits j))) (hnone : ∀ q ∈ detected.limits j, q = none)

/-- Without artificial rows and columns no multiple of `M` is left. -/
theorem freeOfPenalty_truncate (ht : Represents p.augmented t) (hfinite : ∀ r ∈ t.rows, ¬ r.IsArtificial)
    (htruncate : t.truncate (firstArtificial p.augmented) = .ok t') : t'.FreeOfPenalty := by
  have hwell := wellFormed_truncate_firstArtificial ht hfinite htruncate
  have hprice : ∀ j, j < t'.columns.length → (t'.price j).penalty = 0 := by
    intro j hlt
    rcases Nat.eq_zero_or_pos j with rfl | hpos
    · rw [hwell.price_zero, Cost.penalty_zero]
    · rw [price_truncate_firstArtificial ht htruncate hpos hlt, Cost.penalty_ofRat]
  have hbasic : ∀ i, i < t'.rows.length → (t'.basicCost i).penalty = 0 := by
    intro i hi
    obtain ⟨j, hj⟩ := hwell.basic i hi
    rw [hj.basicCost_eq]
    exact hprice j hj.lt
  constructor
  · intro r hr
    obtain ⟨i, hi⟩ := List.mem_iff_getElem?.mp hr
    rw [← Tableau.basicCost_of_getElem? hi]
    exact hbasic i (List.getElem?_eq_some_iff.mp hi).1
  · intro c hc cost hcost
    obtain ⟨j, hj⟩ := List.mem_iff_getElem?.mp hc
    have hpenalty := hprice j (List.getElem?_eq_some_iff.mp hj).1
    rwa [Tableau.price, hj, Option.bind_some, hcost, Option.getD_some] at hpenalty
  · intro c hc
    obtain ⟨j, hj⟩ := List.mem_iff_getElem?.mp hc
    rw [Tableau.getElem?_reducedCosts] at hj
    split at hj
    · rename_i hlt
      cases hj
      exact Tableau.penalty_reducedCost_eq_zero hbasic (hprice j hlt)
    · cases hj

/-- The last turn ends the derivation in one of the three ways. -/
theorem Retraces.endsIn {replayed : List Step} {ending : Ending Tableau}
    (h : Retraces rule p.augmented start replayed t) (hform : d.form.augmented = p.augmented)
    (hdone : Simplex.turn rule (firstArtificial p.augmented) t = .done moves ending)
    (hsteps : d.steps = replayed ++ moves.filterMap Move.step?)
    (hending : d.ending = finish (firstArtificial p.augmented) ending) : d.EndsIn rule replayed t := by
  have ht := h.represents
  rcases ht.ending_of_turn hdone with rfl | rfl | ⟨j, rfl⟩
  · obtain ⟨rfl, hselect, -, hsweep⟩ := turn_eq_solved hdone
    obtain ⟨t', htruncate⟩ := ht.exists_truncate
    have hoptimal := (Pricing.select_eq_none_iff rule t).mp hselect
    have hfinite := not_isArtificial_of_sweep hsweep
    rw [finish_eq_solved_iff.mpr ⟨t, rfl, htruncate⟩] at hending
    exact .solved t' (by simpa using hsteps) hending (hform ▸ htruncate) (hoptimal.truncate htruncate)
      (ht.feasible.truncate htruncate) (freeOfPenalty_truncate ht hfinite htruncate)
  · obtain ⟨rfl, hselect, hart⟩ := turn_eq_infeasible hdone
    exact .infeasible hsteps hending ((Pricing.select_eq_none_iff rule t).mp hselect) hart
  · obtain ⟨c, before, rfl, hselect, henter⟩ := turn_eq_unbounded hdone
    obtain ⟨hrecord, hratio⟩ := enter_eq_unlimited_iff.mp henter
    have hplain := (Tableau.plain_record hrecord).trans (Tableau.plain_of_ratios h.ratios)
    obtain ⟨-, rfl⟩ := Tableau.record_eq_ok_iff.mp hrecord
    exact .unbounded j c _ hsteps hending hplain hselect rfl (leastRatio_eq_none_iff.mp hratio)

/-- The steps of a derivation are those that lead to the tableau of its last turn, and what that turn adds. -/
theorem exists_retraces_of_solve (hp : p.Accepted) (h : solve rule limit p = some (.ok d)) :
    ∃ basis start replayed last, p.augmented.initialBasis = .ok basis ∧
      Tableau.ofProgram p.augmented basis.columns = .ok start ∧
      d.basis = List.zipWith (fun j c => (variableName j, c.bound)) basis.columns p.augmented.constraints ∧
      Retraces rule p.augmented start replayed last ∧ d.EndsIn rule replayed last := by
  obtain ⟨basis, start, ending, hinitial, hprogram, hratios, hstart, hbasis, hrun, hfinish⟩ :=
    exists_start_of_solve hp h
  obtain ⟨front, made, last, hreach, hdone, hmoves⟩ := exists_reaches_of_run hrun
  have hretraces := hstart.retraces hratios hreach
  have hsteps : d.steps = front.filterMap Move.step? ++ made.filterMap Move.step? := by
    rw [Derivation.steps, hmoves, List.filterMap_append]
  have hform : d.form.augmented = p.augmented := by rw [form_of_solve hp h]
  exact ⟨basis, start, _, last, hinitial, hprogram, hbasis, hretraces,
    hretraces.endsIn hform hdone hsteps hfinish⟩

/-- A run that ends tells a derivation that can be replayed. It starts with the tableau of the augmented program
for the starting basis, its pivots follow the rule and lead to the tableau in which the run ends. -/
theorem replays_of_solve {answer : Except Fault Derivation} (hp : p.Accepted)
    (h : solve rule limit p = some answer) :
    ∃ d basis start replayed last, answer = .ok d ∧ d.form.augmented.initialBasis = .ok basis ∧
      d.basis = List.zipWith (fun j c => (variableName j, c.bound)) basis.columns d.form.augmented.constraints ∧
      Tableau.ofProgram d.form.augmented basis.columns = .ok start ∧
      Replays (firstArtificial d.form.augmented) start replayed last ∧
      (∀ s ∈ replayed, s.FollowsRule rule (firstArtificial d.form.augmented)) ∧ d.EndsIn rule replayed last := by
  obtain ⟨d, rfl, -⟩ := ending_of_solve hp h
  have hform : d.form.augmented = p.augmented := by rw [form_of_solve hp h]
  obtain ⟨basis, start, replayed, last, hinitial, hprogram, hbasis, hretraces, hends⟩ :=
    exists_retraces_of_solve hp h
  rw [← hform] at hinitial hprogram hbasis hretraces
  exact ⟨d, basis, start, replayed, last, rfl, hinitial, hbasis, hprogram, hretraces.replays,
    hretraces.followsRule, hends⟩

/-- An equation and the double of it. -/
def repeated : Program := ⟨.maximize, [1, 2], [], [], [⟨[1, 1], .eq, 2⟩, ⟨[2, 2], .eq, 4⟩]⟩

theorem replays_repeated : ∃ d basis start replayed last, solve .steepest 4 repeated = some (.ok d) ∧
    d.steps.length = 1 ∧ d.form.augmented.initialBasis = .ok basis ∧
    Tableau.ofProgram d.form.augmented basis.columns = .ok start ∧
    Replays (firstArtificial d.form.augmented) start replayed last ∧
    (∀ s ∈ replayed, s.FollowsRule .steepest (firstArtificial d.form.augmented)) ∧ d.EndsIn .steepest replayed last := by
  have hrun : (derivation? .steepest 4 repeated).any (fun d => decide (d.steps.length = 1)) = true := by
    decide +kernel
  obtain ⟨d, hsome, hlength⟩ := (Option.any_eq_true _ _).mp hrun
  have hd := derivation?_eq_some_iff.mp hsome
  obtain ⟨d', basis, start, replayed, last, heq, hinitial, -, hprogram, hreplays, hrule, hends⟩ :=
    replays_of_solve (p := repeated) rfl hd
  cases heq
  exact ⟨d, basis, start, replayed, last, hd, of_decide_eq_true hlength, hinitial, hprogram, hreplays, hrule, hends⟩

end Simplex

end ExactSimplex
