import ExactSimplex.Proofs.Simplex.Expulsion
import ExactSimplex.Proofs.Simplex.Record
import ExactSimplex.Proofs.Simplex.Replay

/-!
# Progress

No pivot makes the objective worse, and one with a positive ratio makes it better. The removal of a redundant row
leaves the objective value as it is, and one row less. Between two tableaus with the same basic variables no row was
removed, so that they have the same solutions. They then have the same basic solution, which has one objective.
-/

namespace ExactSimplex

/-- How far the pivot of a step lets the entering variable grow: the right-hand side of its row by the pivot
element. -/
def Step.ratio? (s : Step) : Option Rat :=
  s.pivot.map fun pivot => s.tableau.entry pivot.row 0 / s.tableau.entry pivot.row pivot.column

/-- In the step a variable entered in a row that the ratio test chose. -/
def Step.isEntering (s : Step) : Bool :=
  match s.pivot, s.tableau.ratios with
  | some _, some (.primal _) => true
  | _, _ => false

/-- What holds between a tableau and a later one: rows may have been removed, and as long as none was the solutions
are the same. The objective has not become worse. -/
structure Tableau.Follows (sense : Sense) (t t' : Tableau) : Prop where
  length_rows_le : t'.rows.length ≤ t.rows.length
  holds_iff : t'.rows.length = t.rows.length → ∀ x, t'.Holds x ↔ t.Holds x
  notWorse : ¬ sense.Surpasses t.objectiveValue t'.objectiveValue

/-- What holds between a step and a later tableau: the step made a pivot, and where the ratio of the pivot is
positive, the objective has become better. -/
structure Step.Precedes (sense : Sense) (s : Step) (t : Tableau) : Prop where
  ratio : ∃ q, s.ratio? = some q ∧ 0 ≤ q
  follows : s.tableau.Follows sense t
  surpasses : ∀ q, s.ratio? = some q → 0 < q → sense.Surpasses t.objectiveValue s.tableau.objectiveValue

variable {rule : Pricing} {sense : Sense} {t t' t'' : Tableau} {s : Step}

namespace Tableau.Follows

theorem refl (sense : Sense) (t : Tableau) : t.Follows sense t :=
  ⟨le_rfl, fun _ _ => Iff.rfl, sense.not_surpasses_self _⟩

theorem trans (h : t.Follows sense t') (h' : t'.Follows sense t'') : t.Follows sense t'' := by
  have hle := h.length_rows_le
  have hle' := h'.length_rows_le
  exact ⟨hle'.trans hle, fun heq x => (h'.holds_iff (by omega) x).trans (h.holds_iff (by omega) x),
    Sense.not_surpasses_trans h.notWorse h'.notWorse⟩

/-- Recorded ratios make no difference. -/
theorem of_plain (h : t'.plain = t) : t.Follows sense t' := by
  subst h
  exact ⟨le_rfl, fun _ _ => Iff.rfl, sense.not_surpasses_self _⟩

end Tableau.Follows

/-- What a step has gained stays gained. -/
theorem Step.Precedes.trans (h : s.Precedes sense t) (h' : t.Follows sense t') : s.Precedes sense t' :=
  ⟨h.ratio, h.follows.trans h', fun q hq hpos => (h.surpasses q hq hpos).trans_not h'.notWorse⟩

namespace Simplex

variable {first limit : Nat} {p q : Program} {start before after : Tableau} {steps : List Step} {removed : List Nat}
  {pivot : Pivot}

/-! One pivot. -/

/-- The ratio of a step is not negative. Either it is zero, or a variable entered that promises a better objective. -/
theorem Represents.ratio_nonneg (h : Represents q before)
    (hfollows : Step.FollowsRule rule first ⟨some pivot, before⟩) :
    0 ≤ before.entry pivot.row 0 / before.entry pivot.row pivot.column ∧
      (before.entry pivot.row 0 / before.entry pivot.row pivot.column = 0 ∨
        q.sense.Improving (before.reducedCost pivot.column)) := by
  have hrule := hfollows pivot rfl
  dsimp only at hrule
  split at hrule
  · obtain ⟨⟨c, hselect⟩, rfl, ratio, hratio, -⟩ := hrule
    obtain ⟨-, -, rfl, himproving⟩ := Pricing.of_select hselect
    obtain ⟨hrow, hpos, -⟩ := Tableau.of_getElem?_limits hratio
    have hbound := Tableau.isFeasible_iff.mp h.feasible pivot.row hrow
    exact ⟨div_nonneg hbound hpos.le, .inr (h.sense ▸ himproving)⟩
  · exact hrule.elim
  · obtain ⟨r, hrow, -, hzero, -⟩ := hrule
    have hentry : before.entry pivot.row 0 = 0 := (Tableau.entry_of_getElem? hrow).trans hzero
    rw [hentry, zero_div]
    exact ⟨le_rfl, .inl rfl⟩

/-- A pivot does not make the objective worse, and makes it better where its ratio is positive. -/
theorem Represents.precedes_pivot (h : Represents q before)
    (hfollows : Step.FollowsRule rule first ⟨some pivot, before⟩)
    (hpivot : before.pivot pivot.row pivot.column = .ok after) :
    Step.Precedes q.sense ⟨some pivot, before⟩ after := by
  have hrect := h.wellFormed.rectangular
  obtain ⟨hnonneg, hcases⟩ := h.ratio_nonneg hfollows
  set ratio := before.entry pivot.row 0 / before.entry pivot.row pivot.column with hratio
  have hobjective : after.objectiveValue = before.objectiveValue - ratio • before.reducedCost pivot.column :=
    Tableau.reducedCost_pivot hrect hpivot 0
  have hlength := (Tableau.length_rows_pivot hpivot).le
  refine ⟨⟨ratio, rfl, hnonneg⟩, ⟨hlength, fun _ => Tableau.holds_pivot hrect hpivot, ?_⟩, fun k hk hpos => ?_⟩
  · rw [Sense.surpasses_iff, hobjective, sub_sub_cancel_left]
    rcases hcases with hzero | himproving
    · rw [hzero, zero_smul, neg_zero]
      exact q.sense.not_improving_zero
    · rw [← smul_neg]
      exact Sense.not_improving_smul hnonneg himproving.not_neg
  · obtain rfl : ratio = k := Option.some.inj hk
    rw [Sense.surpasses_iff, hobjective, sub_sub_cancel]
    rcases hcases with hzero | himproving
    · exact absurd hzero hpos.ne'
    · exact himproving.smul hpos

/-- The removal of redundant rows leaves the objective as it is. -/
theorem Removes.follows (h : Removes first t removed t') : t.Follows sense t' := by
  induction h with
  | nil => exact .refl sense t
  | snoc _ hrow hredundant hremove ih =>
    have hlength := Tableau.length_rows_removeRow hremove
    refine ih.trans ⟨by omega, fun heq => by omega, ?_⟩
    rw [objectiveValue_removeRow hrow hredundant.bound hremove]
    exact sense.not_surpasses_self _

/-! All pivots of a run. -/

/-- Each step precedes the tableaus of the steps behind it and the tableau that they lead to. -/
theorem Replays.precedes (h : Replays first start steps t) (hrepresents : ∀ s ∈ steps, Represents q s.tableau)
    (hrule : ∀ s ∈ steps, s.FollowsRule rule first) :
    (steps.Pairwise fun s s' => s.Precedes q.sense s'.tableau) ∧ ∀ s ∈ steps, s.Precedes q.sense t := by
  induction h with
  | start h => exact ⟨.nil, fun s hs => by cases hs⟩
  | @pivot steps before after t pivot removed h hpivot hremoves ih =>
    rw [List.forall_mem_append, List.forall_mem_singleton] at hrepresents hrule
    obtain ⟨hpairwise, hall⟩ := ih hrepresents.1 hrule.1
    have hnew : Step.Precedes q.sense ⟨some pivot, before⟩ t :=
      (hrepresents.2.precedes_pivot hrule.2 hpivot).trans hremoves.follows
    have hbefore : ∀ s ∈ steps, s.Precedes q.sense before := fun s hs => (hall s hs).trans (.of_plain rfl)
    have hafter : ∀ s ∈ steps, s.Precedes q.sense t := fun s hs => (hbefore s hs).trans hnew.follows
    refine ⟨List.pairwise_append.mpr ⟨hpairwise, List.pairwise_singleton _ _, fun s hs s' hs' => ?_⟩,
      List.forall_mem_append.mpr ⟨hafter, List.forall_mem_singleton.mpr hnew⟩⟩
    rw [List.mem_singleton.mp hs']
    exact hbefore s hs

/-- Of the steps within a number of turns, all but perhaps a last one without a pivot can be replayed. -/
theorem exists_retraces_of_stepsWithin (hp : p.Accepted) (rule : Pricing) (limit : Nat) :
    ∃ start replayed last, Retraces rule p.augmented start replayed last ∧
      (stepsWithin rule limit p = replayed ∨
        ∃ detected, detected.plain = last ∧ stepsWithin rule limit p = replayed ++ [⟨none, detected⟩]) ∧
      ∀ s ∈ stepsWithin rule limit p, Represents p.augmented s.tableau := by
  obtain ⟨_, start, hratios, hstart, -, hsteps⟩ := exists_runs_of_accepted hp
  rw [hsteps rule limit]
  obtain ⟨front, t, hreach, hmoves⟩ :=
    exists_reaches_of_movesWithin (turn rule (firstArtificial p.augmented)) limit start
  have hretraces := hstart.retraces hratios hreach
  obtain ⟨ht, hfront⟩ := hstart.allRepresent_of_reaches hreach
  have hplain := Tableau.plain_of_ratios hretraces.ratios
  refine ⟨start, _, t, hretraces, ?_⟩
  rcases hmoves with hmoves | ⟨made, ending, hdone, hmoves⟩
  · rw [hmoves]
    exact ⟨.inl rfl, fun s hs => hfront.of_mem_steps hs⟩
  · rw [hmoves]
    refine ⟨?_, fun s hs => (hfront.append (ht.allRepresent_done hdone)).of_mem_steps hs⟩
    rw [List.filterMap_append]
    rcases ht.ending_of_turn hdone with rfl | rfl | ⟨j, rfl⟩
    · obtain ⟨rfl, -⟩ := turn_eq_solved hdone
      exact .inl (List.append_nil _)
    · obtain ⟨rfl, -⟩ := turn_eq_infeasible hdone
      exact .inr ⟨t, hplain, rfl⟩
    · obtain ⟨_, before, rfl, -, henter⟩ := turn_eq_unbounded hdone
      exact .inr ⟨before, (Tableau.plain_record (enter_eq_unlimited_iff.mp henter).1).trans hplain, rfl⟩

/-- Every recorded step follows the rule. -/
theorem followsRule_of_mem_stepsWithin (hp : p.Accepted) (hs : s ∈ stepsWithin rule limit p) :
    s.FollowsRule rule (firstArtificial p.augmented) := by
  obtain ⟨start, replayed, last, hretraces, hsteps, -⟩ := exists_retraces_of_stepsWithin hp rule limit
  rcases hsteps with hsteps | ⟨detected, -, hsteps⟩
  · exact hretraces.followsRule s (hsteps ▸ hs)
  · rw [hsteps, List.mem_append, List.mem_singleton] at hs
    rcases hs with hs | rfl
    · exact hretraces.followsRule s hs
    · intro pivot hpivot
      cases hpivot

/-- Each recorded step precedes those that are recorded behind it. -/
theorem pairwise_precedes_stepsWithin (hp : p.Accepted) (rule : Pricing) (limit : Nat) :
    (stepsWithin rule limit p).Pairwise fun s s' => s.Precedes p.sense s'.tableau := by
  obtain ⟨start, replayed, last, hretraces, hsteps, hrepresents⟩ := exists_retraces_of_stepsWithin hp rule limit
  have hmem : ∀ s ∈ replayed, Represents p.augmented s.tableau := by
    intro s hs
    refine hrepresents s ?_
    rcases hsteps with hsteps | ⟨detected, -, hsteps⟩
    · rwa [hsteps]
    · rw [hsteps]
      exact List.mem_append_left _ hs
  obtain ⟨hpairwise, hall⟩ := hretraces.replays.precedes hmem hretraces.followsRule
  rcases hsteps with hsteps | ⟨detected, hplain, hsteps⟩
  · rw [hsteps]
    exact hpairwise
  · rw [hsteps]
    refine List.pairwise_append.mpr ⟨hpairwise, List.pairwise_singleton _ _, fun s hs s' hs' => ?_⟩
    rw [List.mem_singleton.mp hs']
    exact (hall s hs).trans (.of_plain hplain)

/-- Each step of a solved run precedes the result. -/
theorem precedes_of_solved {d : Derivation} (hp : p.Accepted) (h : solve rule limit p = some (.ok d))
    (hending : d.ending = .solved t) : ∀ s ∈ d.steps, ∃ last, s.Precedes p.sense last ∧
      t.objectiveValue = last.objectiveValue := by
  obtain ⟨_, start, replayed, last, -, -, -, hretraces, hends⟩ := exists_retraces_of_solve hp h
  cases hends with
  | infeasible _ hending' => cases hending.symm.trans hending'
  | unbounded _ _ _ _ hending' => cases hending.symm.trans hending'
  | solved t' hsteps hending' htruncate =>
    cases hending.symm.trans hending'
    rw [hsteps]
    have hrepresents : ∀ s ∈ replayed, Represents p.augmented s.tableau := fun s hs =>
      represents_of_mem_steps hp h (hsteps ▸ hs)
    have hall := (hretraces.replays.precedes hrepresents hretraces.followsRule).2
    exact fun s hs => ⟨last, hall s hs, Tableau.objectiveValue_truncate htruncate⟩

/-- In a step in which a variable entered the ratio of the pivot is the one that is recorded for its row. -/
theorem ratio?_of_isEntering (hfollows : s.FollowsRule rule first) (hentering : s.isEntering = true) :
    ∃ pivot ratios q, s.pivot = some pivot ∧ s.tableau.ratios = some (.primal ratios) ∧
      ratios[pivot.row]? = some (some q) ∧ s.ratio? = some q := by
  unfold Step.isEntering at hentering
  split at hentering
  · rename_i pivot ratios hpivot hratios
    have hrule := hfollows pivot hpivot
    simp only [hratios] at hrule
    obtain ⟨-, rfl, q, hq, -⟩ := hrule
    obtain ⟨-, -, hvalue⟩ := Tableau.of_getElem?_limits hq
    exact ⟨pivot, _, q, hpivot, hratios, hq, by rw [Step.ratio?, hpivot, Option.map_some, hvalue]⟩
  · cases hentering

/-! Tableaus with the same basic variables. -/

/-- The basic variables determine the objective value of a tableau among those that follow one another. -/
theorem Represents.objectiveValue_eq_of_names (ht : Represents q t) (ht' : Represents q t')
    (hfollows : t.Follows sense t') (hnames : ∀ name, name ∈ t.names ↔ name ∈ t'.names) :
    t'.objectiveValue = t.objectiveValue := by
  have hwell := ht.wellFormed
  have hwell' := ht'.wellFormed
  have hperm : t.names.Perm t'.names :=
    (List.perm_ext_iff_of_nodup hwell.names_nodup hwell'.names_nodup).mpr hnames
  have hlength : t'.rows.length = t.rows.length := by
    have hlengths := hperm.length_eq
    rw [Tableau.names, Tableau.names, List.length_map, List.length_map] at hlengths
    exact hlengths.symm
  have hholds : t'.Holds t.variableValue := (hfollows.holds_iff hlength _).mpr hwell.holds_variableValue
  -- A variable that is not basic is zero, and one that is has the reduced cost zero, also in the later tableau.
  have hzero : ∀ j, t.variableValue j • t'.reducedCost j = 0 := by
    intro j
    by_cases hbasic : ∃ i, t.BasicIn i j
    · obtain ⟨i, hi⟩ := hbasic
      obtain ⟨k, hk⟩ := hwell'.exists_basicIn ((hnames _).mp hi.mem_names)
      rw [hk.reducedCost_eq_zero, smul_zero]
    · rw [hwell.variableValue_eq_zero (not_exists.mp hbasic), zero_smul]
  have hcost : t'.costAt t.variableValue = t.costAt t.variableValue := by
    unfold Tableau.costAt Tableau.price
    rw [ht'.columns, ht.columns]
  calc t'.objectiveValue
      = t'.costAt t.variableValue := by rw [hwell'.costAt_eq hholds, Finset.sum_eq_zero fun j _ => hzero j, sub_zero]
    _ = t.costAt t.variableValue := hcost
    _ = t.objectiveValue := hwell.costAt_variableValue

end Simplex

end ExactSimplex
