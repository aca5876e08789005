import ExactSimplex.Proofs.Simplex.Finality
import ExactSimplex.Proofs.Simplex.Progress
import ExactSimplex.Proofs.Simplex.Verdicts
import Mathlib.Data.Finset.Powerset
import Mathlib.Order.Interval.Finset.Nat

/-!
# Runs without degenerate pivots

The method has no limit on its turns, and a run whose pivots have the ratio zero may come back to a basis. Where a
variable enters at a positive ratio, the objective becomes better for good, so that its basis does not recur. A run
in which all of them do has no more of these pivots than there are sets of variables; since only one other turn can
be taken among them, the run ends.
-/

namespace ExactSimplex.Simplex

open Finset

variable {rule : Pricing} {first limit : Nat} {p q : Program} {sense : Sense} {t : Tableau} {s : Step}
  {steps : List Step} {d : Derivation}

/-! The number of bases. -/

/-- The basic variables are variables of the program. -/
theorem Represents.names_subset (h : Represents q t) :
    t.names.toFinset ⊆ (Icc 1 q.variableCount).image variableName := by
  intro name hname
  obtain ⟨i, hi⟩ := List.mem_iff_getElem?.mp (List.mem_toFinset.mp hname)
  have hrow : i < t.rows.length := by
    have hlt := (List.getElem?_eq_some_iff.mp hi).1
    rwa [Tableau.names, List.length_map] at hlt
  obtain ⟨j, hj⟩ := h.wellFormed.basic i hrow
  have hlt := hj.lt
  rw [h.length_columns] at hlt
  rw [hj.getElem?_names, Option.some.injEq] at hi
  exact mem_image.mpr ⟨j, mem_Icc.mpr ⟨hj.pos, Nat.lt_succ_iff.mp hlt⟩, hi⟩

/-- No more than `2 ^ n` tableaus of a program with `n` variables have different basic variables. -/
theorem length_le_two_pow (hrepresents : ∀ s ∈ steps, Represents q s.tableau)
    (hdistinct : steps.Pairwise fun s s' => ¬ ∀ name, name ∈ s.tableau.names ↔ name ∈ s'.tableau.names) :
    steps.length ≤ 2 ^ q.variableCount := by
  set bases := steps.map fun s => s.tableau.names.toFinset with hbases
  have hnodup : bases.Nodup := by
    rw [hbases, List.Nodup, List.pairwise_map]
    refine hdistinct.imp fun hne heq => hne fun name => ?_
    rw [← List.mem_toFinset, heq, List.mem_toFinset]
  have hsubset : bases.toFinset ⊆ ((Icc 1 q.variableCount).image variableName).powerset := by
    intro basis hbasis
    obtain ⟨s, hs, rfl⟩ := List.mem_map.mp (List.mem_toFinset.mp hbasis)
    exact mem_powerset.mpr (hrepresents s hs).names_subset
  calc steps.length
      = bases.toFinset.card := by rw [List.toFinset_card_of_nodup hnodup, hbases, List.length_map]
    _ ≤ 2 ^ ((Icc 1 q.variableCount).image variableName).card := by
        rw [← card_powerset]
        exact card_le_card hsubset
    _ ≤ 2 ^ q.variableCount := by
        refine Nat.pow_le_pow_right Nat.two_pos (card_image_le.trans ?_)
        rw [Nat.card_Icc, Nat.add_sub_cancel]

/-! The objective over a run. -/

/-- What the steps of a run, ended or not, tell about the objective. -/
structure Progresses (sense : Sense) (steps : List Step) : Prop where
  /-- Where a variable entered, the ratio of the step is the one that was chosen from the recorded ratios. -/
  recorded : ∀ s ∈ steps, s.isEntering = true → ∃ pivot ratios q, s.pivot = some pivot ∧
    s.tableau.ratios = some (.primal ratios) ∧ ratios[pivot.row]? = some (some q) ∧ s.ratio? = some q
  /-- The objective value does not become worse. -/
  notWorse : ∀ (i k : Nat) (s s' : Step), i < k → steps[i]? = some s → steps[k]? = some s' →
    ¬ sense.Surpasses s.tableau.objectiveValue s'.tableau.objectiveValue
  /-- Behind a pivot with a positive ratio it is better. -/
  surpasses : ∀ (i k : Nat) (s s' : Step), i < k → steps[i]? = some s → steps[k]? = some s' →
    ∀ q, s.ratio? = some q → 0 < q → sense.Surpasses s'.tableau.objectiveValue s.tableau.objectiveValue
  /-- Where the same variables are basic again it is the same, and all pivots in between had the ratio zero. -/
  recurs : ∀ (i k : Nat) (s s' : Step), i < k → steps[i]? = some s → steps[k]? = some s' →
    (∀ name, name ∈ s.tableau.names ↔ name ∈ s'.tableau.names) →
    s'.tableau.objectiveValue = s.tableau.objectiveValue ∧
      ∀ (l : Nat) (u : Step), i ≤ l → l < k → steps[l]? = some u → u.ratio? = some 0

/-- The steps of an accepted program progress. -/
theorem progresses_stepsWithin (hp : p.Accepted) (rule : Pricing) (limit : Nat) :
    Progresses p.sense (stepsWithin rule limit p) := by
  obtain ⟨_, _, _, -, -, hrepresents⟩ := exists_retraces_of_stepsWithin hp rule limit
  have hprecedes : ∀ (i k : Nat) (s s' : Step), i < k → (stepsWithin rule limit p)[i]? = some s →
      (stepsWithin rule limit p)[k]? = some s' → s.Precedes p.sense s'.tableau := by
    intro i k s s' hik hs hs'
    obtain ⟨hi, rfl⟩ := List.getElem?_eq_some_iff.mp hs
    obtain ⟨hk, rfl⟩ := List.getElem?_eq_some_iff.mp hs'
    exact List.pairwise_iff_getElem.mp (pairwise_precedes_stepsWithin hp rule limit) i k hi hk hik
  refine ⟨fun s hs => ratio?_of_isEntering (followsRule_of_mem_stepsWithin hp hs),
    fun i k s s' hik hs hs' => (hprecedes i k s s' hik hs hs').follows.notWorse,
    fun i k s s' hik hs hs' => (hprecedes i k s s' hik hs hs').surpasses, fun i k s s' hik hs hs' hnames => ?_⟩
  have hfollows := (hprecedes i k s s' hik hs hs').follows
  have hobjective := (hrepresents s (List.mem_of_getElem? hs)).objectiveValue_eq_of_names
    (hrepresents s' (List.mem_of_getElem? hs')) hfollows hnames
  refine ⟨hobjective, fun l u hil hlk hu => ?_⟩
  have hbehind := hprecedes l k u s' hlk hu hs'
  obtain ⟨q, hq, hnonneg⟩ := hbehind.ratio
  rcases hnonneg.eq_or_lt with rfl | hpos
  · exact hq
  · -- The objective would be better in the later tableau, although it is the same as in the earlier one.
    have hbetter := hbehind.surpasses q hq hpos
    rw [hobjective] at hbetter
    rcases hil.eq_or_lt with rfl | hil
    · cases hs.symm.trans hu
      exact absurd hbetter (p.sense.not_surpasses_self _)
    · exact absurd hbetter (hprecedes i l s u hil hs hu).follows.notWorse

/-! The number of turns. -/

/-- Where every variable enters at a positive ratio, no basis in which one enters recurs. -/
theorem countP_isEntering_le (hp : p.Accepted)
    (hpositive : ∀ s ∈ stepsWithin rule limit p, s.isEntering = true → ∃ q, s.ratio? = some q ∧ 0 < q) :
    (stepsWithin rule limit p).countP Step.isEntering ≤ 2 ^ p.augmented.variableCount := by
  obtain ⟨_, _, _, -, -, hrepresents⟩ := exists_retraces_of_stepsWithin hp rule limit
  rw [List.countP_eq_length_filter]
  refine length_le_two_pow (fun s hs => hrepresents s (List.mem_filter.mp hs).1) ?_
  refine ((pairwise_precedes_stepsWithin hp rule limit).filter Step.isEntering).imp_of_mem ?_
  intro s s' hs hs' hprecedes hnames
  obtain ⟨hmem, hentering⟩ := List.mem_filter.mp hs
  obtain ⟨q, hq, hpos⟩ := hpositive s hmem hentering
  have hbetter := hprecedes.surpasses q hq hpos
  rw [(hrepresents s hmem).objectiveValue_eq_of_names (hrepresents s' (List.mem_filter.mp hs').1) hprecedes.follows
    hnames] at hbetter
  exact p.sense.not_surpasses_self _ hbetter

/-- In each turn of a run that goes on a variable enters, or a pass ends. -/
theorem succ_le_countP_add_passes (h : run (turn rule first) limit t = none) :
    limit + 1 ≤ ((movesWithin (turn rule first) limit t).filterMap Move.step?).countP Step.isEntering +
      passes rule first limit t := by
  induction limit generalizing t with
  | zero => exact le_rfl
  | succ limit ih =>
    rw [run] at h
    rw [movesWithin, passes]
    cases hturn : turn rule first t with
    | done moves ending =>
      rw [hturn] at h
      cases h
    | next moves t' =>
      rw [hturn] at h
      have hrest := ih (Option.map_eq_none_iff.mp h)
      dsimp only
      rw [List.filterMap_append, List.countP_append]
      rcases turn_eq_next hturn with ⟨j, c, pivot, before, hselect, henter, rfl⟩ | ⟨hselect, -, -, -⟩
      · obtain ⟨hrecord, -⟩ := enter_eq_pivoted_iff.mp henter
        obtain ⟨-, rfl⟩ := Tableau.record_eq_ok_iff.mp hrecord
        rw [hselect, Option.isSome_some, if_pos rfl]
        simp only [List.filterMap_cons, List.filterMap_nil, Move.step?, List.countP_cons, List.countP_nil,
          Step.isEntering, if_true]
        omega
      · rw [hselect, Option.isSome_none, if_neg Bool.false_ne_true]
        omega

/-- From each recorded step of a run to those behind it, and to the result, the objective value does not become
worse, and it becomes better where the ratio of the step is positive. Where the same variables are basic again, it is
the same, and all pivots in between were made at the ratio zero. A run in which all variables enter at positive ratios
ends, after at most `2 ^ n` of these pivots for the `n` variables of the augmented program. -/
theorem progresses_of_accepted (hp : p.Accepted) (rule : Pricing) :
    (∀ limit, Progresses p.sense (stepsWithin rule limit p)) ∧
    (∀ limit d t, solve rule limit p = some (.ok d) → d.ending = .solved t →
      d.steps = stepsWithin rule limit p ∧
        ∀ s ∈ d.steps, ¬ p.sense.Surpasses s.tableau.objectiveValue t.objectiveValue ∧
          ∀ q, s.ratio? = some q → 0 < q → p.sense.Surpasses t.objectiveValue s.tableau.objectiveValue) ∧
    ((∀ limit, ∀ s ∈ stepsWithin rule limit p, s.isEntering = true → ∃ q, s.ratio? = some q ∧ 0 < q) →
      ∃ d, solve rule (2 ^ p.augmented.variableCount + 2) p = some (.ok d) ∧
        d.steps.countP Step.isEntering ≤ 2 ^ p.augmented.variableCount) := by
  refine ⟨progresses_stepsWithin hp rule, fun limit d t h hending => ⟨steps_eq_stepsWithin h, fun s hs => ?_⟩,
    fun hpositive => ?_⟩
  · obtain ⟨last, hprecedes, hobjective⟩ := precedes_of_solved hp h hending s hs
    rw [hobjective]
    exact ⟨hprecedes.follows.notWorse, hprecedes.surpasses⟩
  · have hcount := countP_isEntering_le hp (hpositive (2 ^ p.augmented.variableCount + 2))
    obtain ⟨basis, start, -, hstart, hsolve, hsteps⟩ := exists_runs_of_accepted hp
    cases hrun : run (turn rule (firstArtificial p.augmented)) (2 ^ p.augmented.variableCount + 2) start with
    | none =>
      -- The turns are accounted for by entering variables and two passes, which are too few.
      have hle := succ_le_countP_add_passes hrun
      have hpasses : passes rule (firstArtificial p.augmented) (2 ^ p.augmented.variableCount + 2) start ≤ 2 :=
        hstart.passes_le_two
      rw [hsteps] at hcount
      omega
    | some r =>
      have hd := hsolve rule (2 ^ p.augmented.variableCount + 2)
      rw [hrun, Option.map_some] at hd
      exact ⟨_, hd, by rw [steps_eq_stepsWithin hd]; exact hcount⟩

/-- Two limits of zero, under which the steepest columns enter in a circle. -/
def circling : Program where
  sense := .maximize
  objective := [10, -57, -9, -24]
  slackCosts := []
  artificialCosts := []
  constraints :=
    [⟨[1 / 2, -11 / 2, -5 / 2, 9], .le, 0⟩, ⟨[1 / 2, -3 / 2, -1 / 2, 1], .le, 0⟩, ⟨[1, 0, 0, 0], .le, 1⟩]

/-- After six pivots with the ratio zero the first basis recurs. In the other program the one pivot has a positive
ratio. -/
theorem progresses_circling_purchase :
    (∃ s s' u, (stepsWithin .steepest 7 circling)[0]? = some s ∧
      (stepsWithin .steepest 7 circling)[6]? = some s' ∧
      (stepsWithin .steepest 7 circling)[5]? = some u ∧ s.tableau.names = s'.tableau.names ∧
      s'.tableau.objectiveValue = s.tableau.objectiveValue ∧ u.ratio? = some 0) ∧
    ∃ d s t, solve .steepest 18 purchase = some (.ok d) ∧ d.steps.countP Step.isEntering ≤ 16 ∧
      d.ending = .solved t ∧ d.steps[0]? = some s ∧ s.ratio? = some 10 ∧
      purchase.sense.Surpasses t.objectiveValue s.tableau.objectiveValue := by
  constructor
  · obtain ⟨hprogress, -, -⟩ := progresses_of_accepted (p := circling) rfl .steepest
    have hcheck : (stepsWithin .steepest 7 circling).length = 7 ∧
        (stepsWithin .steepest 7 circling)[0]?.map (·.tableau.names) =
          (stepsWithin .steepest 7 circling)[6]?.map (·.tableau.names) := by
      decide +kernel
    obtain ⟨hlength, hsame⟩ := hcheck
    have hget : ∀ i, i < 7 → ∃ s, (stepsWithin .steepest 7 circling)[i]? = some s := fun i hi =>
      ⟨_, List.getElem?_eq_getElem (hlength.symm ▸ hi)⟩
    obtain ⟨s, hs⟩ := hget 0 (by decide)
    obtain ⟨s', hs'⟩ := hget 6 (by decide)
    obtain ⟨u, hu⟩ := hget 5 (by decide)
    rw [hs, hs', Option.map_some, Option.map_some, Option.some.injEq] at hsame
    obtain ⟨hobjective, hzero⟩ :=
      (hprogress 7).recurs 0 6 s s' (by decide) hs hs' fun name => by rw [hsame]
    exact ⟨s, s', u, hs, hs', hu, hsame, hobjective, hzero 5 u (by decide) (by decide) hu⟩
  · obtain ⟨-, hresult, hends⟩ := progresses_of_accepted (p := purchase) rfl .steepest
    have hcheck : (result? .steepest 18 purchase).isSome = true ∧
        (derivation? .steepest 18 purchase).any
          (fun d => decide (d.steps.length = 1 ∧ ∀ s ∈ d.steps, s.ratio? = some 10)) = true := by
      decide +kernel
    obtain ⟨t, ht⟩ := Option.isSome_iff_exists.mp hcheck.1
    obtain ⟨d, hd, hending⟩ := outcome_eq_some_iff.mp (result?_eq_some_iff.mp ht)
    rw [derivation?_eq_some_iff.mpr hd] at hcheck
    obtain ⟨hlength, hratios⟩ := of_decide_eq_true hcheck.2
    have hs := List.getElem?_eq_getElem (l := d.steps) (i := 0) (by omega)
    have hratio := hratios _ (List.mem_of_getElem? hs)
    have hpositive : ∀ limit, ∀ s ∈ stepsWithin .steepest limit purchase, s.isEntering = true →
        ∃ q, s.ratio? = some q ∧ 0 < q := fun limit s hmem _ =>
      ⟨10, hratios s ((stepsWithin_prefix_of_solve (p := purchase) rfl hd limit).subset hmem), by norm_num⟩
    obtain ⟨d', hd', hcount⟩ := hends hpositive
    cases hd.symm.trans hd'
    exact ⟨d, _, t, hd, hcount, hending, hs, hratio,
      ((hresult 18 d t hd hending).2 _ (List.mem_of_getElem? hs)).2 10 hratio (by norm_num)⟩

end ExactSimplex.Simplex
