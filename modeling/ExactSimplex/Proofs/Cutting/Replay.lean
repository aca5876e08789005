import ExactSimplex.Proofs.Cutting.Totality

/-!
# Replaying the record of cuts

The record of cuts tells the whole run. Every cut is made in a feasible tableau from the row of the decision
variable with the largest fraction, and its own row has the only negative right-hand side. The steps behind it are
dual pivots, each shown by the tableau before it and the one after it. They lead to a feasible tableau, in which
the next cut is made or the run ends; only the last cut may lead to a row that cannot be restored.
-/

namespace ExactSimplex.Cutting

/-- How far the value of variable `xj` lies above the whole number below it. -/
def fractionAt (t : Tableau) (j : Nat) : Rat := t.variableValue j - truncate (t.variableValue j)

/-- The source is the first of the decision variables with the largest fraction, with its row and its value. -/
structure Source.IsLargest (decisions : Nat) (t : Tableau) (s : Source) : Prop where
  pos : 0 < s.column
  le : s.column ≤ decisions
  row : t.names[s.row]? = some (variableName s.column)
  value : s.value = t.entry s.row 0
  fraction_pos : 0 < s.fraction
  largest : ∀ j, 0 < j → j ≤ decisions → fractionAt t j ≤ s.fraction
  first : ∀ j, 0 < j → j < s.column → fractionAt t j < s.fraction

/-- The cut is that of its source row, and its own row is appended to the feasible tableau in which it is made. The
basic variable of the new row has a new name, and its value is the only negative one. -/
structure Application.CutFrom (decisions : Nat) (before extended : Tableau) (a : Application) : Prop where
  feasible : before.IsFeasible
  source : a.source.IsLargest decisions before
  cut : ∃ r, before.rows[a.source.row]? = some r ∧ a.cut = Cut.ofRow a.source.column r.values
  name : variableName before.columns.length ∉ before.names
  appendRow : before.appendRow a.cut.row = .ok extended
  negative : ∀ i, extended.entry i 0 < 0 ↔ i = before.rows.length

/-- The steps come in pairs: a tableau with the ratios of its columns and the pivot on it, then the tableau that
the pivot leads to. Each pair begins with the tableau that the one before it ended with. -/
inductive Restores (t : Tableau) : List Step → Tableau → Prop
  | nil : Restores t [] t
  | snoc {steps : List Step} {current before after : Tableau} {pivot : Pivot} {ratios : List (Option Rat)}
      (h : Restores t steps current) (hbefore : before.plain = current)
      (hratios : before.ratios = some (.dual ratios))
      (hpivot : before.pivot pivot.row pivot.column = .ok after) (hafter : after.ratios = none) :
      Restores t (steps ++ [⟨some pivot, before⟩, ⟨none, after⟩]) after

/-- The cuts are made one after another, each in the feasible tableau that the last step of the one before it
shows. -/
inductive Applies (decisions : Nat) (t : Tableau) : List Application → Tableau → Prop
  | nil : Applies decisions t [] t
  | snoc {as : List Application} {a : Application} {before extended last : Tableau}
      (h : Applies decisions t as before) (hcut : a.CutFrom decisions before extended)
      (hsteps : Restores extended a.steps last) (hlast : a.last? = some last) (hfeasible : last.IsFeasible) :
      Applies decisions t (as ++ [a]) last

/-- How the derivation ends when its finished cuts have led to the tableau `last`. -/
inductive Derivation.EndsIn (decisions : Nat) (d : Derivation) (applied : List Application) (last : Tableau) : Prop
  | solved (happlications : d.applications = applied) (hending : d.ending = .solved last)
  | alreadyInteger (happlications : d.applications = applied) (hnone : applied = [])
      (hending : d.ending = .failed .alreadyInteger)
  | noFractionalCoefficient (i : Nat) (happlications : d.applications = applied)
      (hending : d.ending = .failed (.noFractionalCoefficient i))
  | noPivotColumn (i : Nat) (a : Application) (steps : List Step) (extended blocked : Tableau)
      (ratios : List (Option Rat)) (happlications : d.applications = applied ++ [a])
      (hending : d.ending = .failed (.noPivotColumn i)) (hcut : a.CutFrom decisions last extended)
      (hsteps : a.steps = steps ++ [⟨none, blocked⟩]) (hrestores : Restores extended steps blocked.plain)
      (hratios : blocked.ratios = some (.dual ratios)) (hnone : ∀ q ∈ ratios, q = none)
      (hbound : blocked.entry i 0 < 0) (hentry : ∀ j, 0 < j → 0 ≤ blocked.entry i j)

variable {p : Program} {decisions limit limit' i j : Nat} {t before after extended current : Tableau} {s s' : State}
  {source : Source} {a : Application} {as : List Application} {steps : List Step} {moves : List Move}
  {ending : Ending Tableau} {d : Derivation} {r : Row}

/-! The source of a cut. -/

/-- A candidate tells the fraction of its variable. -/
theorem of_candidate? (h : candidate? t j = some source) : source.column = j ∧ source.fraction = fractionAt t j := by
  unfold candidate? at h
  split at h
  · cases h
  · rename_i i hrow
    dsimp only at h
    split at h
    · cases h
      refine ⟨rfl, ?_⟩
      rw [Source.fraction, fractionAt, Tableau.variableValue, hrow]
    · cases h

/-- A variable that is no candidate has no positive fraction. -/
theorem fractionAt_nonpos_of_candidate? (h : candidate? t j = none) : fractionAt t j ≤ 0 := by
  unfold candidate? at h
  rw [fractionAt, Tableau.variableValue]
  split at h
  · rename_i hrow
    rw [hrow]
    simp [truncate_of_isWhole isWhole_zero]
  · rename_i i hrow
    dsimp only at h
    split at h
    · cases h
    · rename_i hfraction
      rw [hrow]
      exact not_lt.mp hfraction

/-- The candidate of variable `j` stands at place `j - 1`. -/
theorem getElem?_candidates (hpos : 0 < j) (hle : j ≤ decisions) :
    ((List.range' 1 decisions).map (candidate? t))[j - 1]? = some (candidate? t j) := by
  rw [List.getElem?_map, List.getElem?_range' (by omega), Option.map_some, Nat.one_mul, Nat.add_sub_cancel' hpos]

/-- The source stands at its own place among the candidates. -/
theorem firstBest_of_source? (h : source? t decisions = some source) :
    0 < source.column ∧ source.column ≤ decisions ∧
      firstBest (fun a b => decide (b.fraction < a.fraction)) ((List.range' 1 decisions).map (candidate? t)) =
        some (source.column - 1, source) := by
  obtain ⟨⟨k, source'⟩, hbest, heq⟩ := Option.map_eq_some_iff.mp h
  obtain rfl : source' = source := heq
  have hplace := getElem?_of_firstBest hbest
  have hk : k < decisions := by
    have hlt := (List.getElem?_eq_some_iff.mp hplace).1
    rwa [List.length_map, List.length_range'] at hlt
  have hself := getElem?_candidates (t := t) (Nat.succ_pos k) hk
  rw [Nat.succ_sub_one, hplace, Option.some.injEq] at hself
  have hcolumn := (of_candidate? hself.symm).1
  rw [hcolumn]
  exact ⟨Nat.succ_pos k, hk, hbest⟩

/-- The source of a cut is the first decision variable with the largest fraction. -/
theorem isLargest_of_source? (hwell : t.WellFormed) (h : source? t decisions = some source) :
    source.IsLargest decisions t := by
  obtain ⟨hrow, hvalue, hpositive⟩ := of_source? h
  obtain ⟨hcolumn, hle, hbest⟩ := firstBest_of_source? h
  have hbetter : ∀ a b : Source, decide (b.fraction < a.fraction) = true ↔ -a.fraction < -b.fraction :=
    fun a b => decide_eq_true_iff.trans neg_lt_neg_iff.symm
  obtain ⟨hlargest, hfirst⟩ := measure_le_of_firstBest hbetter hbest
  refine ⟨hcolumn, hle, (hwell.rowOf?_eq_some_iff _ _).mp hrow, hvalue, hpositive, fun j hpos hj => ?_,
    fun j hpos hlt => ?_⟩
  · cases hother : candidate? t j with
    | none => exact (fractionAt_nonpos_of_candidate? hother).trans hpositive.le
    | some other =>
      have hmem := List.mem_of_getElem? (getElem?_candidates (t := t) hpos hj)
      rw [hother] at hmem
      rw [← (of_candidate? hother).2]
      exact neg_le_neg_iff.mp (hlargest other hmem)
  · cases hother : candidate? t j with
    | none => exact (fractionAt_nonpos_of_candidate? hother).trans_lt hpositive
    | some other =>
      have hplace := getElem?_candidates (t := t) hpos (hlt.le.trans hle)
      rw [hother] at hplace
      rw [← (of_candidate? hother).2]
      exact neg_lt_neg_iff.mp (hfirst (j - 1) other (by omega) hplace)

/-! A cut. -/

namespace Application.CutFrom

/-- The steps behind a cut do not change where it comes from. -/
theorem extend (h : a.CutFrom decisions before extended) (more : List Step) :
    (a.extend more).CutFrom decisions before extended :=
  ⟨h.feasible, h.source, h.cut, h.name, h.appendRow, h.negative⟩

/-- Behind a cut the tableau is not feasible. -/
theorem not_isFeasible (h : a.CutFrom decisions before extended) : ¬ extended.IsFeasible := by
  intro hfeasible
  have hlast := Tableau.isFeasible_iff.mp hfeasible before.rows.length
    (by rw [Tableau.length_rows_appendRow h.appendRow]; exact Nat.lt_succ_self _)
  exact absurd ((h.negative _).mpr rfl) (not_lt.mpr hlast)

end Application.CutFrom

/-- A cut of the method comes from the largest fraction, and makes one right-hand side negative. -/
theorem cutFrom_of_source? (hwell : t.WellFormed) (hfeasible : t.IsFeasible)
    (hsource : source? t decisions = some source) (hr : t.rows[source.row]? = some r)
    (ha : t.appendRow (Cut.ofRow source.column r.values).row = .ok extended) :
    Application.CutFrom decisions t extended ⟨source, Cut.ofRow source.column r.values, steps⟩ := by
  refine ⟨hfeasible, isLargest_of_source? hwell hsource, ⟨r, hr, rfl⟩, hwell.variableName_notMem_names, ha,
    fun i => ⟨fun hneg => ?_, ?_⟩⟩
  · rcases Nat.lt_trichotomy i t.rows.length with hlt | heq | hgt
    · rw [Tableau.entry_appendRow_of_lt ha hwell.rectangular hlt] at hneg
      exact absurd (Tableau.isFeasible_iff.mp hfeasible i hlt) (not_le.mpr hneg)
    · exact heq
    · have hlength := Tableau.length_rows_appendRow ha
      rw [Tableau.entry_eq_zero_of_length_le (by omega)] at hneg
      exact absurd hneg (lt_irrefl 0)
  · rintro rfl
    exact entry_appendCut_neg hfeasible hsource hr ha

/-! The invariant of a run. -/

/-- The tableau that pairs of steps lead to is shown by the last of them, if there are any. -/
theorem Restores.last (h : Restores t steps current) :
    steps = [] ∧ current = t ∨ steps.getLast?.map (·.tableau) = some current := by
  cases h with
  | nil => exact .inl ⟨rfl, rfl⟩
  | snoc => exact .inr (by simp)

/-- Finished cuts lead to the present tableau, or the steps of a cut behind them do. -/
inductive Progress (decisions : Nat) (t : Tableau) : List Application → Tableau → Prop
  | start : Progress decisions t [] t
  | applying {as : List Application} {a : Application} {before extended current : Tableau}
      (h : Applies decisions t as before) (hcut : a.CutFrom decisions before extended)
      (hsteps : Restores extended a.steps current) : Progress decisions t (as ++ [a]) current

/-- In a feasible tableau the last cut is finished. -/
theorem Progress.applies (h : Progress decisions t as current) (hfeasible : current.IsFeasible) :
    Applies decisions t as current := by
  cases h with
  | start => exact .nil
  | applying h hcut hsteps =>
    rcases hsteps.last with ⟨-, rfl⟩ | hlast
    · exact absurd hfeasible hcut.not_isFeasible
    · exact h.snoc hcut hsteps hlast hfeasible

/-- What the record tells of the state that the moves led to. -/
structure Retraces (p : Program) (t : Tableau) (moves : List Move) (s : State) : Prop where
  reflects : Reflects p moves s
  ratios : s.tableau.ratios = none
  progress : Progress p.decisions t (applications moves) s.tableau

namespace Retraces

/-- Where there is no application yet, the tableau is the first one. -/
theorem tableau_eq (h : Retraces p t moves s) (hcuts : s.cuts = 0) : s.tableau = t := by
  rw [h.reflects.cuts, List.length_eq_zero_iff, ← map_cut_applications, List.map_eq_nil_iff] at hcuts
  have hprogress := h.progress
  rw [hcuts] at hprogress
  generalize s.tableau = current at hprogress
  generalize hnil : ([] : List Application) = as at hprogress
  cases hprogress with
  | start => rfl
  | applying => exact absurd hnil.symm (List.append_ne_nil_of_right_ne_nil _ (List.cons_ne_nil _ _))

/-- Otherwise the steps of the last application lead to the tableau. -/
theorem exists_applying (h : Retraces p t moves s) (hcuts : s.cuts ≠ 0) :
    ∃ as a before extended, applications moves = as ++ [a] ∧ Applies p.decisions t as before ∧
      a.CutFrom p.decisions before extended ∧ Restores extended a.steps s.tableau := by
  have hne : applications moves ≠ [] := by
    rw [h.reflects.cuts, ne_eq, List.length_eq_zero_iff, ← map_cut_applications, List.map_eq_nil_iff] at hcuts
    exact hcuts
  have hprogress := h.progress
  generalize applications moves = all at hne hprogress
  cases hprogress with
  | start => exact absurd rfl hne
  | applying happlies hcut hsteps => exact ⟨_, _, _, _, rfl, happlies, hcut, hsteps⟩

/-- Every turn after which the run goes on keeps the invariant. -/
theorem turn {made : List Move} (h : Retraces p t moves s)
    (hturn : Cutting.turn p.decisions s = .next made s') : Retraces p t (moves ++ made) s' := by
  have hreflects := h.reflects.turn hturn
  rcases turn_eq_next hturn with ⟨source, r, after, hfeasible, hsource, hr, ha, rfl, rfl⟩ |
    ⟨i, r, pivot, before, after, hcuts, hleaving, hrestore, rfl, rfl⟩ | ⟨rfl, rfl⟩
  · have hcut : Application.CutFrom p.decisions s.tableau after ⟨source, Cut.ofRow source.column r.values, []⟩ :=
      cutFrom_of_source? h.reflects.relaxes.wellFormed hfeasible hsource hr ha
    have hratios : after.ratios = none := by
      obtain ⟨-, rfl⟩ := Tableau.appendRow_eq_ok_iff.mp ha
      rfl
    refine ⟨hreflects, hratios, ?_⟩
    rw [applications_append_cut]
    exact .applying (h.progress.applies hfeasible) hcut .nil
  · obtain ⟨as, a, first, extended, happlications, happlies, hcut, hsteps⟩ := h.exists_applying hcuts
    obtain ⟨ratios, -, hrecord, j, -, rfl, hpivot⟩ := restore_eq_pivoted_iff.mp hrestore
    have hplain := (Tableau.plain_record hrecord).trans (Tableau.plain_of_ratios h.ratios)
    have hdual : before.ratios = some (.dual ratios) := by
      obtain ⟨-, rfl⟩ := Tableau.record_eq_ok_iff.mp hrecord
      rfl
    have hafter := Tableau.ratios_pivot hpivot
    refine ⟨hreflects, hafter, ?_⟩
    rw [applications_append_restore happlications]
    exact .applying happlies (hcut.extend _) (hsteps.snoc hplain hdual hpivot hafter)
  · rwa [List.append_nil]

/-- The last turn ends the derivation in one of the four ways. -/
theorem endsIn {last : List Move} (h : Retraces p t moves s) (ht : t.IsFeasible)
    (hdone : Cutting.turn p.decisions s = .done last ending) (hmoves : d.moves = moves ++ last)
    (hending : d.ending = ending) :
    ∃ applied current, Applies p.decisions t applied current ∧ d.EndsIn p.decisions applied current := by
  have hrelaxes := h.reflects.relaxes
  have hfirst : s.cuts = 0 → s.tableau.IsFeasible := fun hcuts => h.tableau_eq hcuts ▸ ht
  rcases hrelaxes.ending_of_turn hfirst hdone with ⟨rfl, hfeasible, hkind⟩ |
    ⟨i, r, blocked, hleaving, hrestore, rfl, rfl⟩
  · have happlications : d.applications = applications moves := by
      rw [Derivation.applications, hmoves, List.append_nil]
    refine ⟨_, _, h.progress.applies hfeasible, ?_⟩
    rcases hkind with ⟨hcuts, rfl⟩ | rfl | ⟨i, rfl⟩
    · rw [h.reflects.cuts, List.length_eq_zero_iff, ← map_cut_applications, List.map_eq_nil_iff] at hcuts
      exact .alreadyInteger happlications hcuts hending
    · exact .solved happlications hending
    · exact .noFractionalCoefficient i happlications hending
  · obtain ⟨hrow, hneg⟩ := of_leavingRow? hleaving
    have hcuts : s.cuts ≠ 0 := fun hzero => hfirst hzero r (List.mem_of_getElem? hrow) hneg
    obtain ⟨as, a, before, extended, happlications, happlies, hcut, hsteps⟩ := h.exists_applying hcuts
    have hall : d.applications = as ++ [a.extend [⟨none, blocked⟩]] := by
      rw [Derivation.applications, hmoves, applications_append_stuck happlications]
    have hbound : s.tableau.entry i 0 < 0 := (Tableau.entry_of_getElem? hrow).trans_lt hneg
    have hentry : ∀ j, 0 < j → 0 ≤ s.tableau.entry i j := fun j hpos =>
      entry_nonneg_of_blocked hrelaxes.wellFormed.rectangular hrow hrestore hpos
    obtain ⟨ratios, -, hrecord, hleast⟩ := restore_eq_blocked_iff.mp hrestore
    have hplain := (Tableau.plain_record hrecord).trans (Tableau.plain_of_ratios h.ratios)
    rw [← hplain] at hsteps
    obtain ⟨-, rfl⟩ := Tableau.record_eq_ok_iff.mp hrecord
    exact ⟨as, before, happlies, .noPivotColumn i _ a.steps extended _ ratios hall hending (hcut.extend _) rfl
      hsteps rfl (leastRatio_eq_none_iff.mp hleast) hbound hentry⟩

end Retraces

/-- A run that ends on the result of the Simplex method tells a derivation that can be replayed: its finished cuts
are made one after another and lead to the tableau in which the run ends, or in which the last cut is made that
leads to a row without a pivot column. -/
theorem applies_of_solve {rule : Pricing} {e : Simplex.Derivation} (hp : p.Accepted)
    (he : Simplex.solve rule limit p = some (.ok e)) (hsolved : e.ending = .solved t)
    (h : solve p.decisions limit' t = some d) :
    ∃ applied last, Applies p.decisions t applied last ∧ d.EndsIn p.decisions applied last := by
  have hrelaxes := relaxes_of_solved hp he hsolved
  have hfeasible := Simplex.isFeasible_of_solved hp he hsolved
  have hratios : t.ratios = none := by
    obtain ⟨t', -, -, -, htruncate⟩ := Simplex.exists_of_solve_solved hp he hsolved
    obtain ⟨-, rfl⟩ := Tableau.truncate_eq_ok_iff.mp htruncate
    rfl
  obtain ⟨⟨moves, ending⟩, hrun, rfl⟩ := Option.map_eq_some_iff.mp h
  obtain ⟨front, last, s, hreach, hdone, rfl⟩ := exists_reaches_of_run hrun
  have hstep : ∀ moves s made s', Retraces p t moves s → turn p.decisions s = .next made s' →
      Retraces p t (moves ++ made) s' := fun _ _ _ _ hs hturn => hs.turn hturn
  have hstart : Retraces p t [] ⟨t, 0⟩ := ⟨⟨hrelaxes, rfl, .inl rfl⟩, hratios, .start⟩
  exact (hreach.invariant hstep hstart).endsIn hfeasible hdone rfl rfl

/-- Two products on two machines. -/
def twoMachines : Program := ⟨.maximize, [3, 2], [], [], [⟨[2, 2], .le, 9⟩, ⟨[3, 1], .le, 11⟩]⟩

/-- Two cuts can be applied, a third cannot. -/
theorem applies_twoMachines : ∃ e t d applied last, Simplex.solve .steepest 4 twoMachines = some (.ok e) ∧
    e.ending = .solved t ∧ solve twoMachines.decisions 8 t = some d ∧ d.applications.length = 3 ∧
    d.ending = .failed (.noPivotColumn 4) ∧ Applies twoMachines.decisions t applied last ∧
    d.EndsIn twoMachines.decisions applied last := by
  have hrun : (derivation? .steepest 4 8 twoMachines).any
      (fun d => decide (d.applications.length = 3 ∧ d.ending = .failed (.noPivotColumn 4))) = true := by
    decide +kernel
  obtain ⟨d, hsome, hshape⟩ := (Option.any_eq_true _ _).mp hrun
  obtain ⟨e, t, he, hsolved, hd⟩ := derivation?_eq_some_iff.mp hsome
  obtain ⟨hlength, hending⟩ := of_decide_eq_true hshape
  obtain ⟨applied, last, happlies, hends⟩ := applies_of_solve (p := twoMachines) rfl he hsolved hd
  exact ⟨e, t, d, applied, last, he, hsolved, hd, hlength, hending, happlies, hends⟩

end ExactSimplex.Cutting
