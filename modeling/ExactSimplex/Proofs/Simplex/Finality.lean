import ExactSimplex.Proofs.Simplex.Expulsion
import ExactSimplex.Proofs.Simplex.Optimality

/-!
# Expelled for good

Where no artificial variable is basic, the reduced cost of each of them contains `M` against the direction of
optimization. None of them is selected again, and what enters is not artificial either. A sweep is therefore followed
by at most one more pass of entering variables, at whose end there is nothing left to expel.
-/

namespace ExactSimplex.Simplex

open Finset

variable {rule : Pricing} {first limit count i j : Nat} {q p : Program} {t t' : Tableau} {r leaving : Row}
  {moves : List Move} {ending : Ending Tableau} {c : Cost}

/-- The number of passes of a run, within a number of turns. A pass lets variables enter as long as one improves the
objective; the next pass begins when artificial variables were expelled after that. -/
def passes (rule : Pricing) (first : Nat) : (limit : Nat) → Tableau → Nat
  | 0, _ => 1
  | limit + 1, t =>
    match turn rule first t with
    | .done _ _ => 1
    | .next _ t' => passes rule first limit t' + if (rule.select t).isSome then 0 else 1

/-! Tableaus without artificial rows. -/

section

variable (h : Represents q t) (hfinite : ∀ r ∈ t.rows, ¬ r.IsArtificial)

include h hfinite

/-- Where no artificial variable is basic, none of them promises a better objective. -/
theorem Represents.not_improving_artificial (hj : q.decisions + q.slacks < j) (hlt : j < t.columns.length) :
    ¬ t.sense.Improving (t.reducedCost j) := by
  have hrows : ∀ i ∈ range t.rows.length, t.entry i j * (q.sense.sign * (t.basicCost i).penalty) = 0 := by
    intro i hi
    have hlt := mem_range.mp hi
    have hcost : t.rows[i].cost.penalty = 0 := not_not.mp (hfinite _ (List.getElem_mem hlt))
    rw [Tableau.basicCost_of_getElem? (List.getElem?_eq_getElem hlt), hcost, mul_zero, mul_zero]
  have hpenalty := t.mul_penalty_reducedCost j q.sense.sign
  rw [Finset.sum_eq_zero hrows, h.penalty_price hlt, if_pos hj, mul_neg, Sense.sign_mul_sign, sub_neg_eq_add,
    zero_add] at hpenalty
  rw [h.sense, Sense.not_improving_iff, hpenalty]
  exact .inl one_pos

/-- So none of them is selected. -/
theorem Represents.select_lt (hselect : rule.select t = some (j, c)) : j < firstArtificial q := by
  obtain ⟨-, hlt, rfl, himproving⟩ := Pricing.of_select hselect
  by_contra hout
  unfold firstArtificial at hout
  exact h.not_improving_artificial hfinite (by omega) hlt himproving

/-- The variable that enters is not artificial, and the other rows keep their variables. -/
theorem Represents.not_isArtificial_enter {pivot : Pivot} {before : Tableau}
    (hselect : rule.select t = some (j, c)) (henter : Simplex.enter t j = .ok (.pivoted pivot before t')) :
    ∀ r ∈ t'.rows, ¬ r.IsArtificial := by
  obtain ⟨hrecord, i, -, -, hpivot⟩ := enter_eq_pivoted_iff.mp henter
  obtain ⟨leaving, hrow, -⟩ := Tableau.pivot_eq_ok_iff.mp hpivot
  have hbefore : before.artificialRows = 0 := by
    obtain ⟨-, rfl⟩ := Tableau.record_eq_ok_iff.mp hrecord
    exact artificialRows_eq_zero_iff.mpr hfinite
  rw [← artificialRows_eq_zero_iff,
    (h.record hrecord).artificialRows_pivot hrow (h.select_lt hfinite hselect) hpivot, hbefore, Nat.zero_sub]

omit h in
/-- A sweep finds nothing to expel. -/
theorem sweep_of_not_isArtificial : sweep first count i t = ([], .ok t) := by
  induction count generalizing i with
  | zero => rfl
  | succ count ih =>
    rw [sweep]
    split
    · rfl
    · rename_i r hrow
      rw [if_neg (hfinite r (List.mem_of_getElem? hrow))]
      exact ih

/-- Whatever turn follows, a variable has entered, and no artificial variable is basic. -/
theorem Represents.enters_of_turn (hturn : Simplex.turn rule (firstArtificial q) t = .next moves t') :
    (rule.select t).isSome = true ∧ ∀ r ∈ t'.rows, ¬ r.IsArtificial := by
  rcases turn_eq_next hturn with ⟨j, c, pivot, before, hselect, henter, -⟩ | ⟨-, -, hsweep, hne⟩
  · exact ⟨by rw [hselect, Option.isSome_some], h.not_isArtificial_enter hfinite hselect henter⟩
  · rw [sweep_of_not_isArtificial hfinite, Prod.mk.injEq] at hsweep
    exact absurd hsweep.1.symm hne

/-- The run stays in its pass. -/
theorem Represents.passes_eq_one : passes rule (firstArtificial q) limit t = 1 := by
  induction limit generalizing t with
  | zero => rfl
  | succ limit ih =>
    rw [passes]
    split
    · rfl
    · rename_i moves t' hturn
      obtain ⟨hselect, hfinite'⟩ := h.enters_of_turn hfinite hturn
      rw [if_pos hselect, add_zero]
      exact ih (h.turn hturn) hfinite'

end

/-- A sweep leaves no artificial row. -/
theorem Represents.not_isArtificial_of_sweep_eq (h : Represents q t) (hart : ¬ StillArtificial t)
    (hsweep : sweep (firstArtificial q) t.rows.length 0 t = (moves, .ok t')) : ∀ r ∈ t'.rows, ¬ r.IsArtificial := by
  obtain ⟨made, t'', hsweep', -, -, hfinite⟩ :=
    h.exists_sweep_eq_run hart (.zero t) (Nat.zero_add _).ge
  cases hsweep.symm.trans hsweep'
  exact hfinite

/-- A run has at most two passes. -/
theorem Represents.passes_le_two (h : Represents q t) : passes rule (firstArtificial q) limit t ≤ 2 := by
  induction limit generalizing t with
  | zero => exact one_le_two
  | succ limit ih =>
    rw [passes]
    split
    · exact one_le_two
    · rename_i moves t' hturn
      have hnext := h.turn hturn
      rcases turn_eq_next hturn with ⟨j, c, pivot, before, hselect, -, -⟩ | ⟨hselect, hart, hsweep, -⟩
      · rw [hselect, Option.isSome_some, if_pos rfl]
        exact ih hnext
      · rw [hnext.passes_eq_one (h.not_isArtificial_of_sweep_eq hart hsweep), hselect]
        rfl

/-! The two passes. -/

/-- What a sweep of a tableau without an artificial variable at a value other than zero does. -/
structure Expels (first : Nat) (t : Tableau) (made : List Move) (t' : Tableau) : Prop where
  /-- A loop that looks for the first artificial row after every move makes the same moves, and ends. -/
  run_eq : run (expelFirst first) (t.artificialRows + 1) t = some (made, .ok t')
  /-- It makes one move for each row with an artificial basic variable. -/
  length_made : made.length = t.artificialRows
  /-- Except for the rows that were removed, all right-hand sides are as before. -/
  bounds : t'.rows.map (·.bound) = (made.filterMap Move.dropped?).foldl List.eraseIdx (t.rows.map (·.bound))
  objectiveValue : t'.objectiveValue = t.objectiveValue
  isFeasible : t'.IsFeasible
  not_isArtificial : ∀ r ∈ t'.rows, ¬ r.IsArtificial

/-- A tableau in which nothing is left to expel, and in which no artificial variable will enter. -/
structure Settled (rule : Pricing) (first : Nat) (t : Tableau) : Prop where
  not_isArtificial : ∀ r ∈ t.rows, ¬ r.IsArtificial
  select_lt : ∀ j c, rule.select t = some (j, c) → j < first
  /-- Another sweep makes no move and leaves the tableau as it is. -/
  sweep_eq : sweep first t.rows.length 0 t = ([], .ok t)
  /-- The run ends with this tableau when no variable enters. -/
  turn_eq : rule.select t = none → turn rule first t = .done [] (.solved t)
  /-- No column of a basic variable is an artificial one. -/
  basicIn_lt : ∀ i j, t.BasicIn i j → j < first
  /-- When the artificial columns are cut off, all basic variables keep their rows and columns. -/
  truncate : ∃ result, t.truncate first = .ok result ∧ result.names = t.names ∧
    ∀ i j, t.BasicIn i j → result.BasicIn i j

/-- A sweep of all rows can be finished, and is what the loop does. -/
theorem Represents.exists_expels (h : Represents q t) (hart : ¬ StillArtificial t) :
    ∃ made t', sweep (firstArtificial q) t.rows.length 0 t = (made, .ok t') ∧
      Expels (firstArtificial q) t made t' ∧ Represents q t' := by
  obtain ⟨made, t', hsweep, hrun, hlength, hfinite⟩ :=
    h.exists_sweep_eq_run hart (.zero t) (Nat.zero_add _).ge
  have hsweeps := sweeps_of_sweep hsweep
  obtain ⟨hbounds, hobjective⟩ := h.map_bound_sweeps hart hsweeps
  have ht' := (h.sweeps hart hsweeps).1
  exact ⟨made, t', hsweep, ⟨hrun, hlength, hbounds, hobjective, ht'.feasible, hfinite⟩, ht'⟩

/-- Where no artificial variable is basic, the artificial variables are out for good. -/
theorem Represents.settled (h : Represents p.augmented t) (hfinite : ∀ r ∈ t.rows, ¬ r.IsArtificial) :
    Settled rule (firstArtificial p.augmented) t := by
  have hart : ¬ StillArtificial t := fun ⟨r, hr, hartificial, _⟩ => hfinite r hr hartificial
  have hsweep : sweep (firstArtificial p.augmented) t.rows.length 0 t = ([], .ok t) :=
    sweep_of_not_isArtificial hfinite
  have hbasic : ∀ i j, t.BasicIn i j → j < firstArtificial p.augmented := fun i j hb =>
    lt_firstArtificial_of_basicIn h hfinite hb
  obtain ⟨result, htruncate⟩ := h.exists_truncate
  refine ⟨hfinite, fun j c => h.select_lt hfinite, hsweep, fun hselect => ?_, hbasic, result, htruncate,
    Tableau.names_truncate htruncate, fun i j hb => hb.truncate htruncate (hbasic i j hb)⟩
  have hoptimal := (Pricing.select_eq_none_iff rule t).mp hselect
  simp only [Simplex.turn, hselect, hoptimal, not_true_eq_false, if_false, hart, hsweep]

/-- The artificial variables stay out in all tableaus that are reached. -/
theorem Represents.settled_of_reaches (h : Represents p.augmented t) (hfinite : ∀ r ∈ t.rows, ¬ r.IsArtificial)
    (hreach : Reaches (Simplex.turn rule (firstArtificial p.augmented)) t moves t') :
    Settled rule (firstArtificial p.augmented) t' := by
  let P : List Move → Tableau → Prop := fun _ t => Represents p.augmented t ∧ ∀ r ∈ t.rows, ¬ r.IsArtificial
  have hstep : ∀ moves t made t', P moves t →
      Simplex.turn rule (firstArtificial p.augmented) t = .next made t' → P (moves ++ made) t' :=
    fun _ _ _ _ ht hturn => ⟨ht.1.turn hturn, (ht.1.enters_of_turn ht.2 hturn).2⟩
  obtain ⟨ht', hfinite'⟩ := hreach.invariant hstep ⟨h, hfinite⟩
  exact ht'.settled hfinite'

/-- The run of an accepted program has at most two passes. When no variable enters in a tableau that it reaches, and
no artificial variable is basic there at a value other than zero, the sweep ends after one move for each artificial
row and changes neither the other right-hand sides nor the objective value. Of the tableau that it leaves and of all
that the run reaches from there, no basic variable is artificial and none will be: a second sweep changes nothing, and
when the artificial columns are cut off, no basic variable loses its column. -/
theorem settled_of_sweep (hp : p.Accepted) (rule : Pricing) :
    ∃ form basis start, p.standardForm = .ok form ∧ form.augmented.initialBasis = .ok basis ∧
      Tableau.ofBasis form.augmented basis = .ok start ∧
      (∀ limit, passes rule (firstArtificial form.augmented) limit start ≤ 2) ∧
      ∀ moves t, Reaches (turn rule (firstArtificial form.augmented)) start moves t → rule.select t = none →
        ¬ StillArtificial t →
        ∃ made t', sweep (firstArtificial form.augmented) t.rows.length 0 t = (made, .ok t') ∧
          Expels (firstArtificial form.augmented) t made t' ∧
          ∀ later t'', Reaches (turn rule (firstArtificial form.augmented)) t' later t'' →
            Settled rule (firstArtificial form.augmented) t'' := by
  obtain ⟨columns, start, hinitial, -, hbasis, -, hstart⟩ := exists_start hp
  refine ⟨_, _, start, Program.standardForm_eq hp.artificials_eq, hinitial, hbasis, fun limit => hstart.passes_le_two,
    fun moves t hreach _ hart => ?_⟩
  obtain ⟨made, t', hsweep, hexpels, ht'⟩ := (hstart.reaches hreach).exists_expels hart
  exact ⟨made, t', hsweep, hexpels, fun later t'' hlater => ht'.settled_of_reaches hexpels.not_isArtificial hlater⟩

/-- An equation and the double of it, which nothing but zero satisfies, and a limit. -/
def toldTwiceAtZero : Program :=
  ⟨.maximize, [0, 1], [], [], [⟨[-1, -1], .eq, 0⟩, ⟨[-2, -2], .eq, 0⟩, ⟨[1, 1], .le, 3⟩]⟩

/-- The first artificial variable is expelled, the row of the second is removed, and a variable enters after that. -/
theorem settled_toldTwiceAtZero : ∃ start made t',
    Tableau.ofBasis toldTwiceAtZero.augmented ⟨[4, 5, 3], []⟩ = .ok start ∧
    passes .steepest 4 3 start = 2 ∧ start.artificialRows = 2 ∧
    sweep 4 start.rows.length 0 start = (made, .ok t') ∧ made.filterMap Move.dropped? = [1] ∧
    (Pricing.steepest.select t').isSome = true ∧ Expels 4 start made t' ∧ Settled .steepest 4 t' := by
  obtain ⟨form, basis, start, hform, hbasis, hstart, -, hsettled⟩ :=
    settled_of_sweep (p := toldTwiceAtZero) rfl .steepest
  cases (Program.standardForm_eq (p := toldTwiceAtZero) rfl).symm.trans hform
  have hcolumns : toldTwiceAtZero.augmented.initialBasis = .ok ⟨[4, 5, 3], []⟩ := by decide +kernel
  cases hcolumns.symm.trans hbasis
  have hcheck : (Tableau.ofBasis toldTwiceAtZero.augmented ⟨[4, 5, 3], []⟩).toOption.any (fun t =>
      decide (Pricing.steepest.select t = none ∧ ¬ StillArtificial t ∧ passes .steepest 4 3 t = 2 ∧
        t.artificialRows = 2 ∧ (sweep 4 t.rows.length 0 t).1.filterMap Move.dropped? = [1] ∧
        (sweep 4 t.rows.length 0 t).2.toOption.any (Pricing.steepest.select · |>.isSome) = true)) = true := by
    decide +kernel
  rw [hstart] at hcheck
  obtain ⟨hselect, hart, hpasses, hrows, hdropped, hnext⟩ := of_decide_eq_true hcheck
  obtain ⟨made, t', hsweep, hexpels, hlater⟩ := hsettled [] start .start hselect hart
  have hsweep4 : sweep 4 start.rows.length 0 start = (made, .ok t') := hsweep
  rw [hsweep4] at hdropped hnext
  exact ⟨start, made, t', hstart, hpasses, hrows, hsweep4, hdropped, hnext, hexpels, hlater [] t' .start⟩

end ExactSimplex.Simplex
