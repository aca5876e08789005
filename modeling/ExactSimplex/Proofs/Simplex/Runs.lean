import ExactSimplex.Proofs.Reaches
import ExactSimplex.Proofs.Simplex.Invariant
import ExactSimplex.Proofs.Tableau.Start

/-!
# Runs of the Simplex method

A turn lets a variable enter or sweeps artificial variables out, and a run ends for one of four reasons.
Every tableau that a run reaches represents the augmented program, so the tableau in which it ends does.
-/

namespace ExactSimplex.Simplex

variable {rule : Pricing} {first limit j : Nat} {q p : Program} {t t' : Tableau} {moves : List Move}
  {d : Derivation}

/-! One turn. -/

/-- The run goes on after a variable has entered, or after artificial variables were expelled from an
optimal tableau. -/
theorem turn_eq_next (h : turn rule first t = .next moves t') :
    (∃ j c pivot before, rule.select t = some (j, c) ∧ enter t j = .ok (.pivoted pivot before t') ∧
        moves = [.enter pivot before t']) ∨
      (rule.select t = none ∧ ¬ StillArtificial t ∧ sweep first t.rows.length 0 t = (moves, .ok t') ∧
        moves ≠ []) := by
  unfold turn at h
  split at h
  · rename_i j c hselect
    split at h
    · cases h
    · cases h
    · rename_i pivot before after henter
      cases h
      exact .inl ⟨j, c, pivot, before, hselect, henter, rfl⟩
  · rename_i hselect
    split at h
    · cases h
    · split at h
      · cases h
      · rename_i hart
        split at h
        · cases h
        · cases h
        · rename_i hne hsweep
          cases h
          exact .inr ⟨hselect, hart, hsweep, hne⟩

/-- The ways in which a turn ends a run, with the moves that it still makes. -/
inductive Ends (rule : Pricing) (first : Nat) (t : Tableau) : List Move → Ending Tableau → Prop
  /-- The entering variable can be given no row. -/
  | enterFault {j : Nat} {c : Cost} {fault : Fault} : rule.select t = some (j, c) → enter t j = .error fault →
      Ends rule first t [] (.fault fault)
  /-- No row limits the entering variable. -/
  | unbounded {j : Nat} {c : Cost} {before : Tableau} : rule.select t = some (j, c) →
      enter t j = .ok (.unlimited before) → Ends rule first t [.stuck before] (.failed (.unbounded j))
  /-- No variable was selected, although one improves the objective. -/
  | notOptimal : rule.select t = none → ¬ t.IsOptimal → Ends rule first t [] (.fault .notOptimal)
  /-- An artificial variable is basic at a value other than zero. -/
  | infeasible : rule.select t = none → StillArtificial t → Ends rule first t [.stuck t] (.failed .infeasible)
  /-- An artificial variable can be given no column, or its row cannot be removed. -/
  | sweepFault {moves : List Move} {fault : Fault} :
      sweep first t.rows.length 0 t = (moves, .error fault) → Ends rule first t moves (.fault fault)
  /-- Nothing improves the objective, and there is nothing to expel. -/
  | solved {t' : Tableau} : rule.select t = none → ¬ StillArtificial t →
      sweep first t.rows.length 0 t = ([], .ok t') → Ends rule first t [] (.solved t')

/-- A turn ends a run in one of these ways. -/
theorem ends_of_turn {ending : Ending Tableau} (h : turn rule first t = .done moves ending) :
    Ends rule first t moves ending := by
  unfold turn at h
  split at h
  · rename_i hselect
    split at h
    · rename_i henter
      cases h
      exact .enterFault hselect henter
    · rename_i henter
      cases h
      exact .unbounded hselect henter
    · cases h
  · rename_i hselect
    split at h
    · rename_i hnot
      cases h
      exact .notOptimal hselect hnot
    · split at h
      · rename_i hart
        cases h
        exact .infeasible hselect hart
      · rename_i hart
        split at h
        · rename_i hsweep
          cases h
          exact .sweepFault hsweep
        · rename_i hsweep
          cases h
          exact .solved hselect hart hsweep
        · cases h

/-- The run ends with a result when nothing improves the objective and there is nothing to expel. -/
theorem turn_eq_solved (h : turn rule first t = .done moves (.solved t')) :
    moves = [] ∧ rule.select t = none ∧ ¬ StillArtificial t ∧
      sweep first t.rows.length 0 t = ([], .ok t') := by
  cases ends_of_turn h with
  | solved hselect hart hsweep => exact ⟨rfl, hselect, hart, hsweep⟩

/-- The run ends as infeasible when nothing improves the objective and an artificial variable is not
zero. -/
theorem turn_eq_infeasible (h : turn rule first t = .done moves (.failed .infeasible)) :
    moves = [.stuck t] ∧ rule.select t = none ∧ StillArtificial t := by
  cases ends_of_turn h with
  | infeasible hselect hart => exact ⟨rfl, hselect, hart⟩

/-- The run ends as unbounded when no row limits the entering variable. -/
theorem turn_eq_unbounded (h : turn rule first t = .done moves (.failed (.unbounded j))) :
    ∃ c before, moves = [.stuck before] ∧ rule.select t = some (j, c) ∧
      enter t j = .ok (.unlimited before) := by
  cases ends_of_turn h with
  | unbounded hselect henter => exact ⟨_, _, rfl, hselect, henter⟩

/-- Every turn keeps the representation. -/
theorem Represents.turn (h : Represents q t)
    (hturn : turn rule (firstArtificial q) t = .next moves t') : Represents q t' := by
  rcases turn_eq_next hturn with ⟨_, _, _, _, _, henter, _⟩ | ⟨_, hart, hsweep, _⟩
  · exact h.enter henter
  · exact (h.sweeps hart (sweeps_of_sweep hsweep)).1

/-- All tableaus that are reached represent the program that the first one does. -/
theorem Represents.reaches (h : Represents q t)
    (hreach : Reaches (Simplex.turn rule (firstArtificial q)) t moves t') : Represents q t' := by
  have hstep : ∀ (_ : List Move) s made s', Represents q s →
      Simplex.turn rule (firstArtificial q) s = .next made s' → Represents q s' :=
    fun _ _ _ _ hs hturn => hs.turn hturn
  exact hreach.invariant hstep h

/-! A whole run. -/

/-- A program without artificial variables is not refused: what a run tells is a derivation from its standard
form. -/
theorem exists_derivation_of_solve {answer : Except Fault Derivation} (hartificials : p.artificials = 0)
    (h : solve rule limit p = some answer) :
    ∃ d, answer = .ok d ∧ d.form = ⟨p.canonicalize, p.slacked, p.augmented⟩ := by
  simp only [solve, Program.standardForm_eq hartificials] at h
  split at h
  · cases h
    exact ⟨_, rfl, rfl⟩
  · obtain ⟨d, hd, rfl⟩ := Option.map_eq_some_iff.mp h
    refine ⟨d, rfl, ?_⟩
    simp only [solveFrom] at hd
    split at hd
    · cases hd
      rfl
    · obtain ⟨_, -, rfl⟩ := Option.map_eq_some_iff.mp hd
      rfl

/-- In the starting basis of the augmented program no row falls back on a decision variable, and its tableau
represents the augmented program. -/
theorem exists_start (hp : p.Accepted) :
    ∃ columns t, p.augmented.initialBasis = .ok ⟨columns, []⟩ ∧
      Tableau.ofProgram p.augmented columns = .ok t ∧ Tableau.ofBasis p.augmented ⟨columns, []⟩ = .ok t ∧
      t.ratios = none ∧ Represents p.augmented t := by
  obtain ⟨columns, hinitial, hbasis, hunit, -⟩ := hp.exists_initialBasis
  have hlength := fun c (hc : c ∈ p.augmented.constraints) => hp.length_augmented hc
  have hwell := Tableau.wellFormed_start hbasis hunit hlength
  have hsolution := hwell.holds_variableValue
  exact ⟨columns, Tableau.start p.augmented columns, hinitial, Tableau.ofProgram_eq_start hbasis hunit hlength,
    Tableau.ofBasis_eq_start hbasis hunit hlength, rfl,
    hp.priced_augmented, rfl, rfl, hwell, Tableau.isFeasible_start hbasis fun _ hc => Program.bound_augmented_nonneg hc,
      fun x _ => Tableau.holds_start hbasis, fun x _ => (Tableau.holds_add_iff hsolution).symm.trans
        ((Tableau.holds_start hbasis).trans
          (Program.tight_add_iff ((Tableau.holds_start hbasis).mp hsolution)))⟩

/-- The method starts with the tableau of the augmented program for its starting basis, which represents the
augmented program. -/
theorem exists_start_of_solve (hp : p.Accepted) (h : solve rule limit p = some (.ok d)) :
    ∃ basis t ending, p.augmented.initialBasis = .ok basis ∧
      Tableau.ofProgram p.augmented basis.columns = .ok t ∧ t.ratios = none ∧
      Represents p.augmented t ∧
      d.basis = List.zipWith (fun j c => (variableName j, c.bound)) basis.columns p.augmented.constraints ∧
      run (turn rule (firstArtificial p.augmented)) limit t = some (d.moves, ending) ∧
      d.ending = finish (firstArtificial p.augmented) ending := by
  obtain ⟨columns, t, hinitial, hprogram, hbasis, hratios, hstart⟩ := exists_start hp
  simp only [solve, Program.standardForm_eq hp.artificials_eq, hinitial, solveFrom, hbasis] at h
  obtain ⟨d', hd', heq⟩ := Option.map_eq_some_iff.mp h
  obtain ⟨⟨moves, ending⟩, hrun, rfl⟩ := Option.map_eq_some_iff.mp hd'
  cases heq
  exact ⟨⟨columns, []⟩, t, ending, hinitial, hprogram, hratios, hstart, rfl, hrun, rfl⟩

/-- A run starts with a tableau that represents the augmented program. -/
theorem exists_run_of_solve (hp : p.Accepted) (h : solve rule limit p = some (.ok d)) :
    ∃ t moves ending, Represents p.augmented t ∧
      run (turn rule (firstArtificial p.augmented)) limit t = some (moves, ending) ∧
      d.moves = moves ∧ d.ending = finish (firstArtificial p.augmented) ending := by
  obtain ⟨basis, t, ending, -, -, -, hstart, -, hrun, hfinish⟩ := exists_start_of_solve hp h
  exact ⟨t, d.moves, ending, hstart, hrun, rfl, hfinish⟩

/-- A run ends with a turn on a tableau that represents the augmented program. -/
theorem exists_last_turn_of_solve (hp : p.Accepted) (h : solve rule limit p = some (.ok d)) :
    ∃ t front last ending, Represents p.augmented t ∧
      turn rule (firstArtificial p.augmented) t = .done last ending ∧
      d.moves = front ++ last ∧ d.ending = finish (firstArtificial p.augmented) ending := by
  obtain ⟨t₀, moves, ending, hstart, hrun, hmoves, hending⟩ := exists_run_of_solve hp h
  obtain ⟨front, last, t, hreach, hdone, rfl⟩ := exists_reaches_of_run hrun
  exact ⟨t, front, last, ending, hstart.reaches hreach, hdone, hmoves, hending⟩

/-- Cutting the artificial columns off turns a result into a result. -/
theorem finish_eq_solved_iff {ending : Ending Tableau} :
    finish first ending = .solved t' ↔ ∃ t, ending = .solved t ∧ t.truncate first = .ok t' := by
  cases ending with
  | solved t =>
    simp only [finish, Ending.solved.injEq, exists_eq_left']
    split <;> simp_all
  | failed failure => simp [finish]
  | fault fault => simp [finish]

/-- Cutting the artificial columns off leaves a failure as it is. -/
theorem finish_eq_failed_iff {ending : Ending Tableau} {failure : Failure} :
    finish first ending = .failed failure ↔ ending = .failed failure := by
  cases ending with
  | solved t =>
    simp only [finish, reduceCtorEq, iff_false]
    split <;> simp
  | failed failure => simp [finish]
  | fault fault => simp [finish]

/-- A solved program ends in an optimal tableau in which no artificial variable is basic, and the result
is that tableau without its artificial columns. -/
theorem exists_of_solve_solved (hp : p.Accepted) (h : solve rule limit p = some (.ok d))
    (hending : d.ending = .solved t') :
    ∃ t, Represents p.augmented t ∧ t.IsOptimal ∧ (∀ r ∈ t.rows, ¬ r.IsArtificial) ∧
      t.truncate (firstArtificial p.augmented) = .ok t' := by
  obtain ⟨t, _, _, ending, ht, hturn, _, hfinish⟩ := exists_last_turn_of_solve hp h
  rw [hending, eq_comm, finish_eq_solved_iff] at hfinish
  obtain ⟨t'', rfl, htruncate⟩ := hfinish
  obtain ⟨-, hselect, -, hsweep⟩ := turn_eq_solved hturn
  obtain ⟨rfl, -⟩ := sweep_nil hsweep
  exact ⟨t'', ht, (Pricing.select_eq_none_iff rule t'').mp hselect, not_isArtificial_of_sweep hsweep, htruncate⟩

/-- An infeasible program ends in an optimal tableau with an artificial variable that is not zero. -/
theorem exists_of_solve_infeasible (hp : p.Accepted) (h : solve rule limit p = some (.ok d))
    (hending : d.ending = .failed .infeasible) :
    ∃ t, Represents p.augmented t ∧ t.IsOptimal ∧ StillArtificial t := by
  obtain ⟨t, _, _, ending, ht, hturn, _, hfinish⟩ := exists_last_turn_of_solve hp h
  rw [hending, eq_comm, finish_eq_failed_iff] at hfinish
  subst hfinish
  obtain ⟨-, hselect, hart⟩ := turn_eq_infeasible hturn
  exact ⟨t, ht, (Pricing.select_eq_none_iff rule t).mp hselect, hart⟩

/-- An unbounded program ends in a tableau with a column that improves the objective and has no positive
entry, and that tableau is the last step of the record. -/
theorem exists_of_solve_unbounded (hp : p.Accepted) (h : solve rule limit p = some (.ok d))
    (hending : d.ending = .failed (.unbounded j)) :
    ∃ t c, Represents p.augmented t ∧ d.steps.getLast? = some ⟨none, t⟩ ∧
      rule.select t = some (j, c) ∧ ∀ i, t.entry i j ≤ 0 := by
  obtain ⟨t, front, _, ending, ht, hturn, hmoves, hfinish⟩ := exists_last_turn_of_solve hp h
  rw [hending, eq_comm, finish_eq_failed_iff] at hfinish
  subst hfinish
  obtain ⟨c, before, rfl, hselect, henter⟩ := turn_eq_unbounded hturn
  obtain ⟨hrecord, hratio⟩ := enter_eq_unlimited_iff.mp henter
  have hbefore := ht.record hrecord
  have hlast : d.steps.getLast? = some ⟨none, before⟩ := by
    rw [Derivation.steps, hmoves, List.filterMap_append]
    simp [Move.step?]
  -- The recorded ratios are all that distinguishes the snapshot from the tableau of the turn.
  obtain ⟨-, rfl⟩ := Tableau.record_eq_ok_iff.mp hrecord
  exact ⟨_, c, hbefore, hlast, hselect, Tableau.entry_nonpos_of_leastRatio hratio⟩

/-! The steps of a run. -/

/-- The steps recorded within a number of turns, whether the run ends within them or not. -/
def stepsWithin (rule : Pricing) (limit : Nat) (p : Program) : List Step :=
  match p.standardForm with
  | .error _ => []
  | .ok form =>
    match form.augmented.initialBasis with
    | .error _ => []
    | .ok basis =>
      match Tableau.ofBasis form.augmented basis with
      | .error _ => []
      | .ok t => (movesWithin (turn rule (firstArtificial form.augmented)) limit t).filterMap Move.step?

/-- A run that has ended has recorded all steps there are. -/
theorem steps_eq_stepsWithin {rule : Pricing} {limit : Nat} {d : Derivation}
    (h : solve rule limit p = some (.ok d)) : d.steps = stepsWithin rule limit p := by
  rw [solve] at h
  rw [stepsWithin]
  cases hform : p.standardForm with
  | error fault =>
    rw [hform] at h
    cases h
  | ok form =>
    rw [hform] at h
    dsimp only at h ⊢
    cases hbasis : form.augmented.initialBasis with
    | error failure =>
      rw [hbasis] at h
      cases h
      rfl
    | ok basis =>
      rw [hbasis] at h
      simp only [solveFrom] at h
      dsimp only
      cases hstart : Tableau.ofBasis form.augmented basis with
      | error fault =>
        rw [hstart] at h
        cases h
        rfl
      | ok t =>
        rw [hstart] at h
        obtain ⟨d', hd', heq⟩ := Option.map_eq_some_iff.mp h
        obtain ⟨⟨moves, ending⟩, hrun, rfl⟩ := Option.map_eq_some_iff.mp hd'
        cases heq
        exact congrArg (List.filterMap Move.step?) (movesWithin_of_run hrun).symm

/-- A run starts with the tableau of the starting basis, when no row fell back on a decision variable. -/
theorem solve_eq_of_ofBasis {columns : List Nat} (hp : p.Accepted)
    (hinitial : p.augmented.initialBasis = .ok ⟨columns, []⟩)
    (hbasis : Tableau.ofBasis p.augmented ⟨columns, []⟩ = .ok t) : solve rule limit p =
      (run (turn rule (firstArtificial p.augmented)) limit t).map fun r =>
        .ok ⟨⟨p.canonicalize, p.slacked, p.augmented⟩,
          List.zipWith (fun j c => (variableName j, c.bound)) columns p.augmented.constraints, r.1,
          finish (firstArtificial p.augmented) r.2⟩ := by
  simp only [solve, Program.standardForm_eq hp.artificials_eq, hinitial, solveFrom, hbasis, Option.map_map]
  rfl

/-- From an accepted program all runs start with one tableau, which represents the augmented program. -/
theorem exists_runs_of_accepted (hp : p.Accepted) :
    ∃ basis start, start.ratios = none ∧ Represents p.augmented start ∧
      (∀ rule limit, solve rule limit p =
        (run (turn rule (firstArtificial p.augmented)) limit start).map fun r =>
          .ok ⟨⟨p.canonicalize, p.slacked, p.augmented⟩, basis, r.1, finish (firstArtificial p.augmented) r.2⟩) ∧
      ∀ rule limit, stepsWithin rule limit p =
        (movesWithin (turn rule (firstArtificial p.augmented)) limit start).filterMap Move.step? := by
  obtain ⟨columns, start, hinitial, -, hbasis, hratios, hstart⟩ := exists_start hp
  refine ⟨List.zipWith (fun j c => (variableName j, c.bound)) columns p.augmented.constraints, start, hratios, hstart,
    fun rule limit => ?_, fun rule limit => ?_⟩
  · exact solve_eq_of_ofBasis hp hinitial hbasis
  · simp only [stepsWithin, Program.standardForm_eq hp.artificials_eq, hinitial, hbasis]

/-- A run that has ended has recorded the steps of any number of turns. -/
theorem stepsWithin_prefix_of_solve (hp : p.Accepted) (h : solve rule limit p = some (.ok d)) (limit' : Nat) :
    stepsWithin rule limit' p <+: d.steps := by
  obtain ⟨_, start, -, -, hsolve, hsteps⟩ := exists_runs_of_accepted hp
  rw [hsolve] at h
  obtain ⟨⟨moves, ending⟩, hrun, heq⟩ := Option.map_eq_some_iff.mp h
  cases heq
  rw [hsteps]
  exact (movesWithin_prefix_of_run hrun limit').filterMap Move.step?

/-! How a run ended. -/

/-- The derivation of a run, if it ended within its number of turns. -/
def derivation? (rule : Pricing) (limit : Nat) (p : Program) : Option Derivation :=
  (solve rule limit p).bind Except.toOption

/-- There is a derivation when the method started from a basis and the run ended. -/
theorem derivation?_eq_some_iff : derivation? rule limit p = some d ↔ solve rule limit p = some (.ok d) := by
  rw [derivation?, Option.bind_eq_some_iff]
  constructor
  · rintro ⟨answer, hanswer, hd⟩
    cases answer with
    | error fault => cases hd
    | ok d' =>
      cases hd
      exact hanswer
  · intro h
    exact ⟨.ok d, h, rfl⟩

/-- How a run ended, if it did within its number of turns. -/
def outcome (rule : Pricing) (limit : Nat) (p : Program) : Option (Ending Tableau) :=
  (derivation? rule limit p).map Derivation.ending

/-- The outcome of a run is the ending of its derivation. -/
theorem outcome_eq_some_iff {ending : Ending Tableau} :
    outcome rule limit p = some ending ↔ ∃ d, solve rule limit p = some (.ok d) ∧ d.ending = ending := by
  rw [outcome, Option.map_eq_some_iff]
  simp only [derivation?_eq_some_iff]

/-- The result of a run that was solved within its number of turns. -/
def result? (rule : Pricing) (limit : Nat) (p : Program) : Option Tableau :=
  match outcome rule limit p with
  | some (.solved t) => some t
  | _ => none

/-- There is a result when the outcome is one. -/
theorem result?_eq_some_iff : result? rule limit p = some t ↔ outcome rule limit p = some (.solved t) := by
  unfold result?
  split
  · rename_i t' ht'
    rw [ht', Option.some.injEq, Option.some.injEq, Ending.solved.injEq]
  · rename_i hnone
    simp only [reduceCtorEq, false_iff]
    exact hnone t

end ExactSimplex.Simplex
