import ExactSimplex.Proofs.Cutting.DeadEnd
import ExactSimplex.Proofs.Cutting.Totality
import ExactSimplex.Proofs.Program.Rewriting

/-!
# The integer answer

A run finds an integer solution with its objective value, or finds that there is none. At most one of these
answers is correct for a program, and multiplying a constraint by a positive number keeps it. A run gives the
correct one if the slack variables are whole at integer points and all cuts round down. Where a slack variable is
fractional at an integer point, the rows that are read as if it were whole show nothing.
-/

namespace ExactSimplex.Cutting

variable {p p' : Program} {cuts : List Cut} {decisions limit limit' limit₁ limit₁' : Nat} {t t' : Tableau}
  {s : State} {moves : List Move} {c c' : Derivation} {x : Assignment} {k : Rat}

/-- What a run tells about the integer points of its program. -/
inductive Answer
  /-- The objective value of the integer solution. -/
  | found (value : Rat)
  /-- There is no integer point. -/
  | nothing
  deriving DecidableEq, Repr

/-- The answer of a derivation from a tableau. The integer solution is read from the last tableau of the record,
or from the first one if no cut was needed. -/
def Derivation.answer? (d : Derivation) (decisions : Nat) (t : Tableau) : Option Answer :=
  match d.ending with
  | .solved _ =>
    d.last?.bind fun last => (Solution.ofTableau last decisions).toOption.map fun s => .found s.objectiveValue
  | .failed .alreadyInteger => (Solution.ofTableau t decisions).toOption.map fun s => .found s.objectiveValue
  | .failed (.noFractionalCoefficient _) => some .nothing
  | .failed (.noPivotColumn _) => some .nothing
  | _ => none

namespace Answer

variable {answer answer' : Answer}

/-- The integer points of the program have what the answer tells. -/
def Correct (p : Program) : Answer → Prop
  | .found v => (∃ x, p.IntegerFeasible x ∧ p.objectiveAt x = v) ∧
      ∀ x, p.IntegerFeasible x → ¬ p.sense.Better (p.objectiveAt x) v
  | .nothing => ¬ ∃ x, p.IntegerFeasible x

/-- At most one answer is correct. -/
theorem Correct.unique (h : answer.Correct p) (h' : answer'.Correct p) : answer = answer' := by
  cases answer with
  | found v =>
    obtain ⟨⟨x, hx, rfl⟩, hbest⟩ := h
    cases answer' with
    | found w =>
      obtain ⟨⟨y, hy, rfl⟩, hbest'⟩ := h'
      exact congrArg found (Sense.eq_of_not_better (hbest' x hx) (hbest y hy))
    | nothing => exact absurd ⟨x, hx⟩ h'
  | nothing =>
    cases answer' with
    | found w =>
      obtain ⟨⟨y, hy, -⟩, -⟩ := h'
      exact absurd ⟨y, hy⟩ h
    | nothing => rfl

/-- Programs with the same integer points and objective have the same correct answer. -/
theorem correct_congr (hpoints : ∀ x, p'.IntegerFeasible x ↔ p.IntegerFeasible x) (hsense : p'.sense = p.sense)
    (hobjective : p'.objective = p.objective) : answer.Correct p' ↔ answer.Correct p := by
  have hvalue : ∀ x, p'.objectiveAt x = p.objectiveAt x := fun x => congrArg (weigh x 1) hobjective
  cases answer with
  | found v => simp only [Correct, hpoints, hsense, hvalue]
  | nothing => simp only [Correct, hpoints]

end Answer

/-! Every run gives the correct answer, if no integer point is lost. -/

/-- A feasible tableau without a source for a cut tells the best integer point, if all of them survive. -/
theorem Relaxes.exists_correct (h : Relaxes p cuts t) (hp : p.Accepted) (hfeasible : t.IsFeasible)
    (hsource : source? t p.decisions = none) (hsurvives : ∀ x, p.IntegerFeasible x → Survives p cuts x) :
    ∃ s, Solution.ofTableau t p.decisions = .ok s ∧ (Answer.found s.objectiveValue).Correct p := by
  obtain ⟨s, hs, hmember, hobjective, hvalue, -⟩ := exists_solution hp h hfeasible hsource
  refine ⟨s, hs, ⟨_, hmember, hobjective⟩, fun x hx => ?_⟩
  rw [hvalue]
  exact (hsurvives x hx).not_better h

/-- The run fails in a tableau whose decision variables are whole, before the first cut. -/
theorem turn_eq_alreadyInteger (h : turn decisions s = .done moves (.failed .alreadyInteger)) :
    source? s.tableau decisions = none ∧ s.cuts = 0 := by
  cases ends_of_turn h with
  | alreadyInteger _ hnone hcuts => exact ⟨hnone, hcuts⟩

/-- A run that ends gives the correct answer, if integer points extend to its first tableau by whole values and all
its cuts round down. -/
theorem Extensible.correct_of_solve (hstart : Extensible p [] t) (hp : p.Accepted) (hslacks : p.HasWholeSlacks)
    (ht : t.IsFeasible) (h : solve p.decisions limit t = some c)
    (hdown : ∀ a ∈ c.applications, a.cut.RoundsDown) :
    ∃ answer, c.answer? p.decisions t = some answer ∧ answer.Correct p := by
  have hrecorded := h
  obtain ⟨⟨moves, ending⟩, hrun, rfl⟩ := Option.map_eq_some_iff.mp h
  obtain ⟨front, last, s, hreach, hdone, rfl⟩ := exists_reaches_of_run hrun
  have hcurrent : Extensible p (cutsOf front) s.tableau := ((kept_extensible p).reaches hstart hreach).1
  have hsurvives : ∀ x, p.IntegerFeasible x → Survives p (cutsOf front) x := by
    refine fun x hx => survives_of_roundsDown hp hslacks hstart.relaxes hreach (fun cut hcut => ?_) hx
    have hmem : cut ∈ (applications (front ++ last)).map (·.cut) := by
      rw [map_cut_applications, cutsOf_append]
      exact List.mem_append_left _ hcut
    obtain ⟨a, ha, rfl⟩ := List.mem_map.mp hmem
    exact hdown a ha
  have hfirst : s.cuts = 0 → s.tableau.IsFeasible := fun hcuts => tableau_eq_of_reaches hreach hcuts ▸ ht
  rcases hcurrent.relaxes.ending_of_turn hfirst hdone with
    ⟨rfl, hfeasible, ⟨hcuts, rfl⟩ | rfl | ⟨i, rfl⟩⟩ | ⟨i, r, before, hleaving, hrestore, -, rfl⟩
  · obtain ⟨sol, hsol, hcorrect⟩ :=
      hcurrent.relaxes.exists_correct hp hfeasible (turn_eq_alreadyInteger hdone).1 hsurvives
    rw [tableau_eq_of_reaches hreach hcuts] at hsol
    refine ⟨_, ?_, hcorrect⟩
    simp only [Derivation.answer?, hsol]
    rfl
  · obtain ⟨-, -, -, hsource, -⟩ := turn_eq_solved hdone
    obtain ⟨sol, hsol, hcorrect⟩ := hcurrent.relaxes.exists_correct hp hfeasible hsource hsurvives
    obtain ⟨-, -, -, -, -, -, hlast⟩ := exists_reaches_of_solve hstart.relaxes hrecorded rfl
    refine ⟨_, ?_, hcorrect⟩
    simp only [Derivation.answer?, hlast, Option.bind_some, hsol]
    rfl
  · obtain ⟨source, hsource, rfl, hwhole⟩ := turn_eq_noFractionalCoefficient hdone
    exact ⟨.nothing, rfl, hcurrent.not_integerFeasible hsource hwhole⟩
  · refine ⟨.nothing, rfl, ?_⟩
    rintro ⟨x, hx⟩
    exact hcurrent.relaxes.not_survives_of_blocked hleaving hrestore (hsurvives x hx)

/-- So does a run on the result of the Simplex method. -/
theorem correct_of_solve {rule : Pricing} {d : Simplex.Derivation} (hp : p.Accepted) (hslacks : p.HasWholeSlacks)
    (hsimplex : Simplex.solve rule limit p = some (.ok d)) (hd : d.ending = .solved t)
    (hcutting : solve p.decisions limit' t = some c) (hdown : ∀ a ∈ c.applications, a.cut.RoundsDown) :
    ∃ answer, c.answer? p.decisions t = some answer ∧ answer.Correct p := by
  obtain ⟨-, hcolumns, -⟩ := Simplex.wellFormed_of_solved hp hsimplex hd
  have hstart := extensible_of_hasWholeSlacks hp hslacks (relaxes_of_solved hp hsimplex hd) hcolumns
  exact hstart.correct_of_solve hp hslacks (Simplex.isFeasible_of_solved hp hsimplex hd) hcutting hdown

/-! Constraints in another scale. -/

/-- Multiplying a constraint by a positive number changes no integer point. -/
theorem integerFeasible_scale {front back : List Constraint} {con : Constraint} (hk : 0 < k)
    (hsplit : p.constraints = front ++ con :: back) (x : Assignment) :
    ({ p with constraints := front ++ con.scale k :: back } : Program).IntegerFeasible x ↔
      p.IntegerFeasible x := by
  have hholds : ({ p with constraints := front ++ con.scale k :: back } : Program).Holds x ↔ p.Holds x := by
    rw [Program.Holds, Program.Holds, hsplit]
    simp only [List.forall_mem_append, List.forall_mem_cons, Constraint.holds_scale hk]
  exact and_congr (and_congr Iff.rfl hholds) Iff.rfl

/-- The integer answers for a program and for the one with a constraint multiplied by a positive number are the
same, if in both the slack variables are whole at integer points and the cuts round down. -/
theorem answer_eq_of_scale {front back : List Constraint} {con : Constraint} {rule rule' : Pricing}
    {d d' : Simplex.Derivation} (hp : p.Accepted) (hk : 0 < k) (hsplit : p.constraints = front ++ con :: back)
    (hscaled : p' = { p with constraints := front ++ con.scale k :: back })
    (hsimplex : Simplex.solve rule limit p = some (.ok d)) (hd : d.ending = .solved t)
    (hcutting : solve p.decisions limit₁ t = some c)
    (hsimplex' : Simplex.solve rule' limit' p' = some (.ok d')) (hd' : d'.ending = .solved t')
    (hcutting' : solve p'.decisions limit₁' t' = some c')
    (hslacks : p.HasWholeSlacks) (hdown : ∀ a ∈ c.applications, a.cut.RoundsDown)
    (hslacks' : p'.HasWholeSlacks) (hdown' : ∀ a ∈ c'.applications, a.cut.RoundsDown) :
    ∃ answer, c.answer? p.decisions t = some answer ∧ c'.answer? p'.decisions t' = some answer := by
  obtain ⟨answer, hanswer, hcorrect⟩ := correct_of_solve hp hslacks hsimplex hd hcutting hdown
  subst hscaled
  have hp' := hp.replace hsplit (Constraint.length_scale k con)
  obtain ⟨answer', hanswer', hcorrect'⟩ := correct_of_solve hp' hslacks' hsimplex' hd' hcutting' hdown'
  have hsame := (Answer.correct_congr (integerFeasible_scale hk hsplit) rfl rfl).mp hcorrect'
  obtain rfl := hcorrect.unique hsame
  exact ⟨answer, hanswer, hanswer'⟩

/-- Runs of the two methods that were found by evaluation. -/
theorem exists_runs_of_any (rule : Pricing) (limit limit' : Nat) (p : Program)
    {Q : Tableau → Derivation → Prop} [∀ t c, Decidable (Q t c)]
    (h : (Simplex.result? rule limit p).any
      (fun t => (solve p.decisions limit' t).any fun c => decide (Q t c)) = true) :
    ∃ d t c, Simplex.solve rule limit p = some (.ok d) ∧ d.ending = .solved t ∧
      solve p.decisions limit' t = some c ∧ Q t c := by
  obtain ⟨t, ht, hrest⟩ := (Option.any_eq_true _ _).mp h
  obtain ⟨c, hc, hQ⟩ := (Option.any_eq_true _ _).mp hrest
  obtain ⟨d, hd, hending⟩ := Simplex.outcome_eq_some_iff.mp (Simplex.result?_eq_some_iff.mp ht)
  exact ⟨d, t, c, hd, hending, hc, of_decide_eq_true hQ⟩

/-- Four times a variable is at most six. -/
def quarters : Program := ⟨.maximize, [1], [], [], [⟨[4], .le, 6⟩]⟩

theorem answer_quarters : ∃ d t c d' t' c', Simplex.solve .steepest 2 halves = some (.ok d) ∧
    d.ending = .solved t ∧ solve halves.decisions 4 t = some c ∧ c.answer? halves.decisions t = some (.found 1) ∧
    Simplex.solve .steepest 2 quarters = some (.ok d') ∧ d'.ending = .solved t' ∧
    solve quarters.decisions 4 t' = some c' ∧ c'.answer? quarters.decisions t' = some (.found 1) := by
  obtain ⟨d, t, c, hd, hending, hc, hdown, hanswer⟩ := exists_runs_of_any .steepest 2 4 halves
    (Q := fun t c => (∀ a ∈ c.applications, a.cut.RoundsDown) ∧
      c.answer? halves.decisions t = some (.found 1)) (by decide +kernel)
  obtain ⟨d', t', c', hd', hending', hc', hdown'⟩ := exists_runs_of_any .steepest 2 4 quarters
    (Q := fun _ c => ∀ a ∈ c.applications, a.cut.RoundsDown) (by decide +kernel)
  have hsplit : halves.constraints = [] ++ ⟨[2], .le, 3⟩ :: [] := rfl
  have hscaled : quarters = { halves with constraints := [] ++ Constraint.scale 2 ⟨[2], .le, 3⟩ :: [] } := by
    decide +kernel
  have hslacks : halves.HasWholeSlacks := Program.Accepted.hasWholeSlacks (p := halves) rfl (by decide)
  have hslacks' : quarters.HasWholeSlacks := Program.Accepted.hasWholeSlacks (p := quarters) rfl (by decide)
  obtain ⟨answer, hsame, hsame'⟩ := answer_eq_of_scale (p := halves) rfl
    (by norm_num) hsplit hscaled hd hending hc hd' hending' hc' hslacks hdown hslacks' hdown'
  exact ⟨d, t, c, d', t', c', hd, hending, hc, hanswer, hd', hending', hc',
    hsame'.trans (hsame.symm.trans hanswer)⟩

/-- A variable is at most one and a half. -/
def oneAndHalf : Program := ⟨.maximize, [1], [], [], [⟨[1], .le, 3 / 2⟩]⟩

/-- The integer answer can depend on how a constraint is scaled: with a fractional bound the slack variable is
fractional at every integer point, and the run finds none. -/
theorem exists_answer_ne_of_scale : oneAndHalf.Accepted ∧
    halves = { oneAndHalf with constraints := [Constraint.scale 2 ⟨[1], .le, 3 / 2⟩] } ∧
    (∃ d t c, Simplex.solve .steepest 2 oneAndHalf = some (.ok d) ∧ d.ending = .solved t ∧
      solve oneAndHalf.decisions 4 t = some c ∧ c.answer? oneAndHalf.decisions t = some .nothing) ∧
    ∃ d t c, Simplex.solve .steepest 2 halves = some (.ok d) ∧ d.ending = .solved t ∧
      solve halves.decisions 4 t = some c ∧ c.answer? halves.decisions t = some (.found 1) := by
  refine ⟨rfl, by decide +kernel, ?_, ?_⟩
  · exact exists_runs_of_any _ _ _ _ (Q := fun t c => c.answer? oneAndHalf.decisions t = some .nothing)
      (by decide +kernel)
  · exact exists_runs_of_any _ _ _ _ (Q := fun t c => c.answer? halves.decisions t = some (.found 1))
      (by decide +kernel)

end ExactSimplex.Cutting
