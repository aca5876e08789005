import ExactSimplex.Proofs.Optimum
import ExactSimplex.Proofs.Program.Rewriting
import ExactSimplex.Proofs.Simplex.Rays
import ExactSimplex.Proofs.Simplex.Totality

/-!
# The answer depends on the program only

Which answer a run gives is settled by the objective values that feasible assignments attain and those that
directions attain, and at most one answer is correct. Ways to write a program down share these values, so that
their runs give one answer, whatever variables enter and leave on the way.
-/

namespace ExactSimplex.Simplex

open Program

variable {rule rule' : Pricing} {limit limit' j : Nat} {p p' : Program} {t : Tableau} {d : Derivation}

/-- What a run tells about its program. -/
inductive Answer
  /-- The objective value of the solution. -/
  | optimal (value : Rat)
  /-- No assignment satisfies all constraints. -/
  | infeasible
  /-- Nothing limits the objective. -/
  | unbounded
  deriving DecidableEq, Repr

/-- The answer of a derivation that ended with a solution, or found its program infeasible or unbounded. -/
def Derivation.answer? (d : Derivation) : Option Answer :=
  match d.ending with
  | .solved t =>
    (Solution.ofTableau t d.form.augmented.decisions).toOption.map fun s => .optimal s.objectiveValue
  | .failed .infeasible => some .infeasible
  | .failed (.unbounded _) => some .unbounded
  | _ => none

namespace Answer

variable {answer answer' : Answer}

/-- The program has what the answer tells. A program with an improving direction is unbounded even when it has
no feasible assignment. -/
def Correct (p : Program) : Answer → Prop
  | .optimal v => p.Attains v ∧ ∀ w, p.Attains w → ¬ p.sense.Better w v
  | .infeasible => (¬ ∃ v, p.Attains v) ∧ ¬ p.Improves
  | .unbounded => p.Improves

/-- An improving direction leads from every value to a better one. -/
theorem exists_better_of_improves {v : Rat} (himproves : p.Improves) (hv : p.Attains v) :
    ∃ w, p.Attains w ∧ p.sense.Better w v := by
  obtain ⟨d, hd⟩ := improves_iff.mp himproves
  obtain ⟨x, hx, rfl⟩ := hv
  obtain ⟨y, hy, hbetter⟩ := hd.exists_better hx
  exact ⟨_, ⟨y, hy, rfl⟩, hbetter⟩

theorem Correct.not_improves {v : Rat} (h : (optimal v).Correct p) : ¬ p.Improves := by
  intro himproves
  obtain ⟨w, hw, hbetter⟩ := exists_better_of_improves himproves h.1
  exact h.2 w hw hbetter

/-- At most one answer is correct. -/
theorem Correct.unique (h : answer.Correct p) (h' : answer'.Correct p) : answer = answer' := by
  cases answer with
  | optimal v =>
    cases answer' with
    | optimal w =>
      have heq : v = w := Sense.eq_of_not_better (h'.2 v h.1) (h.2 w h'.1)
      exact congrArg optimal heq
    | infeasible => exact absurd ⟨v, h.1⟩ h'.1
    | unbounded => exact absurd h' h.not_improves
  | infeasible =>
    cases answer' with
    | optimal w => exact absurd ⟨w, h'.1⟩ h.1
    | infeasible => rfl
    | unbounded => exact absurd h' h.2
  | unbounded =>
    cases answer' with
    | optimal w => exact absurd h h'.not_improves
    | infeasible => exact absurd h h'.2
    | unbounded => rfl

/-- A change of the way in which the program is written down keeps the correct answer. -/
theorem correct_iff_of_rewriting (hp : p.Accepted) (h : Rewriting p p') :
    answer.Correct p' ↔ answer.Correct p := by
  cases answer with
  | optimal v => simp only [Correct, h.attains_iff hp, h.sense_eq]
  | infeasible => simp only [Correct, h.attains_iff hp, h.improves_iff hp]
  | unbounded => exact h.improves_iff hp

/-- Any number of such changes keeps the correct answer. -/
theorem correct_iff_of_rewritten (answer : Answer) (hp : p.Accepted) (h : Rewritten p p') :
    p'.Accepted ∧ (answer.Correct p' ↔ answer.Correct p) := by
  -- A change keeps the correct answer of an accepted program, so the induction carries acceptance along.
  induction h with
  | refl => exact ⟨hp, Iff.rfl⟩
  | tail _ hchange ih =>
    obtain ⟨hq, hcorrect⟩ := ih
    exact ⟨hchange.accepted hq, (correct_iff_of_rewriting hq hchange).trans hcorrect⟩

end Answer

/-! Every run gives the correct answer. -/

section Ending

variable (hp : p.Accepted) (h : solve rule limit p = some (.ok d))

include hp h

/-- A result is answered by the best objective value. -/
theorem correct_of_solved (hending : d.ending = .solved t) :
    ∃ v, d.answer? = some (.optimal v) ∧ (Answer.optimal v).Correct p := by
  obtain ⟨t', ht', hopt, hfinite, htruncate⟩ := exists_of_solve_solved hp h hending
  have hart : ¬ StillArtificial t' := fun ⟨r, hr, hartificial, _⟩ => hfinite r hr hartificial
  have hobjective := ht'.isFinite_objectiveValue hfinite
  rw [← Tableau.objectiveValue_truncate htruncate] at hobjective
  refine ⟨t'.objectiveValue.finite, ?_, ⟨_, feasible_variableValue hp ht' hart, objectiveAt_variableValue ht'⟩, ?_⟩
  · rw [← Tableau.objectiveValue_truncate htruncate, Derivation.answer?, hending]
    simp only [Solution.ofTableau, if_pos hobjective]
    rfl
  · rintro _ ⟨x, hx, rfl⟩
    exact not_better_of_feasible hp ht' hfinite hopt hx

/-- A program that is found infeasible has neither a feasible assignment nor an improving direction. -/
theorem correct_of_infeasible (hending : d.ending = .failed .infeasible) : Answer.infeasible.Correct p := by
  obtain ⟨t, ht, hopt, hart⟩ := exists_of_solve_infeasible hp h hending
  constructor
  · rintro ⟨_, x, hx, -⟩
    exact not_stillArtificial_of_feasible hp ht hopt.isPenaltyOptimal hx hart
  · rw [improves_iff]
    exact not_exists.mpr (not_isImprovingDirection_of_isOptimal hp ht hopt)

/-- A program that is found unbounded has an improving direction. -/
theorem correct_of_unbounded (hending : d.ending = .failed (.unbounded j)) : Answer.unbounded.Correct p := by
  obtain ⟨t, c, ht, -, hselect, hentry⟩ := exists_of_solve_unbounded hp h hending
  obtain ⟨hpos, hlt, rfl, himproving⟩ := Pricing.of_select hselect
  exact improves_iff.mpr ⟨_, isImprovingDirection_ray hp ht hpos hlt himproving hentry⟩

end Ending

/-- A run of an accepted program that ends gives the correct answer. -/
theorem correct_of_solve {result : Except Fault Derivation} (hp : p.Accepted)
    (h : solve rule limit p = some result) :
    ∃ d answer, result = .ok d ∧ d.answer? = some answer ∧ answer.Correct p := by
  obtain ⟨d, rfl, ⟨t, hending⟩ | hending | ⟨j, hending⟩⟩ := ending_of_solve hp h
  · obtain ⟨v, hanswer, hcorrect⟩ := correct_of_solved hp h hending
    exact ⟨d, _, rfl, hanswer, hcorrect⟩
  · have hanswer : d.answer? = some .infeasible := by rw [Derivation.answer?, hending]
    exact ⟨d, _, rfl, hanswer, correct_of_infeasible hp h hending⟩
  · have hanswer : d.answer? = some .unbounded := by rw [Derivation.answer?, hending]
    exact ⟨d, _, rfl, hanswer, correct_of_unbounded hp h hending⟩

/-- Runs of two ways to write a program down give the same answer, under any rules. -/
theorem answer_eq_of_rewritten {result result' : Except Fault Derivation} (hp : p.Accepted)
    (hrewritten : Rewritten p p') (h : solve rule limit p = some result)
    (h' : solve rule' limit' p' = some result') :
    ∃ d d' answer, result = .ok d ∧ result' = .ok d' ∧ d.answer? = some answer ∧ d'.answer? = some answer := by
  obtain ⟨d, answer, rfl, hanswer, hcorrect⟩ := correct_of_solve hp h
  obtain ⟨hp', hiff⟩ := answer.correct_iff_of_rewritten hp hrewritten
  obtain ⟨d', answer', rfl, hanswer', hcorrect'⟩ := correct_of_solve hp' h'
  obtain rfl := hcorrect'.unique (hiff.mpr hcorrect)
  exact ⟨d, d', _, rfl, rfl, hanswer, hanswer'⟩

/-- Ten units at the lower of two prices, at which only four are left. -/
def supplies : Program := ⟨.minimize, [2, 3], [], [], [⟨[1, 1], .ge, 10⟩, ⟨[1, 0], .le, 4⟩]⟩

/-- Constraints on what is bought at the higher and at the lower price. -/
def higherPriceFirst (constraints : List Constraint) : Program := ⟨.minimize, [3, 2], [], [], constraints⟩

theorem rewritten_supplies :
    Rewritten supplies (higherPriceFirst [⟨[0, 3], .le, 12⟩, ⟨[-1, -1], .le, -10⟩]) := by
  have hswapped : supplies.reorder (Equiv.swap ⟨0, by decide⟩ ⟨1, by decide⟩) =
      higherPriceFirst [⟨[1, 1], .ge, 10⟩, ⟨[0, 1], .le, 4⟩] := by decide +kernel
  have htripled : Constraint.scale 3 ⟨[0, 1], .le, 4⟩ = ⟨[0, 3], .le, 12⟩ := by decide +kernel
  have hnegated : Constraint.negate ⟨[1, 1], .ge, 10⟩ = ⟨[-1, -1], .le, -10⟩ := by decide +kernel
  have hcolumns : Rewriting supplies (higherPriceFirst [⟨[1, 1], .ge, 10⟩, ⟨[0, 1], .le, 4⟩]) := by
    rw [← hswapped]
    exact .columns _ _
  have hscale : Rewriting (higherPriceFirst [⟨[1, 1], .ge, 10⟩, ⟨[0, 1], .le, 4⟩])
      (higherPriceFirst ([⟨[1, 1], .ge, 10⟩] ++ [⟨[0, 3], .le, 12⟩])) := by
    rw [← htripled]
    exact .scale (by norm_num) rfl
  have hnegate : Rewriting (higherPriceFirst [⟨[1, 1], .ge, 10⟩, ⟨[0, 3], .le, 12⟩])
      (higherPriceFirst ([] ++ [⟨[-1, -1], .le, -10⟩, ⟨[0, 3], .le, 12⟩])) := by
    rw [← hnegated]
    exact .negate rfl
  exact (((Relation.ReflTransGen.single hcolumns).tail hscale).tail hnegate).tail (.rows (.swap _ _ []))

/-- Six units have to be bought at the higher price. -/
theorem answer_supplies : ∃ d d', solve .steepest 4 supplies = some (.ok d) ∧
    solve .first 4 (higherPriceFirst [⟨[0, 3], .le, 12⟩, ⟨[-1, -1], .le, -10⟩]) = some (.ok d') ∧
    d.answer? = some (.optimal 26) ∧ d'.answer? = some (.optimal 26) := by
  have hanswer : (derivation? .steepest 4 supplies).bind Derivation.answer? = some (.optimal 26) := by
    decide +kernel
  obtain ⟨d, hd, hoptimal⟩ := Option.bind_eq_some_iff.mp hanswer
  have hended : (derivation? .first 4 (higherPriceFirst [⟨[0, 3], .le, 12⟩, ⟨[-1, -1], .le, -10⟩])).isSome =
      true := by decide +kernel
  obtain ⟨d', hd'⟩ := Option.isSome_iff_exists.mp hended
  rw [derivation?_eq_some_iff] at hd hd'
  obtain ⟨e, e', answer, heq, heq', hsame, hsame'⟩ :=
    answer_eq_of_rewritten (p := supplies) rfl rewritten_supplies hd hd'
  cases heq
  cases heq'
  exact ⟨d, d', hd, hd', hoptimal, hsame'.trans (hsame.symm.trans hoptimal)⟩

end ExactSimplex.Simplex
