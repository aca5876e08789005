import ExactSimplex.Proofs.Cutting.Runs
import ExactSimplex.Proofs.Optimum
import ExactSimplex.Proofs.Program.Integral

/-!
# The integer optimum

A solved run ends in an assignment of whole values that is the best one of the relaxation with all cuts made.
It is the best of all integer points exactly when the cuts have left one of the best. They leave every integer
point if all of them round down; the whole part of a number below minus one may lie above it, and then a cut
can remove the integer optimum.
-/

namespace ExactSimplex.Cutting

variable {p : Program} {cuts : List Cut} {decisions limit : Nat} {t after before : Tableau} {s s' : State}
  {source : Source} {moves : List Move} {r : Row} {i v : Nat} {pivot : Pivot} {x z : Assignment}

/-- The assignment extends to a nonnegative solution of the slacked equations and of the cuts. -/
def Survives (p : Program) (cuts : List Cut) (x : Assignment) : Prop :=
  ∃ z : Assignment, (∀ j, 0 < j → 0 ≤ z j) ∧ (∀ j, 0 < j → j ≤ p.decisions → z j = x j) ∧
    p.slacked.Tight z ∧ ∀ c ∈ cuts, c.Holds z

/-! Integer points and cuts that round down. -/

/-- The second assignment extends the first by whole nonnegative values to a solution of the tableau. -/
structure Extends (decisions : Nat) (t : Tableau) (x z : Assignment) : Prop where
  whole : ∀ j, 0 < j → IsWhole (z j)
  nonneg : ∀ j, 0 < j → 0 ≤ z j
  agrees : ∀ j, 0 < j → j ≤ decisions → z j = x j
  holds : t.Holds z

/-- An integer point extends to the optimal tableau by its slack values, if those are whole. -/
theorem extends_withSlacks (hp : p.Accepted) (hslacks : p.HasWholeSlacks) (h : Relaxes p [] t)
    (hx : p.IntegerFeasible x) : Extends p.decisions t x (p.withSlacks x) where
  whole := hslacks x hx
  nonneg := fun _ hpos => hp.withSlacks_nonneg hx.1 hpos
  agrees := fun _ _ hj => Program.withSlacks_of_le hj
  holds := (h.holds_iff _).mpr ⟨hp.tight_withSlacks hx.1, fun _ hc => by cases hc⟩

/-- An integer point extends beyond a cut that rounds down by the surplus of the cut. -/
theorem Extends.appendCut (hz : Extends p.decisions t x z) (h : Relaxes p cuts t)
    (hr : t.rows[i]? = some r) (ha : t.appendRow (Cut.ofRow v r.values).row = .ok after)
    (hdown : (Cut.ofRow v r.values).RoundsDown) :
    Extends p.decisions after x (Function.update z t.columns.length (Cut.surplus r z)) := by
  have hrow : r.Holds z := hz.holds r (List.mem_of_getElem? hr)
  have hwhole := Cut.isWhole_surplus hrow fun j hpos _ => hz.whole j hpos
  have hnonneg := Cut.surplus_nonneg (fun j _ hj => hdown.wholePart_le hj) hrow
    (fun j hpos _ => hz.whole j hpos) fun j hpos _ => hz.nonneg j hpos
  refine ⟨fun j hpos => ?_, fun j hpos => ?_, fun j hpos hj => ?_, h.holds_update_surplus hr ha hz.holds⟩
  · by_cases hj : j = t.columns.length
    · rwa [hj, Function.update_self]
    · rw [Function.update_of_ne hj]
      exact hz.whole j hpos
  · by_cases hj : j = t.columns.length
    · rwa [hj, Function.update_self]
    · rw [Function.update_of_ne hj]
      exact hz.nonneg j hpos
  · rw [Function.update_of_ne (hj.trans_lt h.decisions).ne]
    exact hz.agrees j hpos hj

/-- Restoring a row changes no solution. -/
theorem Extends.restore (hz : Extends decisions t x z) (h : Relaxes p cuts t) (hr : t.rows[i]? = some r)
    (hrestore : restore t i r = .ok (.pivoted pivot before after)) : Extends decisions after x z := by
  have hholds := ((h.restore hr hrestore).holds_iff z).mpr ((h.holds_iff z).mp hz.holds)
  exact ⟨hz.whole, hz.nonneg, hz.agrees, hholds⟩

/-- While all cuts round down, a turn keeps every integer point. -/
theorem exists_extends_turn {front : List Move} (hreflects : Reflects p front s)
    (hpoint : (∀ c ∈ cutsOf front, c.RoundsDown) → ∃ z, Extends p.decisions s.tableau x z)
    (hturn : turn p.decisions s = .next moves s') :
    (∀ c ∈ cutsOf (front ++ moves), c.RoundsDown) → ∃ z, Extends p.decisions s'.tableau x z := by
  intro hdown
  rw [cutsOf_append, List.forall_mem_append] at hdown
  obtain ⟨z, hz⟩ := hpoint hdown.1
  rcases turn_eq_next hturn with ⟨source, r, after, -, -, hr, ha, rfl, rfl⟩ |
    ⟨i, r, pivot, before, after, -, hleaving, hrestore, rfl, rfl⟩ | ⟨rfl, rfl⟩
  · have hcut : (Cut.ofRow source.column r.values).RoundsDown := hdown.2 _ (List.mem_singleton.mpr rfl)
    exact ⟨_, hz.appendCut hreflects.relaxes hr ha hcut⟩
  · exact ⟨z, hz.restore hreflects.relaxes (of_leavingRow? hleaving).1 hrestore⟩
  · exact ⟨z, hz⟩

/-- When all cuts of a run round down, every integer point survives them. -/
theorem survives_of_roundsDown (hp : p.Accepted) (hslacks : p.HasWholeSlacks) (ht : Relaxes p [] t)
    (hreach : Reaches (turn p.decisions) ⟨t, 0⟩ moves s) (hdown : ∀ c ∈ cutsOf moves, c.RoundsDown)
    (hx : p.IntegerFeasible x) : Survives p (cutsOf moves) x := by
  let P : List Move → State → Prop := fun moves s => Reflects p moves s ∧
    ((∀ c ∈ cutsOf moves, c.RoundsDown) → ∃ z, Extends p.decisions s.tableau x z)
  have hstart : P [] ⟨t, 0⟩ :=
    ⟨⟨ht, rfl, .inl rfl⟩, fun _ => ⟨_, extends_withSlacks hp hslacks ht hx⟩⟩
  have hstep : ∀ moves s made s', P moves s → turn p.decisions s = .next made s' → P (moves ++ made) s' :=
    fun _ _ _ _ hs hturn => ⟨hs.1.turn hturn, exists_extends_turn hs.1 hs.2 hturn⟩
  obtain ⟨hreflects, hpoint⟩ := hreach.invariant hstep hstart
  obtain ⟨z, hz⟩ := hpoint hdown
  obtain ⟨htight, hcuts⟩ := (hreflects.relaxes.holds_iff z).mp hz.holds
  exact ⟨z, hz.nonneg, hz.agrees, htight, hcuts⟩

/-! The end of a run. -/

/-- Where a feasible tableau has no source for a cut, its basic solution gives the decision variables whole
values. -/
theorem isWhole_variableValue {j : Nat} (hwell : t.WellFormed) (hfeasible : t.IsFeasible)
    (hsource : source? t decisions = none) (hpos : 0 < j) (hj : j ≤ decisions) :
    IsWhole (t.variableValue j) := by
  by_cases hbasic : ∃ i, t.BasicIn i j
  · obtain ⟨i, hi⟩ := hbasic
    have hfraction := fraction_nonpos_of_source? hsource hpos hj (hwell.rowOf?_variableName.mpr hi)
    rw [hwell.variableValue_of_basicIn hi]
    exact isWhole_of_sub_truncate_nonpos (Tableau.isFeasible_iff.mp hfeasible i hi.lt_rows) hfraction
  · rw [hwell.variableValue_eq_zero (not_exists.mp hbasic)]
    exact isWhole_zero

/-- A feasible tableau of the relaxation without a source for a cut tells an integer point that survives the
cuts, and its objective value. -/
theorem exists_solution (hp : p.Accepted) (h : Relaxes p cuts t) (hfeasible : t.IsFeasible)
    (hsource : source? t p.decisions = none) :
    ∃ s, Solution.ofTableau t p.decisions = .ok s ∧ p.IntegerFeasible s.assignment ∧
      p.objectiveAt s.assignment = s.objectiveValue ∧ s.objectiveValue = t.objectiveValue.finite ∧
      Survives p cuts s.assignment := by
  obtain ⟨s, hs⟩ : ∃ s, Solution.ofTableau t p.decisions = .ok s :=
    ⟨_, Solution.ofTableau_eq_ok_iff.mpr ⟨h.isFinite_objectiveValue, rfl⟩⟩
  have hvalue : s.objectiveValue = t.objectiveValue.finite := by
    obtain ⟨-, rfl⟩ := Solution.ofTableau_eq_ok_iff.mp hs
    rfl
  have hagrees : ∀ j, 0 < j → j ≤ p.decisions → t.variableValue j = s.assignment j := fun j hpos hj =>
    (Solution.assignment_ofTableau hs hpos hj).symm
  have hnonneg : ∀ j, 0 < j → 0 ≤ t.variableValue j := fun j _ =>
    h.wellFormed.variableValue_nonneg hfeasible j
  obtain ⟨htight, hcuts⟩ := (h.holds_iff _).mp h.wellFormed.holds_variableValue
  refine ⟨s, hs, ⟨?_, fun j hpos hj => ?_⟩, ?_, hvalue, t.variableValue, hnonneg, hagrees, htight, hcuts⟩
  · exact hp.feasible_congr hagrees (hp.feasible_of_tight hnonneg htight)
  · rw [← hagrees j hpos hj]
    exact isWhole_variableValue h.wellFormed hfeasible hsource hpos hj
  · rw [hvalue, ← h.objectiveAt_variableValue]
    exact (Program.objectiveAt_congr hagrees).symm

/-- No assignment that survives the cuts has a better objective than the basic solution. -/
theorem Survives.not_better (hx : Survives p cuts x) (h : Relaxes p cuts t) :
    ¬ p.sense.Better (p.objectiveAt x) t.objectiveValue.finite := by
  obtain ⟨z, hnonneg, hagrees, htight, hcuts⟩ := hx
  have hle := h.objectiveAt_le (fun j hpos _ => hnonneg j hpos) htight hcuts
  rw [Program.objectiveAt_congr hagrees] at hle
  rw [Sense.better_iff]
  exact not_lt.mpr hle

/-- A solved run of an integral program ends in the best integer point exactly when for every integer point
one that is as good survives the cuts. That is so when all cuts round down. -/
theorem optimal_iff_survives {rule : Pricing} {limit' : Nat} {d : Simplex.Derivation} {c : Derivation}
    {result : Tableau} (hp : p.Accepted) (hintegral : p.IsIntegral)
    (hsimplex : Simplex.solve rule limit p = some (.ok d)) (hd : d.ending = .solved t)
    (hcutting : solve p.decisions limit' t = some c) (hc : c.ending = .solved result) :
    ∃ last s, c.last? = some last ∧ Solution.ofTableau last p.decisions = .ok s ∧
      (s.Optimal p p.IntegerFeasible ↔ ∀ x, p.IntegerFeasible x → ∃ y, p.IntegerFeasible y ∧
        ¬ p.sense.Better (p.objectiveAt x) (p.objectiveAt y) ∧
        Survives p (c.applications.map (·.cut)) y) ∧
      ((∀ a ∈ c.applications, a.cut.RoundsDown) → s.Optimal p p.IntegerFeasible) := by
  obtain ⟨t₀, ht₀, hopt, hfinite, htruncate⟩ := Simplex.exists_of_solve_solved hp hsimplex hd
  have ht := relaxes_truncate ht₀ hfinite htruncate hp hopt
  obtain ⟨s', hreach, rfl, h, hfeasible, hsource, hlast⟩ := exists_reaches_of_solve ht hcutting hc
  obtain ⟨s, hs, hmember, hobjective, hvalue, hsurvives⟩ := exists_solution hp h hfeasible hsource
  have happlications : c.applications.map (·.cut) = cutsOf c.moves := map_cut_applications c.moves
  have hoptimal : s.Optimal p p.IntegerFeasible ↔ ∀ x, p.IntegerFeasible x → ∃ y, p.IntegerFeasible y ∧
      ¬ p.sense.Better (p.objectiveAt x) (p.objectiveAt y) ∧ Survives p (cutsOf c.moves) y := by
    constructor
    · intro hbest x hx
      refine ⟨s.assignment, hmember, ?_, hsurvives⟩
      rw [hobjective]
      exact hbest.best x hx
    · intro hmatched
      refine ⟨hmember, hobjective, fun x hx => ?_⟩
      obtain ⟨y, -, hworse, hy⟩ := hmatched x hx
      have hbound := hy.not_better h
      rw [Sense.better_iff, not_lt] at hworse hbound ⊢
      rw [hvalue]
      exact hworse.trans hbound
  refine ⟨s'.tableau, s, hlast, hs, happlications ▸ hoptimal, fun hdown => hoptimal.mpr fun x hx => ?_⟩
  have hrounds : ∀ cut ∈ cutsOf c.moves, cut.RoundsDown := by
    rw [← happlications]
    exact List.forall_mem_map.mpr hdown
  refine ⟨x, hx, ?_, survives_of_roundsDown hp (hp.hasWholeSlacks hintegral) ht hreach hrounds hx⟩
  rw [Sense.better_iff]
  exact lt_irrefl _

/-- Twice a variable is at most one. -/
def halved : Program := ⟨.maximize, [1], [], [], [⟨[2], .le, 1⟩]⟩

theorem optimal_halved : ∃ d t c result last s, Simplex.solve .steepest 2 halved = some (.ok d) ∧
    d.ending = .solved t ∧ solve halved.decisions 3 t = some c ∧ c.ending = .solved result ∧
    c.last? = some last ∧ Solution.ofTableau last halved.decisions = .ok s ∧
    s.Optimal halved halved.IntegerFeasible := by
  have hrun : (integerRun? .steepest 2 3 halved).any
      (fun (run : List Move × Tableau) => decide (∀ cut ∈ cutsOf run.1, cut.RoundsDown)) = true := by
    decide +kernel
  obtain ⟨⟨moves, result⟩, hsome, hdown⟩ := (Option.any_eq_true _ _).mp hrun
  obtain ⟨d, t, c, hd, hending, hc, rfl, hsolved⟩ := exists_of_integerRun? hsome
  obtain ⟨last, s, hlast, hs, -, hoptimal⟩ :=
    optimal_iff_survives (p := halved) rfl (by decide) hd hending hc hsolved
  refine ⟨d, t, c, result, last, s, hd, hending, hc, hsolved, hlast, hs, hoptimal ?_⟩
  rw [← List.forall_mem_map (f := Application.cut)]
  exact map_cut_applications c.moves ▸ of_decide_eq_true hdown

/-- A constraint whose only row has an entry below minus one once `x1` is basic in it. -/
def overcut : Program := ⟨.maximize, [2, -3], [], [], [⟨[2, -3], .le, 1⟩]⟩

/-- The result of a solved run need not be the best integer point: a cut can remove the integer optimum. -/
theorem exists_solved_not_optimal : overcut.Accepted ∧ overcut.IsIntegral ∧
    ∃ d t c result last s, Simplex.solve .steepest 2 overcut = some (.ok d) ∧ d.ending = .solved t ∧
      solve overcut.decisions 3 t = some c ∧ c.ending = .solved result ∧ c.last? = some last ∧
      Solution.ofTableau last overcut.decisions = .ok s ∧
      ∃ x, overcut.IntegerFeasible x ∧ overcut.sense.Better (overcut.objectiveAt x) s.objectiveValue := by
  have hrun : (integerRun? .steepest 2 3 overcut).any (fun r =>
      ((lastTableau r.1).map fun last => (Solution.ofTableau last overcut.decisions).toOption) =
        some (some ⟨0, [("x1", 0), ("x2", 0)]⟩)) = true := by decide +kernel
  obtain ⟨⟨moves, result⟩, hsome, hsolution⟩ := (Option.any_eq_true _ _).mp hrun
  obtain ⟨d, t, c, hd, hending, hc, rfl, hsolved⟩ := exists_of_integerRun? hsome
  obtain ⟨last, hlast, hs⟩ := Option.map_eq_some_iff.mp (of_decide_eq_true hsolution)
  have hof : Solution.ofTableau last overcut.decisions = .ok ⟨0, [("x1", 0), ("x2", 0)]⟩ := by
    cases hof : Solution.ofTableau last overcut.decisions with
    | error fault =>
      rw [hof] at hs
      cases hs
    | ok s =>
      rw [hof] at hs
      exact congrArg Except.ok (Option.some.inj hs)
  let x : Assignment := fun j => if j = 1 then 2 else 1
  have hfeasible : overcut.Feasible x := by
    refine ⟨fun j _ _ => ?_, fun c hc => ?_⟩
    · dsimp only [x]
      split <;> norm_num
    · rw [List.mem_singleton.mp hc]
      norm_num [Constraint.Holds, Relation.Holds, Constraint.left, weigh, x]
  have hwhole : ∀ j, 0 < j → j ≤ overcut.decisions → IsWhole (x j) := by
    intro j _ _
    dsimp only [x]
    split <;> rfl
  refine ⟨rfl, by decide, d, t, c, result, last, _, hd, hending, hc, hsolved, hlast, hof, x,
    ⟨hfeasible, hwhole⟩, ?_⟩
  norm_num [overcut, Sense.Better, Program.objectiveAt, weigh, x]

end ExactSimplex.Cutting
