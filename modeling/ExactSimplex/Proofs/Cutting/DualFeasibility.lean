import ExactSimplex.Proofs.Cutting.Shown
import ExactSimplex.Proofs.Cutting.IntegerOptimum

/-!
# Optimal tableaus through a run

A cut leaves the objective of the basic solution, and a dual pivot does not make it better. All tableaus that
a run shows are optimal for the program with the cuts made so far, so that the last one of a solved run gives
the best solution of the relaxation with all cuts.
-/

namespace ExactSimplex.Cutting

variable {p : Program} {cuts : List Cut} {decisions limit : Nat} {a b e t after : Tableau} {s s' : State}
  {moves : List Move} {r : Row} {i v : Nat} {pivot : Pivot} {sense : Sense}

/-- The objective of the basic solution has not become better from the first tableau to the second. -/
def NotBetter (sense : Sense) (a b : Tableau) : Prop :=
  ¬ sense.Better b.objectiveValue.finite a.objectiveValue.finite

namespace NotBetter

theorem iff_le : NotBetter sense a b ↔
    sense.sign * b.objectiveValue.finite ≤ sense.sign * a.objectiveValue.finite := by
  rw [NotBetter, Sense.better_iff, not_lt]

theorem of_eq (h : b.objectiveValue = a.objectiveValue) : NotBetter sense a b := by
  rw [iff_le, h]

theorem trans (hab : NotBetter sense a b) (hbe : NotBetter sense b e) : NotBetter sense a e :=
  iff_le.mpr ((iff_le.mp hbe).trans (iff_le.mp hab))

end NotBetter

/-! One turn. -/

/-- A turn does not make the objective better, and neither does what it shows on the way. -/
theorem notBetter_of_turn (hs : Relaxes p cuts s.tableau) (hturn : turn decisions s = .next moves s') :
    NotBetter p.sense s.tableau s'.tableau ∧
      (∀ e ∈ shown cuts moves, NotBetter p.sense s.tableau e.2 ∧ NotBetter p.sense e.2 s'.tableau) ∧
      ((shown cuts moves).map (·.2)).Pairwise (NotBetter p.sense) := by
  rcases turn_eq_next hturn with ⟨source, r, after, -, -, hr, ha, rfl, rfl⟩ |
    ⟨i, r, pivot, before, after, -, hleaving, hrestore, rfl, rfl⟩ | ⟨rfl, rfl⟩
  · have hsame : after.objectiveValue = s.tableau.objectiveValue :=
      Tableau.reducedCost_appendRow_of_lt hs.wellFormed.rectangular ha hs.wellFormed.nonempty
    exact ⟨.of_eq hsame, fun e he => (by cases he), .nil⟩
  · obtain ⟨ratios, -, hrecord, -⟩ := restore_eq_pivoted_iff.mp hrestore
    have hbefore : before.objectiveValue = s.tableau.objectiveValue := by
      obtain ⟨-, rfl⟩ := Tableau.record_eq_ok_iff.mp hrecord
      rfl
    have hle := objectiveValue_restore_le hs.wellFormed.rectangular hs.optimal hleaving hrestore
    rw [hs.sense] at hle
    have hafter : NotBetter p.sense s.tableau after := NotBetter.iff_le.mpr hle
    have hpivot : NotBetter p.sense before after := (NotBetter.of_eq hbefore.symm).trans hafter
    refine ⟨hafter, fun e he => ?_, ?_⟩
    · rcases List.mem_cons.mp he with rfl | he
      · exact ⟨.of_eq hbefore, hpivot⟩
      · rw [List.mem_singleton.mp he]
        exact ⟨hafter, .of_eq rfl⟩
    · exact List.pairwise_pair.mpr hpivot
  · exact ⟨.of_eq rfl, fun e he => (by cases he), .nil⟩

/-! A whole run. -/

/-- From the first tableau to the present one, over all that were shown in between, the objective has never
become better. -/
structure Declines (sense : Sense) (t : Tableau) (moves : List Move) (s : State) : Prop where
  shown : (t :: (shown [] moves).map (·.2)).Pairwise (NotBetter sense)
  present : ∀ e ∈ t :: (Cutting.shown [] moves).map (·.2), NotBetter sense e s.tableau

/-- A turn keeps the objective from becoming better. -/
theorem Declines.turn (h : Declines p.sense t moves s) (hs : Relaxes p (cutsOf moves) s.tableau)
    {made : List Move} (hturn : Cutting.turn decisions s = .next made s') :
    Declines p.sense t (moves ++ made) s' := by
  obtain ⟨hstate, hmade, hpairwise⟩ := notBetter_of_turn hs hturn
  have hlist : t :: (Cutting.shown [] (moves ++ made)).map (·.2) =
      (t :: (Cutting.shown [] moves).map (·.2)) ++ (Cutting.shown (cutsOf moves) made).map (·.2) := by
    rw [shown_append, List.map_append, List.nil_append, List.cons_append]
  have hnew : ∀ b ∈ (Cutting.shown (cutsOf moves) made).map (·.2),
      NotBetter p.sense s.tableau b ∧ NotBetter p.sense b s'.tableau := List.forall_mem_map.mpr hmade
  refine ⟨?_, ?_⟩ <;> rw [hlist]
  · exact List.pairwise_append.mpr
      ⟨h.shown, hpairwise, fun a ha b hb => (h.present a ha).trans (hnew b hb).1⟩
  · exact List.forall_mem_append.mpr ⟨fun a ha => (h.present a ha).trans hstate, fun b hb => (hnew b hb).2⟩

/-- Up to every state that is reached, the objective has never become better. -/
theorem declines_of_reaches (ht : Relaxes p [] t) (h : Reaches (turn decisions) ⟨t, 0⟩ moves s) :
    Declines p.sense t moves s := by
  induction h with
  | start =>
    refine ⟨List.pairwise_singleton _ t, fun e he => ?_⟩
    rw [List.mem_singleton.mp he]
    exact .of_eq rfl
  | snoc hreach hturn ih => exact ih.turn ((kept_relaxes p).reaches ht hreach).1 hturn

/-- Of all tableaus that a run shows, none has a better objective than one shown before. -/
theorem pairwise_notBetter_of_solve (ht : Relaxes p [] t) {d : Derivation}
    (h : solve decisions limit t = some d) :
    (t :: (shown [] d.moves).map (·.2)).Pairwise (NotBetter p.sense) := by
  obtain ⟨⟨moves, ending⟩, hrun, rfl⟩ := Option.map_eq_some_iff.mp h
  obtain ⟨front, last, s, hreach, hdone, rfl⟩ := exists_reaches_of_run hrun
  have hdeclines := declines_of_reaches ht hreach
  rcases turn_eq_done hdone with rfl | ⟨ratios, before, hrecord, rfl⟩
  · rw [List.append_nil]
    exact hdeclines.shown
  · have hsame : before.objectiveValue = s.tableau.objectiveValue := by
      obtain ⟨-, rfl⟩ := Tableau.record_eq_ok_iff.mp hrecord
      rfl
    rw [shown_append, List.map_append, ← List.cons_append]
    refine List.pairwise_append.mpr ⟨hdeclines.shown, List.pairwise_singleton _ _, fun a ha b hb => ?_⟩
    rw [List.mem_singleton.mp hb]
    exact (hdeclines.present a ha).trans (.of_eq hsame)

/-! The relaxation. -/

/-- A nonnegative assignment to the first `count` variables that satisfies the constraints of a program, read
as equations, and the equations of some cuts. -/
structure SolvesRelaxation (q : Program) (cuts : List Cut) (count : Nat) (x : Assignment) : Prop where
  nonneg : Nonnegative count x
  tight : q.Tight x
  cuts : ∀ c ∈ cuts, c.Holds x

/-- The basic solution of a feasible tableau solves the relaxation. -/
theorem Relaxes.solvesRelaxation_variableValue (h : Relaxes p cuts t) (hfeasible : t.IsFeasible) :
    SolvesRelaxation p.slacked cuts (t.columns.length - 1) t.variableValue := by
  obtain ⟨htight, hcuts⟩ := (h.holds_iff _).mp h.wellFormed.holds_variableValue
  exact ⟨fun j _ _ => h.wellFormed.variableValue_nonneg hfeasible j, htight, hcuts⟩

/-- No solution of the relaxation is better than the basic one. -/
theorem SolvesRelaxation.not_better {x : Assignment}
    (hx : SolvesRelaxation p.slacked cuts (t.columns.length - 1) x) (h : Relaxes p cuts t) :
    ¬ p.sense.Better (p.objectiveAt x) t.objectiveValue.finite := by
  have hle := h.objectiveAt_le (fun j hpos hj => hx.nonneg j hpos (by omega)) hx.tight hx.cuts
  rw [Sense.better_iff]
  exact not_lt.mpr hle

/-- Every tableau that the record of a run shows is optimal, and from the optimal tableau of the program on none
has a better objective than one before it. The basic solution at the end of a solved run is a best one of the
relaxation with all cuts. -/
theorem isOptimal_of_solve {rule : Pricing} {limit' : Nat} {d : Simplex.Derivation} {c : Derivation}
    (hp : p.Accepted) (hsimplex : Simplex.solve rule limit p = some (.ok d)) (hd : d.ending = .solved t)
    (hcutting : solve p.decisions limit' t = some c) :
    (∀ e ∈ c.tableaus, e.IsOptimal ∧ e.objectiveValue.IsFinite) ∧
    (t :: c.tableaus).Pairwise (NotBetter p.sense) ∧
    ∀ result, c.ending = .solved result → ∃ s, c.last? = some result ∧
      Solution.ofTableau result p.decisions = .ok s ∧
      (∀ j, 0 < j → j ≤ p.decisions → s.assignment j = result.variableValue j) ∧
      p.objectiveAt result.variableValue = s.objectiveValue ∧
      SolvesRelaxation d.form.slacked (c.applications.map (·.cut)) (result.columns.length - 1)
        result.variableValue ∧
      ∀ x, SolvesRelaxation d.form.slacked (c.applications.map (·.cut)) (result.columns.length - 1) x →
        ¬ p.sense.Better (p.objectiveAt x) s.objectiveValue := by
  have ht := relaxes_of_solved hp hsimplex hd
  have hshown := (kept_relaxes p).solve ht hcutting
  have hsublist := c.tableaus_sublist
  rw [Simplex.form_of_solve hp hsimplex]
  refine ⟨fun e he => ?_, ?_, fun result hresult => ?_⟩
  · obtain ⟨⟨cuts, e⟩, hmem, rfl⟩ := List.mem_map.mp (hsublist.subset he)
    have h := hshown _ hmem
    exact ⟨h.optimal, h.isFinite_objectiveValue⟩
  · exact (pairwise_notBetter_of_solve ht hcutting).sublist (hsublist.cons_cons t)
  · obtain ⟨_, -, -, h, hfeasible, hsource, hlast⟩ := exists_reaches_of_solve ht hcutting hresult
    have hcuts : c.applications.map (·.cut) = cutsOf c.moves := map_cut_applications c.moves
    obtain ⟨s, hs, -, -, hvalue, -⟩ := exists_solution hp h hfeasible hsource
    rw [hcuts]
    refine ⟨s, hlast, hs, fun j hpos hj => Solution.assignment_ofTableau hs hpos hj, ?_, ?_, fun x hx => ?_⟩
    · rw [hvalue]
      exact h.objectiveAt_variableValue
    · exact h.solvesRelaxation_variableValue hfeasible
    · rw [hvalue]
      exact hx.not_better h

/-- Buying at least one and a half units in whole units. -/
def wholeUnits : Program := ⟨.minimize, [1, 2], [], [], [⟨[2, 2], .ge, 3⟩]⟩

theorem isOptimal_wholeUnits : ∃ c result s, derivation? .steepest 6 10 wholeUnits = some c ∧
    c.ending = .solved result ∧ c.tableaus.length = 2 ∧ (∀ e ∈ c.tableaus, e.IsOptimal) ∧
    c.tableaus.Pairwise (NotBetter .minimize) ∧ Solution.ofTableau result wholeUnits.decisions = .ok s ∧
    ∀ x, SolvesRelaxation wholeUnits.slacked (c.applications.map (·.cut)) (result.columns.length - 1) x →
      ¬ wholeUnits.sense.Better (wholeUnits.objectiveAt x) s.objectiveValue := by
  have hrun : (derivation? .steepest 6 10 wholeUnits).any (fun c => decide (c.tableaus.length = 2 ∧
      ∃ result ∈ c.tableaus, c.ending = .solved result)) = true := by decide +kernel
  obtain ⟨c, hc, hdecide⟩ := (Option.any_eq_true _ _).mp hrun
  obtain ⟨hlength, result, -, hresult⟩ := of_decide_eq_true hdecide
  obtain ⟨d, t, hd, hending, hcutting⟩ := derivation?_eq_some_iff.mp hc
  obtain ⟨hoptimal, hpairwise, hsolved⟩ := isOptimal_of_solve (p := wholeUnits) rfl hd hending hcutting
  obtain ⟨s, -, hs, -, -, -, hbest⟩ := hsolved result hresult
  rw [Simplex.form_of_solve (p := wholeUnits) rfl hd] at hbest
  exact ⟨c, result, s, hc, hresult, hlength, fun e he => (hoptimal e he).1, (List.pairwise_cons.mp hpairwise).2,
    hs, hbest⟩

end ExactSimplex.Cutting
