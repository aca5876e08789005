import ExactSimplex.Proofs.Cutting.Completion
import ExactSimplex.Proofs.Cutting.IntegerOptimum

/-!
# Dead ends

A row with a negative right-hand side and no negative entry shows that no assignment survives the cuts made so
far. That there is no integer point does not follow: integer points that were there survive as long as the cuts
round down, and can be lost at the first cut that does not.
-/

namespace ExactSimplex.Cutting

variable {p : Program} {cuts : List Cut} {decisions limit i v : Nat} {t after before : Tableau} {r : Row}
  {s : State} {moves : List Move} {x z : Assignment}

/-! Integer points that survive. -/

/-- Without cuts every feasible assignment survives. -/
theorem survives_nil (hp : p.Accepted) (hx : p.Feasible x) : Survives p [] x :=
  ⟨p.withSlacks x, fun _ hpos => hp.withSlacks_nonneg hx hpos, fun _ _ hj => Program.withSlacks_of_le hj,
    hp.tight_withSlacks hx, fun _ hc => by cases hc⟩

/-- An assignment that extends to a tableau of the relaxation survives its cuts. -/
theorem Extends.survives (hz : Extends p.decisions t x z) (h : Relaxes p cuts t) : Survives p cuts x := by
  obtain ⟨htight, hcuts⟩ := (h.holds_iff z).mp hz.holds
  exact ⟨z, hz.nonneg, hz.agrees, htight, hcuts⟩

namespace Extensible

variable (h : Extensible p cuts t)

include h

/-- An integer point that survives has its completion without negative values. -/
theorem exists_extends (hx : p.IntegerFeasible x) (hsurvives : Survives p cuts x) :
    ∃ z, Extends p.decisions t x z := by
  obtain ⟨z, hnonneg, hagrees, htight, hcuts⟩ := hsurvives
  obtain ⟨y, hy⟩ := h.completes x hx
  have hz : t.Holds z := (h.relaxes.holds_iff z).mpr ⟨htight, hcuts⟩
  have heq : ∀ j, 0 < j → j < t.columns.length → z j = y j :=
    h.determined z y hz hy.holds fun j hpos hj => (hagrees j hpos hj).trans (hy.agrees j hpos hj).symm
  -- Behind the columns the values of `z` need not be whole.
  set z' : Assignment := fun j => if j < t.columns.length then z j else 0 with hz'
  have hinside : ∀ j, j < t.columns.length → z' j = z j := fun j hj => if_pos hj
  have houtside : ∀ j, ¬ j < t.columns.length → z' j = 0 := fun j hj => if_neg hj
  refine ⟨z', fun j hpos => ?_, fun j hpos => ?_, fun j hpos hj => ?_, ?_⟩
  · by_cases hj : j < t.columns.length
    · rw [hinside j hj, heq j hpos hj]
      exact hy.whole j hpos hj
    · rw [houtside j hj]
      exact isWhole_zero
  · by_cases hj : j < t.columns.length
    · rw [hinside j hj]
      exact hnonneg j hpos
    · rw [houtside j hj]
  · rw [hinside j (hj.trans_lt h.relaxes.decisions)]
    exact hagrees j hpos hj
  · exact (Tableau.holds_congr h.relaxes.wellFormed.rectangular fun j _ hj => hinside j hj).mpr hz

/-- An integer point that has survived so far survives another cut if that rounds down. -/
theorem survives_appendCut (hx : p.IntegerFeasible x) (hsurvives : Survives p cuts x)
    (hr : t.rows[i]? = some r) (ha : t.appendRow (Cut.ofRow v r.values).row = .ok after)
    (hdown : (Cut.ofRow v r.values).RoundsDown) : Survives p (cuts ++ [Cut.ofRow v r.values]) x := by
  obtain ⟨z, hz⟩ := h.exists_extends hx hsurvives
  exact (hz.appendCut h.relaxes hr ha hdown).survives (h.relaxes.appendCut hr ha)

end Extensible

/-! Integer points that are lost. -/

/-- The assignment survives some of the cuts, but not the next one, which does not round down. -/
def LostBy (p : Program) (x : Assignment) (cuts : List Cut) : Prop :=
  ∃ front cut back, cuts = front ++ cut :: back ∧ Survives p front x ∧ ¬ Survives p (front ++ [cut]) x ∧
    ¬ cut.RoundsDown

theorem LostBy.append (h : LostBy p x cuts) (cuts' : List Cut) : LostBy p x (cuts ++ cuts') := by
  obtain ⟨front, cut, back, rfl, hlost⟩ := h
  exact ⟨front, cut, back ++ cuts', by simp, hlost⟩

/-- The operations of the method keep an integer point, or lose it by a cut that does not round down. -/
theorem kept_survives_or_lostBy (hx : p.IntegerFeasible x) :
    Kept fun cuts t => Extensible p cuts t ∧ (Survives p cuts x ∨ LostBy p x cuts) where
  appendCut h hr ha := by
    refine ⟨(kept_extensible p).appendCut h.1 hr ha, ?_⟩
    rcases h.2 with hsurvives | hlost
    · refine or_iff_not_imp_left.mpr fun hnot => ⟨_, _, [], rfl, hsurvives, hnot, fun hdown => ?_⟩
      exact hnot (h.1.survives_appendCut hx hsurvives hr ha hdown)
    · exact .inr (hlost.append _)
  record h hrecord := ⟨(kept_extensible p).record h.1 hrecord, h.2⟩
  restore h hleaving hrestore := ⟨(kept_extensible p).restore h.1 hleaving hrestore, h.2⟩

/-- In every state that is reached, an integer point survives or was lost by a cut that does not round down. -/
theorem survives_or_lostBy (hp : p.Accepted) (hstart : Extensible p [] t)
    (hreach : Reaches (turn p.decisions) ⟨t, 0⟩ moves s) (hx : p.IntegerFeasible x) :
    Survives p (cutsOf moves) x ∨ LostBy p x (cutsOf moves) :=
  ((kept_survives_or_lostBy hx).reaches ⟨hstart, .inl (survives_nil hp hx.1)⟩ hreach).1.2

/-! The end of a run. -/

/-- A row with a negative right-hand side and no negative entry leaves nothing. -/
theorem Relaxes.not_survives_of_blocked (h : Relaxes p cuts t) (hleaving : leavingRow? t = some (i, r))
    (hrestore : Cutting.restore t i r = .ok (.blocked before)) : ¬ Survives p cuts x := by
  rintro ⟨z, hnonneg, -, htight, hcuts⟩
  obtain ⟨hrow, hneg⟩ := of_leavingRow? hleaving
  have hmem := List.mem_of_getElem? hrow
  have hentry : ∀ j ∈ Finset.Ico 1 r.values.length, 0 ≤ r.entry j * z j := by
    intro j hj
    have hpos := (Finset.mem_Ico.mp hj).1
    have hblocked := entry_nonneg_of_blocked h.wellFormed.rectangular hrow hrestore hpos
    rw [Tableau.entry_of_getElem? hrow] at hblocked
    exact mul_nonneg hblocked (hnonneg j hpos)
  have hequation : weigh z 1 r.values.tail = r.bound := (h.holds_iff z).mpr ⟨htight, hcuts⟩ r hmem
  rw [Row.weigh_tail] at hequation
  exact absurd (hequation ▸ Finset.sum_nonneg hentry) (not_le.mpr hneg)

/-- The run fails for want of a pivot column in the row that was to be restored. -/
theorem turn_eq_noPivotColumn (h : turn decisions s = .done moves (.failed (.noPivotColumn i))) :
    ∃ r before, leavingRow? s.tableau = some (i, r) ∧
      restore s.tableau i r = .ok (.blocked before) ∧ moves = [.stuck before] := by
  cases ends_of_turn h with
  | blocked hleaving hrestore => exact ⟨_, _, hleaving, hrestore, rfl⟩

/-- Where no column may enter in a row, no assignment survives the cuts of the record. Every integer point there is
was lost at a cut of the record that does not round down; if all cuts round down, there is none. -/
theorem lost_of_noPivotColumn {rule : Pricing} {limit' : Nat} {d : Simplex.Derivation} {c : Derivation}
    (hp : p.Accepted) (hintegral : p.IsIntegral) (hsimplex : Simplex.solve rule limit p = some (.ok d))
    (hd : d.ending = .solved t) (hcutting : solve p.decisions limit' t = some c)
    (hc : c.ending = .failed (.noPivotColumn i)) :
    (∀ x, ¬ Survives p (c.applications.map (·.cut)) x) ∧
    (∀ x, p.IntegerFeasible x → ∃ front a back, c.applications = front ++ a :: back ∧
      Survives p (front.map (·.cut)) x ∧ ¬ Survives p (front.map (·.cut) ++ [a.cut]) x ∧
      ¬ a.cut.RoundsDown) ∧
    ((∀ a ∈ c.applications, a.cut.RoundsDown) → ¬ ∃ x, p.IntegerFeasible x) := by
  obtain ⟨-, hcolumns, -⟩ := Simplex.wellFormed_of_solved hp hsimplex hd
  have hstart := extensible_start hp hintegral (relaxes_of_solved hp hsimplex hd) hcolumns
  obtain ⟨⟨moves, ending⟩, hrun, rfl⟩ := Option.map_eq_some_iff.mp hcutting
  obtain rfl : ending = .failed (.noPivotColumn i) := hc
  obtain ⟨front, last, s, hreach, hdone, rfl⟩ := exists_reaches_of_run hrun
  obtain ⟨r, before, hleaving, hrestore, rfl⟩ := turn_eq_noPivotColumn hdone
  have hrelaxes := ((kept_extensible p).reaches hstart hreach).1.relaxes
  have hnothing : ∀ x, ¬ Survives p (cutsOf front) x := fun _ =>
    hrelaxes.not_survives_of_blocked hleaving hrestore
  have hcuts : (applications (front ++ [.stuck before])).map (·.cut) = cutsOf front := by
    rw [map_cut_applications, cutsOf_append]
    exact List.append_nil _
  have hlost : ∀ x, p.IntegerFeasible x → ∃ as a bs, applications (front ++ [.stuck before]) = as ++ a :: bs ∧
      Survives p (as.map (·.cut)) x ∧ ¬ Survives p (as.map (·.cut) ++ [a.cut]) x ∧ ¬ a.cut.RoundsDown := by
    intro x hx
    obtain ⟨fs, cut, bs, hsplit, hlost⟩ :=
      (survives_or_lostBy hp hstart hreach hx).resolve_left (hnothing x)
    rw [← hcuts, List.map_eq_append_iff] at hsplit
    obtain ⟨as, rest, hall, rfl, hrest⟩ := hsplit
    obtain ⟨a, bs', rfl, rfl, -⟩ := List.map_eq_cons_iff.mp hrest
    exact ⟨as, a, bs', hall, hlost⟩
  refine ⟨fun x => ?_, hlost, ?_⟩
  · exact hcuts ▸ hnothing x
  · rintro hdown ⟨x, hx⟩
    obtain ⟨as, a, bs, hall, -, -, hnot⟩ := hlost x hx
    have hmem : a ∈ applications (front ++ [.stuck before]) := by
      rw [hall]
      exact List.mem_append_right _ List.mem_cons_self
    exact hnot (hdown a hmem)

/-- Four times and six times a variable are to make three. -/
def evenSum : Program := ⟨.minimize, [0, 1], [], [], [⟨[4, 6], .eq, 3⟩]⟩

theorem lost_evenSum : ∃ c, derivation? .steepest 4 4 evenSum = some c ∧
    c.ending = .failed (.noPivotColumn 0) ∧ c.applications.length = 1 ∧
    (∀ a ∈ c.applications, a.cut.RoundsDown) ∧ ¬ ∃ x, evenSum.IntegerFeasible x := by
  have hrun : (derivation? .steepest 4 4 evenSum).any (fun c => decide (
      c.ending = .failed (.noPivotColumn 0) ∧ c.applications.length = 1 ∧
        ∀ a ∈ c.applications, a.cut.RoundsDown)) = true := by
    decide +kernel
  obtain ⟨c, hsome, hshape⟩ := (Option.any_eq_true _ _).mp hrun
  obtain ⟨hending, hlength, hdown⟩ := of_decide_eq_true hshape
  obtain ⟨d, t, hd, hsolved, hc⟩ := derivation?_eq_some_iff.mp hsome
  have hlost := lost_of_noPivotColumn (p := evenSum) rfl (by decide) hd hsolved hc hending
  exact ⟨c, hsome, hending, hlength, hdown, hlost.2.2 hdown⟩

/-- Twice a variable is to exceed three times another by one. -/
def oddDifference : Program := ⟨.minimize, [1, 0], [], [], [⟨[2, -3], .eq, 1⟩]⟩

/-- A dead end does not mean that there is no integer point: a cut can remove the last one. -/
theorem exists_noPivotColumn_integerFeasible : oddDifference.Accepted ∧ oddDifference.IsIntegral ∧
    ∃ d t c, Simplex.solve .steepest 4 oddDifference = some (.ok d) ∧ d.ending = .solved t ∧
      solve oddDifference.decisions 4 t = some c ∧ c.ending = .failed (.noPivotColumn 1) ∧
      oddDifference.IntegerFeasible fun j => if j = 1 then 2 else 1 := by
  have hrun : (derivation? .steepest 4 4 oddDifference).any
      (fun c => decide (c.ending = .failed (.noPivotColumn 1))) = true := by decide +kernel
  obtain ⟨c, hsome, hending⟩ := (Option.any_eq_true _ _).mp hrun
  obtain ⟨d, t, hd, hsolved, hc⟩ := derivation?_eq_some_iff.mp hsome
  refine ⟨rfl, by decide, d, t, c, hd, hsolved, hc, of_decide_eq_true hending, ⟨fun j _ _ => ?_, fun c hc => ?_⟩,
    fun j _ _ => ?_⟩
  · dsimp only
    split <;> norm_num
  · rw [List.mem_singleton.mp hc]
    norm_num [Constraint.Holds, Relation.Holds, Constraint.left, weigh]
  · dsimp only
    split <;> rfl

end ExactSimplex.Cutting
