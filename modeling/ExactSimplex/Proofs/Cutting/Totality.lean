import ExactSimplex.Proofs.Cutting.Shown

/-!
# No precondition of the cutting plane method is broken

On the result of the Simplex method no reduced cost contains the large constant, so the dual ratios can be
compared, and a cut has one number for each column and one for its own variable. A run that ends does so
because the decision variables are whole, because a row has whole coefficients only, or because a row cannot
be restored.
-/

namespace ExactSimplex

/-- A traversal succeeds when it does so on each element. -/
theorem exists_mapM_eq_ok {α β : Type} {f : α → Except Fault β} {l : List α} (h : ∀ a ∈ l, ∃ b, f a = .ok b) :
    ∃ bs, l.mapM f = .ok bs := by
  induction l with
  | nil => exact ⟨[], rfl⟩
  | cons a l ih =>
    obtain ⟨⟨b, hb⟩, hrest⟩ := List.forall_mem_cons.mp h
    obtain ⟨bs, hbs⟩ := ih hrest
    refine ⟨b :: bs, ?_⟩
    rw [List.mapM_cons]
    exact bind_eq_ok_iff.mpr ⟨b, hb, bind_eq_ok_iff.mpr ⟨bs, hbs, rfl⟩⟩

namespace Cutting

variable {p : Program} {decisions limit : Nat} {cuts : List Cut} {t : Tableau} {s : State} {r : Row} {i v : Nat}
  {moves : List Move} {ending : Ending Tableau}

namespace Relaxes

variable (h : Relaxes p cuts t)

include h

/-- All columns can be compared. -/
theorem exists_dualRatios (r : Row) : ∃ ratios, dualRatios t r = .ok ratios := by
  apply exists_mapM_eq_ok
  intro j hj
  unfold dualRatio
  split
  · have hfinite : (t.reducedCost j).IsFinite := h.penalty_reducedCost (List.mem_range.mp hj)
    rw [if_pos hfinite]
    exact ⟨_, rfl⟩
  · exact ⟨_, rfl⟩

/-- A row can be restored, or no column may enter in it. -/
theorem exists_restore (hrow : t.rows[i]? = some r) : ∃ e, Cutting.restore t i r = .ok e := by
  obtain ⟨ratios, hratios⟩ := h.exists_dualRatios r
  have hfits : t.Fits (.dual ratios) := by
    rw [Tableau.Fits, ← (forall₂_of_mapM_eq_ok hratios).length_eq, List.length_range]
  have hrecord := Tableau.record_eq_ok_iff.mpr ⟨hfits, rfl⟩
  cases hleast : leastRatio ratios with
  | none => exact ⟨_, restore_eq_blocked_iff.mpr ⟨ratios, hratios, hrecord, hleast⟩⟩
  | some j =>
    obtain ⟨q, hq, -⟩ := leastRatio_le hleast
    obtain ⟨hlt, hratio⟩ := (getElem?_dualRatios hratios).mp hq
    obtain ⟨hpos, hneg, -⟩ := dualRatio_eq_some_iff.mp hratio
    obtain ⟨after, hpivot⟩ : ∃ after, Tableau.pivot { t with ratios := some (.dual ratios) } i j = .ok after :=
      ⟨_, Tableau.pivot_eq_ok_iff.mpr ⟨r, hrow, hpos, hlt, hneg.ne, rfl⟩⟩
    exact ⟨_, restore_eq_pivoted_iff.mpr ⟨ratios, hratios, hrecord, j, hleast, rfl, hpivot⟩⟩

/-- The cut of a row can be appended. -/
theorem exists_appendCut (hrow : t.rows[i]? = some r) (v : Nat) :
    ∃ after, t.appendRow (Cut.ofRow v r.values).row = .ok after := by
  refine ⟨_, Tableau.appendRow_eq_ok_iff.mpr ⟨?_, rfl⟩⟩
  rw [Cut.length_row_ofRow, h.wellFormed.rectangular r (List.mem_of_getElem? hrow)]

end Relaxes

/-- The last turn ends a run in a feasible tableau, or in one with a row that cannot be restored. -/
theorem Relaxes.ending_of_turn (h : Relaxes p cuts s.tableau) (hfirst : s.cuts = 0 → s.tableau.IsFeasible)
    (hturn : turn decisions s = .done moves ending) :
    (moves = [] ∧ s.tableau.IsFeasible ∧ (s.cuts = 0 ∧ ending = .failed .alreadyInteger ∨
        ending = .solved s.tableau ∨ ∃ i, ending = .failed (.noFractionalCoefficient i))) ∨
      ∃ i r before, leavingRow? s.tableau = some (i, r) ∧
        Cutting.restore s.tableau i r = .ok (.blocked before) ∧ moves = [.stuck before] ∧
        ending = .failed (.noPivotColumn i) := by
  cases ends_of_turn hturn with
  | alreadyInteger hfeasible _ hcuts => exact .inl ⟨rfl, hfeasible, .inl ⟨hcuts, rfl⟩⟩
  | solved hfeasible => exact .inl ⟨rfl, hfeasible, .inr (.inl rfl)⟩
  | wholeRow hfeasible => exact .inl ⟨rfl, hfeasible, .inr (.inr ⟨_, rfl⟩)⟩
  | cutFault hr hfault =>
    obtain ⟨after, hafter⟩ := h.exists_appendCut hr _
    cases hfault.symm.trans hafter
  | infeasible hnot hcuts => exact absurd (hfirst hcuts) hnot
  | restoreFault hleaving hfault =>
    obtain ⟨e, hrestore⟩ := h.exists_restore (of_leavingRow? hleaving).1
    cases hfault.symm.trans hrestore
  | blocked hleaving hrestore => exact .inr ⟨_, _, _, hleaving, hrestore, rfl, rfl⟩

/-- Before the first cut the tableau is the one the method was given. -/
theorem tableau_eq_of_reaches (h : Reaches (turn decisions) ⟨t, 0⟩ moves s) (hcuts : s.cuts = 0) :
    s.tableau = t := by
  have hstep : ∀ (front : List Move) s made s', (s.cuts = 0 → s.tableau = t) →
      turn decisions s = .next made s' → s'.cuts = 0 → s'.tableau = t := by
    intro front s made s' hs hturn hzero
    rcases turn_eq_next hturn with ⟨source, r, after, -, -, -, -, -, rfl⟩ |
      ⟨i, r, pivot, before, after, hne, -, -, -, rfl⟩ | ⟨-, rfl⟩
    · exact absurd hzero (Nat.succ_ne_zero _)
    · exact absurd hzero hne
    · exact hs hzero
  exact h.invariant (P := fun _ s => s.cuts = 0 → s.tableau = t) hstep (fun _ => rfl) hcuts

/-- A run on a feasible tableau of the relaxation ends without a broken precondition. -/
theorem Relaxes.ending_ne_fault {c : Derivation} (ht : Relaxes p [] t) (hfeasible : t.IsFeasible)
    (h : solve decisions limit t = some c) (fault : Fault) : c.ending ≠ .fault fault := by
  obtain ⟨⟨moves, ending⟩, hrun, rfl⟩ := Option.map_eq_some_iff.mp h
  obtain ⟨front, last, s, hreach, hdone, rfl⟩ := exists_reaches_of_run hrun
  have hcurrent := ((kept_relaxes p).reaches ht hreach).1
  have hfirst : s.cuts = 0 → s.tableau.IsFeasible := fun hcuts => tableau_eq_of_reaches hreach hcuts ▸ hfeasible
  rcases hcurrent.ending_of_turn hfirst hdone with
    ⟨-, -, ⟨-, rfl⟩ | rfl | ⟨i, rfl⟩⟩ | ⟨i, r, before, -, -, -, rfl⟩ <;> exact nofun

end Cutting

end ExactSimplex
