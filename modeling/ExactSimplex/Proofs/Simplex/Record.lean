import ExactSimplex.Proofs.Simplex.Totality

/-!
# What the record shows

A move shows the tableaus before and after it, also when the run ends in a failure later. All of them
represent the augmented program. In particular a row that was removed as redundant followed from the others,
as far as the artificial variables are zero.
-/

namespace ExactSimplex.Simplex

variable {rule : Pricing} {limit i : Nat} {q p : Program} {t t' before after : Tableau}
  {moves : List Move} {ending : Ending Tableau} {d : Derivation} {x : Assignment}

/-- The tableaus that a move shows. -/
def Move.tableaus : Move → List Tableau
  | .enter _ before after => [before, after]
  | .expel _ before after => [before, after]
  | .drop _ before after => [before, after]
  | .stuck tableau => [tableau]

/-- All tableaus that the moves show represent the program. -/
def AllRepresent (q : Program) (moves : List Move) : Prop :=
  ∀ move ∈ moves, ∀ t ∈ move.tableaus, Represents q t

namespace AllRepresent

theorem nil : AllRepresent q [] := fun _ hmove => by cases hmove

theorem cons {move : Move} (hmove : ∀ t ∈ move.tableaus, Represents q t) (h : AllRepresent q moves) :
    AllRepresent q (move :: moves) :=
  List.forall_mem_cons.mpr ⟨hmove, h⟩

theorem append {made : List Move} (h : AllRepresent q moves) (hmade : AllRepresent q made) :
    AllRepresent q (moves ++ made) :=
  List.forall_mem_append.mpr ⟨h, hmade⟩

end AllRepresent

/-- A sweep shows tableaus that represent the program. -/
theorem Represents.allRepresent_sweeps (h : Represents q t) (hart : ¬ StillArtificial t)
    (hs : Sweeps (firstArtificial q) t moves t') : AllRepresent q moves := by
  induction hs with
  | nil => exact .nil
  | expel hrow hartificial _ hpivot _ ih =>
    have hzero := not_stillArtificial_iff.mp hart _ _ hrow hartificial
    have hexpel := h.expel hrow hzero hpivot
    have hstill := not_stillArtificial_expel hrow hzero hart h.wellFormed.rectangular hpivot
    exact (ih hexpel hstill).cons (by simp [Move.tableaus, h, hexpel])
  | drop hrow hartificial hnone hremove _ ih =>
    have hzero := not_stillArtificial_iff.mp hart _ _ hrow hartificial
    have hdrop := h.drop hrow hzero hnone hremove
    exact (ih hdrop (not_stillArtificial_drop hart hremove)).cons (by simp [Move.tableaus, h, hdrop])

/-- A turn after which the run goes on shows tableaus that represent the program. -/
theorem Represents.allRepresent_next (h : Represents q t)
    (hturn : Simplex.turn rule (firstArtificial q) t = .next moves t') : AllRepresent q moves := by
  rcases turn_eq_next hturn with ⟨_, _, _, before, -, henter, rfl⟩ | ⟨-, hart, hsweep, -⟩
  · have hbefore := h.record (enter_eq_pivoted_iff.mp henter).1
    exact AllRepresent.nil.cons (by simp [Move.tableaus, hbefore, h.enter henter])
  · exact h.allRepresent_sweeps hart (sweeps_of_sweep hsweep)

/-- So does the last turn. -/
theorem Represents.allRepresent_done (h : Represents q t)
    (hturn : Simplex.turn rule (firstArtificial q) t = .done moves ending) : AllRepresent q moves := by
  rcases h.ending_of_turn hturn with rfl | rfl | ⟨j, rfl⟩
  · obtain ⟨rfl, -⟩ := turn_eq_solved hturn
    exact .nil
  · obtain ⟨rfl, -⟩ := turn_eq_infeasible hturn
    exact AllRepresent.nil.cons (by simp [Move.tableaus, h])
  · obtain ⟨_, before, rfl, -, henter⟩ := turn_eq_unbounded hturn
    have hbefore := h.record (enter_eq_unlimited_iff.mp henter).1
    exact AllRepresent.nil.cons (by simp [Move.tableaus, hbefore])

/-- The tableaus that were shown until a state is reached represent the program, and so does that state. -/
theorem Represents.allRepresent_of_reaches (h : Represents q t)
    (hreach : Reaches (Simplex.turn rule (firstArtificial q)) t moves t') :
    Represents q t' ∧ AllRepresent q moves := by
  let P : List Move → Tableau → Prop := fun moves t => Represents q t ∧ AllRepresent q moves
  have hstep : ∀ moves t made t', P moves t →
      Simplex.turn rule (firstArtificial q) t = .next made t' → P (moves ++ made) t' :=
    fun _ _ _ _ ht hturn => ⟨ht.1.turn hturn, ht.2.append (ht.1.allRepresent_next hturn)⟩
  exact hreach.invariant hstep ⟨h, .nil⟩

/-- All tableaus of the record of a run represent the augmented program, however the run ended. -/
theorem allRepresent_of_solve (hp : p.Accepted) (h : solve rule limit p = some (.ok d)) :
    AllRepresent p.augmented d.moves := by
  obtain ⟨t₀, moves, ending, hstart, hrun, rfl, -⟩ := exists_run_of_solve hp h
  obtain ⟨front, last, t, hreach, hdone, heq⟩ := exists_reaches_of_run hrun
  obtain ⟨ht, hfront⟩ := hstart.allRepresent_of_reaches hreach
  rw [heq]
  exact hfront.append (ht.allRepresent_done hdone)

/-- The tableau of a step is one that its move shows. -/
theorem AllRepresent.of_mem_steps {s : Step} (h : AllRepresent q moves) (hs : s ∈ moves.filterMap Move.step?) :
    Represents q s.tableau := by
  obtain ⟨move, hmove, hstep⟩ := List.mem_filterMap.mp hs
  refine h move hmove s.tableau ?_
  cases move <;> cases hstep <;> exact List.mem_cons_self

/-- So do the tableaus of all steps. -/
theorem represents_of_mem_steps {s : Step} (hp : p.Accepted) (h : solve rule limit p = some (.ok d))
    (hs : s ∈ d.steps) : Represents p.augmented s.tableau :=
  (allRepresent_of_solve hp h).of_mem_steps hs

/-- Removing a redundant row loses no constraint: with the artificial variables at zero, the other rows have
the same solutions. -/
theorem holds_drop_iff (h : AllRepresent q moves) (hdrop : .drop i before after ∈ moves)
    (hx : ZeroArtificials q x) : after.Holds x ↔ before.Holds x := by
  have hbefore := h _ hdrop before (by simp [Move.tableaus])
  have hafter := h _ hdrop after (by simp [Move.tableaus])
  exact (hafter.holds_iff x hx).trans (hbefore.holds_iff x hx).symm

end ExactSimplex.Simplex
