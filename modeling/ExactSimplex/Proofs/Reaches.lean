import ExactSimplex.Run

/-!
# States that a method reaches

A method that has taken some turns has made moves and reached a state. What holds of its first state and
is kept by every turn holds of all states it reaches, and a run that ends does so from one of them.
-/

namespace ExactSimplex

variable {μ σ ε : Type}

/-- From the first state, turns that made these moves lead to the second one. -/
inductive Reaches (turn : σ → Turn μ σ ε) (s : σ) : List μ → σ → Prop
  | start : Reaches turn s [] s
  | snoc {moves made : List μ} {s' s'' : σ} (h : Reaches turn s moves s')
      (hturn : turn s' = .next made s'') : Reaches turn s (moves ++ made) s''

/-- A turn may be taken before the others. -/
theorem Reaches.cons {turn : σ → Turn μ σ ε} {s s' s'' : σ} {made moves : List μ}
    (hturn : turn s = .next made s') (h : Reaches turn s' moves s'') :
    Reaches turn s (made ++ moves) s'' := by
  induction h with
  | start => simpa using Reaches.snoc .start hturn
  | snoc _ hlast ih =>
    rw [← List.append_assoc]
    exact ih.snoc hlast

/-- A run ends with the last turn from a state that is reached. -/
theorem exists_reaches_of_run {turn : σ → Turn μ σ ε} {limit : Nat} {s : σ} {moves : List μ} {ending : ε}
    (h : run turn limit s = some (moves, ending)) :
    ∃ front last s', Reaches turn s front s' ∧ turn s' = .done last ending ∧ moves = front ++ last := by
  induction limit generalizing s moves with
  | zero => simp [run] at h
  | succ limit ih =>
    rw [run] at h
    split at h
    · rename_i made ending' hturn
      simp only [Option.some.injEq, Prod.mk.injEq] at h
      obtain ⟨rfl, rfl⟩ := h
      exact ⟨[], made, s, .start, hturn, rfl⟩
    · rename_i made s' hturn
      obtain ⟨⟨moves', ending'⟩, hrest, heq⟩ := Option.map_eq_some_iff.mp h
      simp only [Prod.mk.injEq] at heq
      obtain ⟨rfl, rfl⟩ := heq
      obtain ⟨front, last, s'', hreach, hdone, rfl⟩ := ih hrest
      exact ⟨made ++ front, last, s'', hreach.cons hturn, hdone, (List.append_assoc ..).symm⟩

/-- What every turn keeps, of the moves so far and the state they led to, holds of all states that are
reached. -/
theorem Reaches.invariant {turn : σ → Turn μ σ ε} {s s' : σ} {moves : List μ} {P : List μ → σ → Prop}
    (hstep : ∀ moves s made s', P moves s → turn s = .next made s' → P (moves ++ made) s') (hs : P [] s)
    (h : Reaches turn s moves s') : P moves s' := by
  induction h with
  | start => exact hs
  | snoc _ hturn ih => exact hstep _ _ _ _ ih hturn

/-! Runs that may go on. -/

/-- The moves of at most `limit` turns, whether the run ends within them or not. -/
def movesWithin (turn : σ → Turn μ σ ε) : (limit : Nat) → σ → List μ
  | 0, _ => []
  | limit + 1, s =>
    match turn s with
    | .done moves _ => moves
    | .next moves s' => moves ++ movesWithin turn limit s'

/-- A run that has ended has made all moves there are. -/
theorem movesWithin_of_run {turn : σ → Turn μ σ ε} {limit : Nat} {s : σ} {moves : List μ} {ending : ε}
    (h : run turn limit s = some (moves, ending)) : movesWithin turn limit s = moves := by
  induction limit generalizing s moves with
  | zero => cases h
  | succ limit ih =>
    rw [run] at h
    rw [movesWithin]
    cases hturn : turn s with
    | done made ending' =>
      rw [hturn] at h
      cases h
      rfl
    | next made s' =>
      rw [hturn] at h
      obtain ⟨⟨moves', ending'⟩, hrest, heq⟩ := Option.map_eq_some_iff.mp h
      cases heq
      exact congrArg (made ++ ·) (ih hrest)

/-- The moves of at most `limit` turns lead to a state, or the run ends with the last of them. -/
theorem exists_reaches_of_movesWithin (turn : σ → Turn μ σ ε) (limit : Nat) (s : σ) :
    ∃ front s', Reaches turn s front s' ∧ (movesWithin turn limit s = front ∨
      ∃ last ending, turn s' = .done last ending ∧ movesWithin turn limit s = front ++ last) := by
  induction limit generalizing s with
  | zero => exact ⟨[], s, .start, .inl rfl⟩
  | succ limit ih =>
    rw [movesWithin]
    cases hturn : turn s with
    | done made ending => exact ⟨[], s, .start, .inr ⟨made, ending, hturn, rfl⟩⟩
    | next made s' =>
      obtain ⟨front, s'', hreach, hmoves⟩ := ih s'
      refine ⟨made ++ front, s'', hreach.cons hturn, ?_⟩
      dsimp only
      rcases hmoves with hmoves | ⟨last, ending, hdone, hmoves⟩
      · exact .inl (by rw [hmoves])
      · exact .inr ⟨last, ending, hdone, by rw [hmoves, List.append_assoc]⟩

/-- More turns only add moves. -/
theorem movesWithin_prefix_succ (turn : σ → Turn μ σ ε) (limit : Nat) (s : σ) :
    movesWithin turn limit s <+: movesWithin turn (limit + 1) s := by
  induction limit generalizing s with
  | zero => exact List.nil_prefix
  | succ limit ih =>
    rw [movesWithin, movesWithin]
    cases turn s with
    | done made ending => exact List.prefix_rfl
    | next made s' => exact (List.prefix_append_right_inj made).mpr (ih s')

/-- The moves of a run that has ended begin with the moves of any number of turns. -/
theorem movesWithin_prefix_of_run {turn : σ → Turn μ σ ε} {limit : Nat} {s : σ} {moves : List μ} {ending : ε}
    (h : run turn limit s = some (moves, ending)) (limit' : Nat) : movesWithin turn limit' s <+: moves := by
  have hle : ∀ n, movesWithin turn limit' s <+: movesWithin turn (limit' + n) s := by
    intro n
    induction n with
    | zero => exact List.prefix_rfl
    | succ n ih => exact ih.trans (movesWithin_prefix_succ turn (limit' + n) s)
  rw [← movesWithin_of_run (run_of_le (Nat.le_add_left limit limit') h)]
  exact hle limit

end ExactSimplex
