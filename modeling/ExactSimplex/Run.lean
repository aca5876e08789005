import ExactSimplex.Failure
import ExactSimplex.Fault

/-!
# Runs of a method

A method works in turns. A turn either leads to the next state or ends the run, and in both cases tells
what was done in it. Nothing bounds the number of turns of every method in advance, so a run is given a
number of turns that it may take. A run that ends within some number of turns ends in the same way within
any larger one.
-/

namespace ExactSimplex

variable {μ σ ε : Type}

/-- What one turn did, and whether the run goes on. -/
inductive Turn (μ σ ε : Type)
  | next (moves : List μ) (state : σ)
  | done (moves : List μ) (ending : ε)

/-- Takes at most `limit` turns: all moves in order and how the run ended, if it did. -/
def run (turn : σ → Turn μ σ ε) : (limit : Nat) → σ → Option (List μ × ε)
  | 0, _ => none
  | limit + 1, s =>
    match turn s with
    | .done moves ending => some (moves, ending)
    | .next moves s' => (run turn limit s').map fun rest => (moves ++ rest.1, rest.2)

/-- A run that has ended is not changed by allowing it another turn. -/
theorem run_succ_of_eq_some {turn : σ → Turn μ σ ε} {limit : Nat} {s : σ} {r : List μ × ε}
    (h : run turn limit s = some r) : run turn (limit + 1) s = some r := by
  induction limit generalizing s r with
  | zero => simp [run] at h
  | succ limit ih =>
    rw [run] at h ⊢
    split at h
    · exact h
    · obtain ⟨rest, hrest, rfl⟩ := Option.map_eq_some_iff.mp h
      rw [ih hrest, Option.map_some]

/-- A run that has ended is the same under every larger limit. -/
theorem run_of_le {turn : σ → Turn μ σ ε} {limit limit' : Nat} {s : σ} {r : List μ × ε}
    (hle : limit ≤ limit') (h : run turn limit s = some r) : run turn limit' s = some r := by
  induction hle with
  | refl => exact h
  | step _ ih => exact run_succ_of_eq_some ih

/-- A run has at most one end, whatever the limits it was found with. -/
theorem run_unique {turn : σ → Turn μ σ ε} {limit limit' : Nat} {s : σ} {r r' : List μ × ε}
    (h : run turn limit s = some r) (h' : run turn limit' s = some r') : r = r' := by
  have hmax := run_of_le (Nat.le_max_left limit limit') h
  rw [run_of_le (Nat.le_max_right limit limit') h'] at hmax
  exact (Option.some.inj hmax).symm

/-- How a method ends: with a result, with a reason why there is none, or on a broken precondition. -/
inductive Ending (ρ : Type)
  | solved (result : ρ)
  | failed (failure : Failure)
  | fault (fault : Fault)
  deriving DecidableEq, Repr

end ExactSimplex
