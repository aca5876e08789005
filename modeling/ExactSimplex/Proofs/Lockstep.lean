import ExactSimplex.Choice
import ExactSimplex.Proofs.Reaches

/-!
# Runs in lockstep

Where a map of states commutes with every turn, it commutes with whole runs: they make corresponding moves, and
end in corresponding ways or both go on.
-/

namespace ExactSimplex

variable {μ σ ε μ' σ' ε' ρ ρ' : Type}

/-- The turn with its moves, its next state and its ending replaced. -/
def Turn.map (f : μ → μ') (g : σ → σ') (e : ε → ε') : Turn μ σ ε → Turn μ' σ' ε'
  | .next moves s => .next (moves.map f) (g s)
  | .done moves ending => .done (moves.map f) (e ending)

/-- The ending with its result replaced. -/
def Ending.map (f : ρ → ρ') : Ending ρ → Ending ρ'
  | .solved result => .solved (f result)
  | .failed failure => .failed failure
  | .fault reason => .fault reason

/-- The same ending, up to a relation between the results. -/
inductive Ending.Corresponds (R : ρ → ρ' → Prop) : Ending ρ → Ending ρ' → Prop
  | solved {a : ρ} {b : ρ'} (h : R a b) : Corresponds R (.solved a) (.solved b)
  | failed (failure : Failure) : Corresponds R (.failed failure) (.failed failure)
  | fault (reason : Fault) : Corresponds R (.fault reason) (.fault reason)

theorem Ending.corresponds_map {R : ρ → ρ' → Prop} {f : ρ → ρ'} (h : ∀ a, R a (f a)) (ending : Ending ρ) :
    Corresponds R ending (ending.map f) := by
  cases ending with
  | solved result => exact .solved (h result)
  | failed failure => exact .failed failure
  | fault reason => exact .fault reason

/-- Runs are the same where turns are the same in all states that are reached. -/
theorem run_congr {turn turn' : σ → Turn μ σ ε} {I : σ → Prop} (hsame : ∀ s, I s → turn' s = turn s)
    (hkeep : ∀ s moves s', I s → turn s = .next moves s' → I s') {s : σ} (hs : I s) (limit : Nat) :
    run turn' limit s = run turn limit s := by
  induction limit generalizing s with
  | zero => rfl
  | succ limit ih =>
    rw [run, run, hsame s hs]
    cases hturn : turn s with
    | done moves ending => rfl
    | next moves s' =>
      dsimp only
      rw [ih (hkeep s moves s' hs hturn)]

section

variable {turn : σ → Turn μ σ ε} {turn' : σ' → Turn μ' σ' ε'} {f : μ → μ'} {g : σ → σ'} {e : ε → ε'}
  (h : ∀ s, turn' (g s) = (turn s).map f g e)

include h

/-- Whole runs correspond where every turn does. -/
theorem run_map (limit : Nat) (s : σ) :
    run turn' limit (g s) = (run turn limit s).map fun r => (r.1.map f, e r.2) := by
  induction limit generalizing s with
  | zero => rfl
  | succ limit ih =>
    rw [run, run, h]
    cases turn s with
    | done moves ending => rfl
    | next moves s' =>
      simp only [Turn.map, ih, Option.map_map]
      congr 1
      funext r
      simp

/-- The moves correspond also when the runs go on. -/
theorem movesWithin_map (limit : Nat) (s : σ) :
    movesWithin turn' limit (g s) = (movesWithin turn limit s).map f := by
  induction limit generalizing s with
  | zero => rfl
  | succ limit ih =>
    rw [movesWithin, movesWithin, h]
    cases turn s with
    | done moves ending => rfl
    | next moves s' => simp [Turn.map, ih]

end

/-- The same candidate is chosen where a map keeps which of two candidates is better. -/
theorem firstBest_map_of_mem {α β : Type} {better : α → α → Bool} {better' : β → β → Bool} {f : α → β}
    {l : List (Option α)} (h : ∀ a b, some a ∈ l → some b ∈ l → better' (f a) (f b) = better a b) :
    firstBest better' (l.map (Option.map f)) = (firstBest better l).map fun best => (best.1, f best.2) := by
  induction l with
  | nil => rfl
  | cons o l ih =>
    have hrest := ih fun a b ha hb => h a b (List.mem_cons_of_mem o ha) (List.mem_cons_of_mem o hb)
    cases o with
    | none =>
      simp only [List.map_cons, Option.map_none, firstBest, hrest, Option.map_map]
      rfl
    | some a =>
      simp only [List.map_cons, Option.map_some, firstBest, hrest]
      cases hbest : firstBest better l with
      | none => rfl
      | some best =>
        obtain ⟨i, b⟩ := best
        have hb : some b ∈ l := List.mem_of_getElem? (getElem?_of_firstBest hbest)
        simp only [Option.map_some, h b a (List.mem_cons_of_mem _ hb) List.mem_cons_self]
        split <;> rfl

/-- So it is where a map keeps which of any two is better. -/
theorem firstBest_map {α β : Type} {better : α → α → Bool} {better' : β → β → Bool} {f : α → β}
    (h : ∀ a b, better' (f a) (f b) = better a b) (l : List (Option α)) :
    firstBest better' (l.map (Option.map f)) = (firstBest better l).map fun best => (best.1, f best.2) :=
  firstBest_map_of_mem fun a b _ _ => h a b

end ExactSimplex
