/-!
# The first best candidate

Every choice the methods make, of a column, a row or a variable, goes to the best of some candidates, and
of several equally good ones to the first. Positions without a candidate are passed over.
-/

namespace ExactSimplex

variable {α : Type}

/-- The first candidate than which no other is better, with its position. -/
def firstBest (better : α → α → Bool) : List (Option α) → Option (Nat × α)
  | [] => none
  | none :: rest => (firstBest better rest).map fun best => (best.1 + 1, best.2)
  | some a :: rest =>
    match firstBest better rest with
    | none => some (0, a)
    | some (i, b) => if better b a then some (i + 1, b) else some (0, a)

/-- There is no best candidate exactly when there is no candidate at all. -/
theorem firstBest_eq_none_iff {better : α → α → Bool} {l : List (Option α)} :
    firstBest better l = none ↔ ∀ o ∈ l, o = none := by
  induction l with
  | nil => simp [firstBest]
  | cons o l ih =>
    cases o with
    | none => simp [firstBest, ih]
    | some a =>
      simp only [firstBest]
      split
      · simp
      · split <;> simp

/-- The best candidate stands at the position that comes with it. -/
theorem getElem?_of_firstBest {better : α → α → Bool} {l : List (Option α)} {i : Nat} {a : α}
    (h : firstBest better l = some (i, a)) : l[i]? = some (some a) := by
  induction l generalizing i a with
  | nil => simp [firstBest] at h
  | cons o l ih =>
    cases o with
    | none =>
      simp only [firstBest, Option.map_eq_some_iff, Prod.mk.injEq] at h
      obtain ⟨⟨k, b⟩, hb, rfl, rfl⟩ := h
      simpa using ih hb
    | some c =>
      simp only [firstBest] at h
      split at h
      · simp only [Option.some.injEq, Prod.mk.injEq] at h
        obtain ⟨rfl, rfl⟩ := h
        rfl
      · rename_i k b hb
        split at h
        · simp only [Option.some.injEq, Prod.mk.injEq] at h
          obtain ⟨rfl, rfl⟩ := h
          simpa using ih hb
        · simp only [Option.some.injEq, Prod.mk.injEq] at h
          obtain ⟨rfl, rfl⟩ := h
          rfl

/-- Where being better is a strict order in which incomparable candidates are equally good, no candidate
is better than the one chosen. -/
theorem not_better_of_firstBest {better : α → α → Bool} {l : List (Option α)} {i : Nat} {a : α}
    (hasymm : ∀ a b, better a b = true → better b a = false)
    (htrans : ∀ a b c, better a b = false → better b c = false → better a c = false)
    (h : firstBest better l = some (i, a)) : ∀ b, some b ∈ l → better b a = false := by
  have hirrefl : ∀ a, better a a = false := fun a => by
    cases hself : better a a with
    | false => rfl
    | true => exact hself.symm.trans (hasymm a a hself)
  induction l generalizing i a with
  | nil => simp [firstBest] at h
  | cons o l ih =>
    intro b hb
    cases o with
    | none =>
      simp only [firstBest, Option.map_eq_some_iff, Prod.mk.injEq] at h
      obtain ⟨⟨k, c⟩, hc, rfl, rfl⟩ := h
      exact ih hc b (by simpa using hb)
    | some c =>
      simp only [firstBest] at h
      split at h
      · rename_i hnone
        simp only [Option.some.injEq, Prod.mk.injEq] at h
        obtain ⟨-, rfl⟩ := h
        rcases List.mem_cons.mp hb with hbc | hb
        · cases hbc
          exact hirrefl b
        · have habsurd := firstBest_eq_none_iff.mp hnone _ hb
          cases habsurd
      · rename_i k d hd
        split at h
        · rename_i hbetter
          simp only [Option.some.injEq, Prod.mk.injEq] at h
          obtain ⟨-, rfl⟩ := h
          rcases List.mem_cons.mp hb with hbc | hb
          · cases hbc
            exact hasymm _ _ hbetter
          · exact ih hd b hb
        · rename_i hworse
          simp only [Option.some.injEq, Prod.mk.injEq] at h
          obtain ⟨-, rfl⟩ := h
          rcases List.mem_cons.mp hb with hbc | hb
          · cases hbc
            exact hirrefl b
          · exact htrans b d c (ih hd b hb) (Bool.not_eq_true _ ▸ hworse)

/-- The candidate chosen is strictly better than every candidate before it. -/
theorem better_of_lt_firstBest {better : α → α → Bool} {l : List (Option α)} {i : Nat} {a : α}
    (h : firstBest better l = some (i, a)) {k : Nat} {b : α} (hk : k < i) (hb : l[k]? = some (some b)) :
    better a b = true := by
  induction l generalizing i a k with
  | nil => simp [firstBest] at h
  | cons o l ih =>
    cases o with
    | none =>
      simp only [firstBest, Option.map_eq_some_iff, Prod.mk.injEq] at h
      obtain ⟨⟨n, c⟩, hc, rfl, rfl⟩ := h
      cases k with
      | zero => cases hb
      | succ k => exact ih hc (Nat.lt_of_succ_lt_succ hk) (by simpa using hb)
    | some c =>
      simp only [firstBest] at h
      split at h
      · simp only [Option.some.injEq, Prod.mk.injEq] at h
        omega
      · rename_i n d hd
        split at h
        · rename_i hbetter
          simp only [Option.some.injEq, Prod.mk.injEq] at h
          obtain ⟨rfl, rfl⟩ := h
          cases k with
          | zero =>
            simp only [List.getElem?_cons_zero, Option.some.injEq] at hb
            exact hb ▸ hbetter
          | succ k => exact ih hd (Nat.lt_of_succ_lt_succ hk) (by simpa using hb)
        · simp only [Option.some.injEq, Prod.mk.injEq] at h
          omega

/-- A candidate is chosen exactly when no other is better and every one before it is worse. -/
theorem firstBest_eq_some_iff {better : α → α → Bool} {l : List (Option α)} {i : Nat} {a : α}
    (hasymm : ∀ a b, better a b = true → better b a = false)
    (htrans : ∀ a b c, better a b = false → better b c = false → better a c = false) :
    firstBest better l = some (i, a) ↔ l[i]? = some (some a) ∧ (∀ b, some b ∈ l → better b a = false) ∧
      ∀ k b, k < i → l[k]? = some (some b) → better a b = true := by
  constructor
  · intro h
    exact ⟨getElem?_of_firstBest h, not_better_of_firstBest hasymm htrans h,
      fun k b hk hb => better_of_lt_firstBest h hk hb⟩
  · rintro ⟨hget, hbest, hfirst⟩
    cases h : firstBest better l with
    | none => cases firstBest_eq_none_iff.mp h _ (List.mem_of_getElem? hget)
    | some chosen =>
      obtain ⟨k, b⟩ := chosen
      have hb := getElem?_of_firstBest h
      rcases Nat.lt_trichotomy i k with hlt | rfl | hgt
      · have hbetter := better_of_lt_firstBest h hlt hget
        rw [hbest b (List.mem_of_getElem? hb)] at hbetter
        cases hbetter
      · rw [hget, Option.some.injEq, Option.some.injEq] at hb
        rw [hb]
      · have hbetter := hfirst k b hgt hb
        rw [not_better_of_firstBest hasymm htrans h a (List.mem_of_getElem? hget)] at hbetter
        cases hbetter

end ExactSimplex
