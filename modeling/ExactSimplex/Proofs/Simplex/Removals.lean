import ExactSimplex.Proofs.Tableau.Entries
import ExactSimplex.Simplex.Sweep

/-!
# Removed rows

A row whose basic variable is artificial and zero, and that is zero in front of the artificial columns, is
redundant. When redundant rows are removed, the other rows keep their numbers and their order, and move up by
one place for each row in front of them.
-/

namespace ExactSimplex

/-- The row says nothing about the variables that are not artificial. -/
structure Row.IsRedundant (first : Nat) (r : Row) : Prop where
  isArtificial : r.IsArtificial
  bound : r.bound = 0
  entry : ∀ j, 0 < j → j < first → r.entry j = 0

namespace Simplex

/-- The removal of redundant rows leads from one tableau to another. Each row is given by its place when it is
removed. -/
inductive Removes (first : Nat) (t : Tableau) : List Nat → Tableau → Prop
  | nil : Removes first t [] t
  | snoc {removed : List Nat} {t' t'' : Tableau} {i : Nat} {r : Row} (h : Removes first t removed t')
      (hrow : t'.rows[i]? = some r) (hredundant : r.IsRedundant first) (hremove : t'.removeRow i = .ok t'') :
      Removes first t (removed ++ [i]) t''

/-- The place that row `k` has after row `i` was removed. -/
def placeBehind (i k : Nat) : Option Nat :=
  if k < i then some k else if k = i then none else some (k - 1)

/-- The place that row `k` has after rows were removed, if it is not one of them. -/
def placeAfter (removed : List Nat) (k : Nat) : Option Nat := removed.foldlM (fun k i => placeBehind i k) k

variable {first i k l : Nat} {removed : List Nat} {t t' : Tableau}

/-! The places of the rows. -/

theorem placeBehind_eq_some_iff : placeBehind i k = some l ↔ k = if l < i then l else l + 1 := by
  unfold placeBehind
  split
  · rw [Option.some.injEq]
    split <;> omega
  · split
    · simp only [reduceCtorEq, false_iff]
      split <;> omega
    · rw [Option.some.injEq]
      split <;> omega

theorem placeBehind_eq_none_iff : placeBehind i k = none ↔ k = i := by
  unfold placeBehind
  split
  · simp only [reduceCtorEq, false_iff]
    omega
  · split <;> simp [*]

theorem placeAfter_append : placeAfter (removed ++ [i]) k = (placeAfter removed k).bind (placeBehind i) := by
  rw [placeAfter, List.foldlM_append]
  simp only [List.foldlM_cons, List.foldlM_nil, bind_pure]
  rfl

/-- Different rows have different places. -/
theorem placeAfter_injective {k' : Nat} (h : placeAfter removed k = some l) (h' : placeAfter removed k' = some l) :
    k = k' := by
  induction removed generalizing k k' with
  | nil => exact Option.some.inj (h.trans h'.symm)
  | cons i removed ih =>
    rw [placeAfter, List.foldlM_cons] at h h'
    obtain ⟨m, hm, hl⟩ := Option.bind_eq_some_iff.mp h
    obtain ⟨m', hm', hl'⟩ := Option.bind_eq_some_iff.mp h'
    rw [placeBehind_eq_some_iff.mp hm, placeBehind_eq_some_iff.mp hm', ih hl hl']

/-- A row keeps its place when all rows that are removed are behind it. -/
theorem placeAfter_of_lt (h : ∀ i ∈ removed, k < i) : placeAfter removed k = some k := by
  induction removed with
  | nil => rfl
  | cons i removed ih =>
    obtain ⟨hi, hrest⟩ := List.forall_mem_cons.mp h
    rw [placeAfter, List.foldlM_cons, placeBehind, if_pos hi]
    exact ih hrest

namespace Removes

/-! What the removal of rows keeps. -/

/-- A row that stays is the same row at its new place. -/
theorem getElem?_rows (h : Removes first t removed t') (hplace : placeAfter removed k = some l) :
    t'.rows[l]? = t.rows[k]? := by
  induction h generalizing l with
  | nil =>
    cases hplace
    rfl
  | snoc _ _ _ hremove ih =>
    rw [placeAfter_append, Option.bind_eq_some_iff] at hplace
    obtain ⟨m, hm, hl⟩ := hplace
    rw [Tableau.getElem?_rows_removeRow hremove, ← placeBehind_eq_some_iff.mp hl, ih hm]

/-- Every row that is left had a place before. -/
theorem exists_place (h : Removes first t removed t') (l : Nat) : ∃ k, placeAfter removed k = some l := by
  induction h generalizing l with
  | nil => exact ⟨l, rfl⟩
  | @snoc removed _ _ i _ _ _ _ _ ih =>
    obtain ⟨k, hk⟩ := ih (if l < i then l else l + 1)
    refine ⟨k, ?_⟩
    rw [placeAfter_append, hk]
    exact placeBehind_eq_some_iff.mpr rfl

/-- A row that has no place any more was redundant. -/
theorem isRedundant (h : Removes first t removed t') (hplace : placeAfter removed k = none) :
    ∃ r, t.rows[k]? = some r ∧ r.IsRedundant first := by
  induction h with
  | nil => cases hplace
  | snoc h hrow hredundant _ ih =>
    rw [placeAfter_append, Option.bind_eq_none_iff] at hplace
    cases hk : placeAfter _ k with
    | none => exact ih hk
    | some m =>
      obtain rfl := placeBehind_eq_none_iff.mp (hplace m hk)
      exact ⟨_, (h.getElem?_rows hk).symm.trans hrow, hredundant⟩

end Removes

end Simplex

end ExactSimplex
