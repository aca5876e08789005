import ExactSimplex.Proofs.Program.Homogeneous
import ExactSimplex.Proofs.Simplex.Ratio
import ExactSimplex.Proofs.Tableau.Directions
import ExactSimplex.Simplex.Solve

/-!
# What every turn keeps

All tableaus of the method represent the same program: with the artificial variables at zero they have the
solutions and the directions of its equations, and they stay feasible. Entering pivots keep this because of the
ratio test; expelling an artificial variable that is basic at zero changes no right-hand side, and a row that is
removed says nothing about the variables that are not artificial.
-/

namespace ExactSimplex.Simplex

open Finset

variable {q : Program} {t t' before : Tableau} {i j k l : Nat} {r leaving : Row} {x : Assignment}

/-- The assignment gives the artificial variables of a program the value zero. -/
def ZeroArtificials (q : Program) (x : Assignment) : Prop := ∀ j, q.decisions + q.slacks < j → x j = 0

/-- A feasible tableau over the columns of a program with the same solutions and directions, as far as the
artificial variables are zero. -/
structure Represents (q : Program) (t : Tableau) : Prop where
  priced : q.Priced
  sense : t.sense = q.sense
  columns : t.columns = Tableau.columnsOf q
  wellFormed : t.WellFormed
  feasible : t.IsFeasible
  holds_iff : ∀ x, ZeroArtificials q x → (t.Holds x ↔ q.Tight x)
  vanishes_iff : ∀ x, ZeroArtificials q x → (t.Vanishes x ↔ q.homogeneous.Tight x)

/-- Every artificial variable that is basic is zero. -/
theorem not_stillArtificial_iff :
    ¬ StillArtificial t ↔ ∀ (i : Nat) (r : Row), t.rows[i]? = some r → r.IsArtificial → r.bound = 0 := by
  unfold StillArtificial
  push Not
  constructor
  · intro h i r hr
    exact h r (List.mem_of_getElem? hr)
  · intro h r hr
    obtain ⟨i, hi⟩ := List.mem_iff_getElem?.mp hr
    exact h i r hi

namespace Represents

/-- Recording ratios changes nothing that matters. -/
theorem record {ratios : Ratios} (h : Represents q t) (hr : t.record ratios = .ok t') :
    Represents q t' := by
  have hfeasible := (Tableau.isFeasible_record hr).mpr h.feasible
  have hholds := fun x hx => (Tableau.holds_record hr x).trans (h.holds_iff x hx)
  have hwell := h.wellFormed.record hr
  obtain ⟨-, rfl⟩ := Tableau.record_eq_ok_iff.mp hr
  exact ⟨h.priced, h.sense, h.columns, hwell, hfeasible, hholds, h.vanishes_iff⟩

/-- A pivot that keeps the tableau feasible keeps all else. -/
theorem pivot (h : Represents q t) (hp : t.pivot i j = .ok t') (hf : t'.IsFeasible) :
    Represents q t' := by
  have hsame := Tableau.holds_pivot h.wellFormed.rectangular hp
  have hholds := fun x hx => (hsame x).trans (h.holds_iff x hx)
  have hvanishes := fun x hx =>
    (Tableau.vanishes_iff_of_holds_iff hsame h.wellFormed.holds_variableValue).trans (h.vanishes_iff x hx)
  have hwell := h.wellFormed.pivot hp
  obtain ⟨leaving, -, -, -, -, rfl⟩ := Tableau.pivot_eq_ok_iff.mp hp
  exact ⟨h.priced, h.sense, h.columns, hwell, hf, hholds, hvanishes⟩

/-- An entering variable keeps the representation, because of the ratio test. -/
theorem enter {p : Pivot} (h : Represents q t) (he : enter t j = .ok (.pivoted p before t')) :
    Represents q t' := by
  obtain ⟨hrecord, i, hratio, -, hpivot⟩ := enter_eq_pivoted_iff.mp he
  have hbefore := h.record hrecord
  have hlimits : before.limits j = t.limits j := by
    obtain ⟨-, rfl⟩ := Tableau.record_eq_ok_iff.mp hrecord
    rfl
  rw [← hlimits] at hratio
  exact hbefore.pivot hpivot (hbefore.feasible.pivot hbefore.wellFormed.rectangular hratio hpivot)

end Represents

/-! Expelling an artificial variable. -/

section Expel

variable (hrow : t.rows[i]? = some leaving) (hzero : leaving.bound = 0)

include hrow hzero

/-- A pivot on a row whose right-hand side is zero changes no right-hand side. -/
theorem entry_zero_pivot (hrect : t.Rectangular) (hp : t.pivot i j = .ok t') (l : Nat) :
    t'.entry l 0 = t.entry l 0 := by
  have hbound : t.entry i 0 = 0 := (Tableau.entry_of_getElem? hrow).trans hzero
  obtain ⟨leaving', hrow', -, -, -, rfl⟩ := Tableau.pivot_eq_ok_iff.mp hp
  rw [Tableau.entry_exchange hrect hrow', hbound, zero_div, mul_zero, sub_zero]
  split
  · rename_i hl
    rw [hl, hbound]
  · rfl

/-- Expelling an artificial variable keeps the representation. -/
theorem Represents.expel (h : Represents q t) (hp : t.pivot i j = .ok t') : Represents q t' := by
  refine h.pivot hp (Tableau.isFeasible_iff.mpr fun l hl => ?_)
  rw [entry_zero_pivot hrow hzero h.wellFormed.rectangular hp]
  exact Tableau.isFeasible_iff.mp h.feasible l (Tableau.length_rows_pivot hp ▸ hl)

/-- Expelling an artificial variable leaves all others that are basic at zero. -/
theorem not_stillArtificial_expel (h : ¬ StillArtificial t) (hrect : t.Rectangular)
    (hp : t.pivot i j = .ok t') : ¬ StillArtificial t' := by
  rw [not_stillArtificial_iff] at h ⊢
  intro l r hr hartificial
  have hentry := entry_zero_pivot hrow hzero hrect hp l
  rw [Tableau.entry_of_getElem? hr] at hentry
  rw [Row.bound, hentry]
  obtain ⟨leaving', hrow', -, -, -, rfl⟩ := Tableau.pivot_eq_ok_iff.mp hp
  rw [Tableau.getElem?_rows_exchange (List.getElem?_eq_some_iff.mp hrow').1] at hr
  split at hr
  · rename_i hl
    rw [hl]
    exact (Tableau.entry_of_getElem? hrow).trans hzero
  · obtain ⟨r', hr', rfl⟩ := Option.map_eq_some_iff.mp hr
    rw [Tableau.entry_of_getElem? hr']
    exact h l r' hr' hartificial

end Expel

/-! Removing a redundant row. -/

/-- No column in front of the artificial ones was found when the row is zero there. -/
theorem entry_eq_zero_of_expellingColumn? {first : Nat} (h : expellingColumn? first r = none)
    (hpos : 0 < j) (hj : j < first) : r.entry j = 0 := by
  have hnone := List.find?_eq_none.mp h j (by rw [List.mem_range'_1]; omega)
  simpa using hnone

/-- With the artificial variables at zero, the left-hand side of a row that is zero in front of the artificial
columns is zero. -/
theorem weigh_eq_zero_of_expellingColumn? (hnone : expellingColumn? (firstArtificial q) r = none)
    (hx : ZeroArtificials q x) : weigh x 1 r.values.tail = 0 := by
  rw [Row.weigh_tail]
  apply Finset.sum_eq_zero
  intro j hj
  rcases Nat.lt_or_ge j (firstArtificial q) with hlt | hle
  · rw [entry_eq_zero_of_expellingColumn? hnone (mem_Ico.mp hj).1 hlt, zero_mul]
  · rw [hx j (by rw [firstArtificial] at hle; omega), mul_zero]

/-- A row that is zero in front of the artificial columns, with right-hand side zero, can be removed. -/
theorem Represents.drop (h : Represents q t) (hrow : t.rows[i]? = some r) (hzero : r.bound = 0)
    (hnone : expellingColumn? (firstArtificial q) r = none) (hr : t.removeRow i = .ok t') :
    Represents q t' := by
  have hholds : ∀ x, ZeroArtificials q x → (t'.Holds x ↔ q.Tight x) := by
    intro x hx
    rw [← h.holds_iff x hx, Tableau.holds_removeRow hr]
    refine ⟨fun ht' => ⟨ht', fun r' hr' => ?_⟩, And.left⟩
    rw [hrow, Option.some.injEq] at hr'
    rw [← hr', Row.Holds, weigh_eq_zero_of_expellingColumn? hnone hx, hzero]
  have hvanishes : ∀ x, ZeroArtificials q x → (t'.Vanishes x ↔ q.homogeneous.Tight x) := by
    intro x hx
    rw [← h.vanishes_iff x hx, Tableau.vanishes_removeRow hr]
    refine ⟨fun ht' => ⟨ht', fun r' hr' => ?_⟩, And.left⟩
    rw [hrow, Option.some.injEq] at hr'
    rw [← hr', weigh_eq_zero_of_expellingColumn? hnone hx]
  have hwell := h.wellFormed.removeRow hr
  obtain ⟨-, rfl⟩ := Tableau.removeRow_eq_ok_iff.mp hr
  refine ⟨h.priced, h.sense, h.columns, hwell, fun r' hr' => ?_, hholds, hvanishes⟩
  exact h.feasible r' (List.mem_of_mem_eraseIdx hr')

/-- Removing a row leaves the artificial variables that are basic at zero. -/
theorem not_stillArtificial_drop (h : ¬ StillArtificial t) (hr : t.removeRow i = .ok t') :
    ¬ StillArtificial t' := by
  obtain ⟨-, rfl⟩ := Tableau.removeRow_eq_ok_iff.mp hr
  rintro ⟨r, hmem, hartificial⟩
  exact h ⟨r, List.mem_of_mem_eraseIdx hmem, hartificial⟩

/-! A whole sweep. -/

/-- The moves of a sweep, and the tableaus that they lead from and to. -/
inductive Sweeps (first : Nat) : Tableau → List Move → Tableau → Prop
  | nil (t : Tableau) : Sweeps first t [] t
  | expel {t t' t'' : Tableau} {i j : Nat} {r : Row} {moves : List Move} (hrow : t.rows[i]? = some r)
      (hartificial : r.IsArtificial) (hcolumn : expellingColumn? first r = some j)
      (hpivot : t.pivot i j = .ok t') (h : Sweeps first t' moves t'') :
      Sweeps first t (.expel ⟨i, j⟩ t t' :: moves) t''
  | drop {t t' t'' : Tableau} {i : Nat} {r : Row} {moves : List Move} (hrow : t.rows[i]? = some r)
      (hartificial : r.IsArtificial) (hnone : expellingColumn? first r = none)
      (hremove : t.removeRow i = .ok t') (h : Sweeps first t' moves t'') :
      Sweeps first t (.drop i t t' :: moves) t''

/-- Each move of a finished sweep expels an artificial variable or removes its row. -/
theorem sweeps_of_sweep {first count : Nat} {moves : List Move}
    (hs : sweep first count i t = (moves, .ok t')) : Sweeps first t moves t' := by
  induction count generalizing i t moves with
  | zero =>
    cases hs
    exact .nil _
  | succ count ih =>
    rw [sweep] at hs
    split at hs
    · cases hs
      exact .nil _
    · rename_i r hrow
      split at hs
      · rename_i hartificial
        split at hs
        · rename_i j hcolumn
          split at hs
          · cases (Prod.mk.inj hs).2
          · rename_i t'' hpivot
            obtain ⟨rfl, hrest⟩ := Prod.mk.inj hs
            exact .expel hrow hartificial hcolumn hpivot (ih (Prod.ext rfl hrest))
        · rename_i hnone
          split at hs
          · cases (Prod.mk.inj hs).2
          · rename_i t'' hremove
            obtain ⟨rfl, hrest⟩ := Prod.mk.inj hs
            exact .drop hrow hartificial hnone hremove (ih (Prod.ext rfl hrest))
      · exact ih hs

/-- A sweep keeps the representation, and all artificial variables that are basic at zero. -/
theorem Represents.sweeps {moves : List Move} (h : Represents q t) (hart : ¬ StillArtificial t)
    (hs : Sweeps (firstArtificial q) t moves t') : Represents q t' ∧ ¬ StillArtificial t' := by
  induction hs with
  | nil t => exact ⟨h, hart⟩
  | expel hrow hartificial _ hpivot _ ih =>
    have hzero := not_stillArtificial_iff.mp hart _ _ hrow hartificial
    have hrect := h.wellFormed.rectangular
    exact ih (h.expel hrow hzero hpivot) (not_stillArtificial_expel hrow hzero hart hrect hpivot)
  | drop hrow hartificial hnone hremove _ ih =>
    have hzero := not_stillArtificial_iff.mp hart _ _ hrow hartificial
    exact ih (h.drop hrow hzero hnone hremove) (not_stillArtificial_drop hart hremove)

/-- A sweep without a move has found no artificial variable. -/
theorem sweep_nil {first count : Nat} (hs : sweep first count i t = ([], .ok t')) :
    t' = t ∧ ∀ k, i ≤ k → k < i + count → ∀ r, t.rows[k]? = some r → ¬ r.IsArtificial := by
  induction count generalizing i with
  | zero =>
    obtain ⟨-, hok⟩ := Prod.mk.inj hs
    cases hok
    exact ⟨rfl, fun k _ _ => by omega⟩
  | succ count ih =>
    rw [sweep] at hs
    split at hs
    · rename_i hnone
      obtain ⟨-, hok⟩ := Prod.mk.inj hs
      cases hok
      refine ⟨rfl, fun k hk _ r hr => ?_⟩
      have hlength := List.getElem?_eq_none_iff.mp hnone
      rw [List.getElem?_eq_none (by omega)] at hr
      cases hr
    · rename_i r hrow
      split at hs
      · split at hs
        · split at hs
          · cases (Prod.mk.inj hs).2
          · cases (Prod.mk.inj hs).1
        · split at hs
          · cases (Prod.mk.inj hs).2
          · cases (Prod.mk.inj hs).1
      · rename_i hfinite
        obtain ⟨heq, hrest⟩ := ih hs
        refine ⟨heq, fun k hk hlt r' hr' => ?_⟩
        rcases Nat.eq_or_lt_of_le hk with rfl | hk
        · rw [hrow, Option.some.injEq] at hr'
          exact hr' ▸ hfinite
        · exact hrest k hk (by omega) r' hr'

/-- A sweep of all rows without a move has found none of them artificial. -/
theorem not_isArtificial_of_sweep {first : Nat} (hs : sweep first t.rows.length 0 t = ([], .ok t')) :
    ∀ r ∈ t.rows, ¬ r.IsArtificial := by
  intro r hr
  obtain ⟨i, hi⟩ := List.mem_iff_getElem?.mp hr
  have hlt := (List.getElem?_eq_some_iff.mp hi).1
  exact (sweep_nil hs).2 i (Nat.zero_le i) (by omega) r hi

end ExactSimplex.Simplex
