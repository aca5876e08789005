import ExactSimplex.Proofs.Program.Fallback
import ExactSimplex.Proofs.Tableau.Minors
import ExactSimplex.Proofs.Tableau.RowSpace
import Mathlib.LinearAlgebra.Matrix.Block

/-!
# Making a starting basis basic

The tableau of a program on a starting basis has unit columns in the rows that did not fall back on a decision
variable. The others are pivoted in order, each on the column that was chosen for it from its own coefficients alone.
Whether that leads to unit columns everywhere is decided by the coefficients that these rows have in each other's
variables.
-/

namespace ExactSimplex

/-- The coefficients that the first `m` rows that fell back have in each other's variables. -/
def Program.fallbackBlock (p : Program) (b : Basis) (m : Nat) : Matrix (Fin m) (Fin m) Rat :=
  Matrix.of fun k l => (p.column (b.columns.getD (b.fallback.getD l 0) 0 - 1)).getD (b.fallback.getD k 0) 0

/-- No variable is chosen twice, and the tableau that is made on the basis has the unit vector of each row in the
column of its variable. -/
def Basis.Usable (p : Program) (b : Basis) : Prop :=
  b.columns.Nodup ∧ ∃ t, Tableau.ofBasis p b = .ok t ∧ t.rows.length = p.constraints.length ∧
    ∀ i j, b.columns[i]? = some j → ∀ k, t.entry k j = if k = i then 1 else 0

/-- A row that fell back has its coefficient in the variable of another one. -/
theorem Program.fallbackBlock_apply {p : Program} {b : Basis} {c : Constraint} {j m : Nat} {k l : Fin m}
    (hc : p.constraints[b.fallback.getD k 0]? = some c) (hj : b.columns[b.fallback.getD l 0]? = some j) :
    p.fallbackBlock b m k l = c.coefficients[j - 1]?.getD 0 := by
  rw [fallbackBlock, Matrix.of_apply, List.getD_eq_getElem?_getD (l := b.columns), hj, Option.getD_some, column,
    List.getD_eq_getElem?_getD (l := List.map _ _), List.getElem?_map, hc]
  rfl

namespace Tableau

variable {p : Program} {b : Basis} {t : Tableau} {i j m : Nat}

/-- On a starting basis the tableau of the program is made, and the rows that fell back are pivoted. -/
theorem ofBasis_eq_pivotAll (hp : p.IsConsistent) (h : p.initialBasis = .ok b) :
    ofBasis p b = (start p b.columns).pivotAll (fun i => b.columns.getD i 0) b.fallback := by
  have hstart := ofProgram_eq_start_of_range (Program.length_columns h) hp.2.2 fun i j => Program.columns_range h
  rw [ofBasis, hstart]
  simp only [← List.getD_eq_getElem?_getD]
  rfl

/-- The rows that fell back exist, each once, and their columns belong to variables. -/
theorem selects_start (h : p.initialBasis = .ok b) :
    (start p b.columns).Selects (fun i => b.columns.getD i 0) b.fallback := by
  have hrange : ∀ i ∈ b.fallback, 0 < b.columns.getD i 0 ∧ b.columns.getD i 0 ≤ p.variableCount := fun i hi => by
    obtain ⟨j, -, hj, -⟩ := Program.exists_of_mem_fallback h hi
    rw [List.getD_eq_getElem?_getD, hj, Option.getD_some]
    exact Program.columns_range h hj
  refine ⟨Program.nodup_fallback h, fun i hi => ?_, fun i hi => (hrange i hi).1, fun i hi => ?_⟩
  · obtain ⟨-, c, -, hc, -⟩ := Program.exists_of_mem_fallback h hi
    rw [length_rows_start (Program.length_columns h)]
    exact (List.getElem?_eq_some_iff.mp hc).1
  · exact (length_columnsOf p).symm ▸ Nat.lt_succ_of_le (hrange i hi).2

/-- The pivots meet the coefficients that the rows have in each other's variables. -/
theorem block_start (h : p.initialBasis = .ok b) (hm : m ≤ b.fallback.length) :
    block (fun i => b.columns.getD i 0) (start p b.columns) b.fallback m = p.fallbackBlock b m := by
  ext k l
  obtain ⟨-, c, -, hc, -⟩ := Program.exists_of_mem_fallback h (getD_mem hm k)
  obtain ⟨j, -, hj, -, hpos, -⟩ := Program.exists_of_mem_fallback h (getD_mem hm l)
  rw [block, Matrix.of_apply, List.getD_eq_getElem?_getD (l := b.columns), hj, Option.getD_some,
    entry_start (Program.length_columns h) hc hpos, Program.fallbackBlock_apply hc hj]

/-- The variable of every row is basic in its row once the rows that fell back are pivoted. -/
theorem basicIn_ofBasis (hp : p.IsConsistent) (h : p.initialBasis = .ok b) (ht : ofBasis p b = .ok t)
    (hj : b.columns[i]? = some j) : t.BasicIn i j := by
  have hbasis := Program.length_columns h
  have hrect := rectangular_start hbasis hp.2.2
  rw [ofBasis_eq_pivotAll hp h] at ht
  by_cases hi : i ∈ b.fallback
  · have hbasic := (selects_start h).basicIn hrect hi ht
    rwa [List.getD_eq_getElem?_getD, hj] at hbasic
  · obtain ⟨hlt, hle, hcolumn⟩ := Program.unitAt_columns h hj hi
    exact (basicIn_start_of_unitAt hbasis hj (Nat.zero_lt_of_lt hlt) hle hcolumn).pivotAll hrect hi ht

end Tableau

namespace Program

variable {p : Program} {b : Basis} {m : Nat}

/-- In its own variable a row that fell back has the coefficient `1` or `-1`. -/
theorem fallbackBlock_self_ne_zero (h : p.initialBasis = .ok b) (hm : m ≤ b.fallback.length) (k : Fin m) :
    p.fallbackBlock b m k k ≠ 0 := by
  obtain ⟨j, c, hj, hc, -, -, hone⟩ := exists_of_mem_fallback h (Tableau.getD_mem hm k)
  rw [fallbackBlock_apply hc hj]
  rcases hone with hone | hone
  · rw [hone, Option.getD_some]
    exact one_ne_zero
  · rw [hone, Option.getD_some]
    exact neg_ne_zero.mpr one_ne_zero

/-- Where no row has a coefficient in the variable of a row that fell back before it, no minor is zero. -/
theorem det_fallbackBlock_ne_zero (h : p.initialBasis = .ok b) (hm : m ≤ b.fallback.length)
    (htriangular : ∀ k l : Fin b.fallback.length, l < k → p.fallbackBlock b b.fallback.length k l = 0) :
    (p.fallbackBlock b m).det ≠ 0 := by
  have hblock : (p.fallbackBlock b m).BlockTriangular id := fun k l hlk =>
    htriangular (k.castLE hm) (l.castLE hm) hlk
  rw [Matrix.det_of_isUpperTriangular hblock, Finset.prod_ne_zero_iff]
  exact fun k _ => fallbackBlock_self_ne_zero h hm k

end Program

namespace Basis

variable {p : Program} {b : Basis} {t : Tableau}

/-- A tableau that can be made on the basis shows that it is usable, for different rows have different unit
vectors. -/
theorem usable_of_ofBasis (hp : p.IsConsistent) (h : p.initialBasis = .ok b) (ht : Tableau.ofBasis p b = .ok t) :
    b.Usable p := by
  have hbasic := fun i j (hj : b.columns[i]? = some j) => Tableau.basicIn_ofBasis hp h ht hj
  refine ⟨?_, t, ht, ?_, fun i j hj => (hbasic i j hj).entry_eq⟩
  · rw [List.nodup_iff_getElem?_ne_getElem?]
    intro i k hik hk heq
    have hkj := List.getElem?_eq_getElem hk
    have hrow := (hbasic i _ (heq.trans hkj)).row_eq (hbasic k _ hkj)
    omega
  · rw [Tableau.ofBasis_eq_pivotAll hp h] at ht
    rw [Tableau.length_rows_pivotAll ht, Tableau.length_rows_start (Program.length_columns h)]

/-- A starting basis is usable exactly when no leading minor is zero of the coefficients that the rows that fell back
have in each other's variables. Otherwise one of the pivots meets a zero. None does where no row has a coefficient in
the variable of a row that fell back before it, so when a single row fell back. -/
theorem usable_iff_minors (hp : p.Reachable) (h : p.initialBasis = .ok b) :
    (b.Usable p ↔ ∀ m, m ≤ b.fallback.length → (p.fallbackBlock b m).det ≠ 0) ∧
    (¬ b.Usable p → Tableau.ofBasis p b = .error .zeroPivot) ∧
    ((∀ k l : Fin b.fallback.length, l < k → p.fallbackBlock b b.fallback.length k l = 0) → b.Usable p) := by
  have hconsistent := hp.isConsistent
  have hrect := Tableau.rectangular_start (Program.length_columns h) hconsistent.2.2
  have hselects := Tableau.selects_start h
  have hofBasis := Tableau.ofBasis_eq_pivotAll hconsistent h
  have hzero : ∀ m, m ≤ b.fallback.length → (p.fallbackBlock b m).det = 0 →
      Tableau.ofBasis p b = .error .zeroPivot := fun m hm hdet => by
    rw [← Tableau.block_start h hm] at hdet
    rw [hofBasis, hselects.pivotAll_eq_error hrect hm hdet]
  have husable : (∀ m, m ≤ b.fallback.length → (p.fallbackBlock b m).det ≠ 0) → b.Usable p := fun hminors => by
    obtain ⟨t, ht⟩ := hselects.exists_pivotAll hrect fun m hm => by
      rw [Tableau.block_start h hm]
      exact hminors m hm
    exact usable_of_ofBasis hconsistent h (hofBasis.trans ht)
  refine ⟨⟨?_, husable⟩, fun hnot => ?_, fun htriangular => husable fun m hm => ?_⟩
  · rintro ⟨-, t, ht, -⟩ m hm hdet
    rw [hzero m hm hdet] at ht
    cases ht
  · by_contra herror
    exact hnot (husable fun m hm hdet => herror (hzero m hm hdet))
  · exact Program.det_fallbackBlock_ne_zero h hm htriangular

/-- Two products, with two equations that fall back on them and a limit on both. -/
def twoBlends : Program where
  sense := .maximize
  objective := [1, 1]
  slackCosts := [0]
  artificialCosts := []
  constraints := [⟨[1, 2, 0], .eq, 3⟩, ⟨[2, 1, 0], .eq, 4⟩, ⟨[1, 1, 1], .le, 5⟩]

theorem usable_twoBlends : twoBlends.Reachable ∧ twoBlends.initialBasis = .ok ⟨[1, 2, 3], [0, 1]⟩ ∧
    (twoBlends.fallbackBlock ⟨[1, 2, 3], [0, 1]⟩ 2).det = -3 ∧
    ∃ t, Tableau.ofBasis twoBlends ⟨[1, 2, 3], [0, 1]⟩ = .ok t ∧ ∀ k, t.entry k 2 = if k = 1 then 1 else 0 := by
  have hreachable : twoBlends.Reachable :=
    .transform .addSlacks (.accepted (p := ⟨.maximize, [1, 1], [], [],
      [⟨[1, 2], .eq, 3⟩, ⟨[2, 1], .eq, 4⟩, ⟨[1, 1], .le, 5⟩]⟩) rfl) rfl
  have hinitial : twoBlends.initialBasis = .ok ⟨[1, 2, 3], [0, 1]⟩ := by decide +kernel
  have hdet : (twoBlends.fallbackBlock ⟨[1, 2, 3], [0, 1]⟩ 2).det = -3 := by decide +kernel
  have hminors : ∀ m, m ≤ 2 → (twoBlends.fallbackBlock ⟨[1, 2, 3], [0, 1]⟩ m).det ≠ 0 := by decide +kernel
  obtain ⟨-, t, ht, -, hunit⟩ := (usable_iff_minors hreachable hinitial).1.mpr hminors
  exact ⟨hreachable, hinitial, hdet, t, ht, hunit 1 2 rfl⟩

/-- Two equations with the same first product, which both fall back on. -/
def shared : Program where
  sense := .maximize
  objective := [1, 1]
  slackCosts := []
  artificialCosts := []
  constraints := [⟨[1, 1], .eq, 3⟩, ⟨[1, -1], .eq, 1⟩]

/-- Two equations that fall back on different products, in which they have the same shares. -/
def parallel : Program where
  sense := .maximize
  objective := [1, 1]
  slackCosts := []
  artificialCosts := []
  constraints := [⟨[1, 2], .eq, 3⟩, ⟨[1 / 2, 1], .eq, 1⟩]

/-- Rows that fell back may have chosen the same variable. Also where they chose different ones the pivot of the first
row may leave a zero for the second. -/
theorem exists_not_usable :
    (∃ b, shared.Reachable ∧ shared.initialBasis = .ok b ∧ b.columns = [1, 1] ∧ ¬ b.columns.Nodup ∧
      Tableau.ofBasis shared b = .error .zeroPivot ∧ ¬ b.Usable shared) ∧
    ∃ b, parallel.Reachable ∧ parallel.initialBasis = .ok b ∧ b.columns = [1, 2] ∧
      Tableau.ofBasis parallel b = .error .zeroPivot ∧ ¬ b.Usable parallel := by
  have hnot : ∀ (p : Program) (b : Basis), Tableau.ofBasis p b = .error .zeroPivot → ¬ b.Usable p := by
    rintro p b herror ⟨-, t, ht, -⟩
    rw [herror] at ht
    cases ht
  have hshared : Tableau.ofBasis shared ⟨[1, 1], [0, 1]⟩ = .error .zeroPivot := by decide +kernel
  have hparallel : Tableau.ofBasis parallel ⟨[1, 2], [0, 1]⟩ = .error .zeroPivot := by decide +kernel
  exact ⟨⟨_, .accepted rfl, by decide +kernel, rfl, by decide, hshared, hnot _ _ hshared⟩,
    _, .accepted rfl, by decide +kernel, rfl, hparallel, hnot _ _ hparallel⟩

end Basis

end ExactSimplex
