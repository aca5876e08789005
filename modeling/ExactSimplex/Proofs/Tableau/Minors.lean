import ExactSimplex.Proofs.Tableau.WellFormed
import Mathlib.LinearAlgebra.Matrix.Determinant.Basic

/-!
# Pivots row by row

Several rows are pivoted in order, each on a column of its own. A pivot eliminates its column from the rows that are
still to come, so that each of them meets numbers that the earlier ones have changed. The determinants of the numbers
that the first rows have in each other's columns foresee this: an elimination divides them by the pivot element. No
pivot element is zero exactly when none of these minors is.
-/

namespace ExactSimplex

/-- The elimination of the first column leaves a matrix whose determinant is divided by the pivot element. -/
theorem det_eq_mul_det_eliminate {m : Nat} (a : Matrix (Fin (m + 1)) (Fin (m + 1)) Rat) (h : a 0 0 ≠ 0) :
    a.det = a 0 0 * (Matrix.of fun k l : Fin m => a k.succ l.succ - a k.succ 0 * (a 0 l.succ / a 0 0)).det := by
  -- The matrix after the elimination, with the row of the pivot still as it was.
  let b : Matrix (Fin (m + 1)) (Fin (m + 1)) Rat :=
    Matrix.of fun k l => if k = 0 then a 0 l else a k l - a k 0 * (a 0 l / a 0 0)
  have hsame : a.det = b.det := by
    refine Matrix.det_eq_of_forall_row_eq_smul_add_const (fun k => if k = 0 then 0 else a k 0 / a 0 0) 0 (if_pos rfl) ?_
    intro k l
    by_cases hk : k = 0
    · simp [b, hk]
    · simp only [b, Matrix.of_apply, if_neg hk, if_true]
      ring
  have hcleared : ∀ k : Fin m, b k.succ 0 = 0 := by
    intro k
    simp only [b, Matrix.of_apply, if_neg (Fin.succ_ne_zero k), div_self h]
    ring
  have hrest : b.submatrix Fin.succ Fin.succ =
      Matrix.of fun k l : Fin m => a k.succ l.succ - a k.succ 0 * (a 0 l.succ / a 0 0) := by
    ext k l
    simp only [b, Matrix.submatrix_apply, Matrix.of_apply, if_neg (Fin.succ_ne_zero k)]
  rw [hsame, Matrix.det_succ_column_zero, Fin.sum_univ_succ, Finset.sum_eq_zero fun k _ => by rw [hcleared k]; ring,
    ← hrest]
  simp [b]

namespace Tableau

variable {t t' : Tableau} {i j l m : Nat} {rows : List Nat} {column : Nat → Nat}

/-- Pivots the rows in order, each on its column. -/
def pivotAll (column : Nat → Nat) (t : Tableau) (rows : List Nat) : Except Fault Tableau :=
  rows.foldlM (fun t i => t.pivot i (column i)) t

/-- The numbers that the first `m` of the rows have in each other's columns. -/
def block (column : Nat → Nat) (t : Tableau) (rows : List Nat) (m : Nat) : Matrix (Fin m) (Fin m) Rat :=
  Matrix.of fun k l => t.entry (rows.getD k 0) (column (rows.getD l 0))

/-- The first `m` rows are among all of them. -/
theorem getD_mem (hm : m ≤ rows.length) (k : Fin m) : rows.getD k 0 ∈ rows := by
  rw [List.getD_eq_getElem?_getD, List.getElem?_eq_getElem (k.isLt.trans_le hm), Option.getD_some]
  exact List.getElem_mem _

/-- The first pivot is made, and then the others. -/
theorem pivotAll_cons_eq_ok_iff : t.pivotAll column (i :: rows) = .ok t' ↔
    ∃ t₁, t.pivot i (column i) = .ok t₁ ∧ t₁.pivotAll column rows = .ok t' := by
  rw [pivotAll, List.foldlM_cons, bind_eq_ok_iff]
  rfl

/-- The first pivot that fails is the fault of them all. -/
theorem pivotAll_cons_eq_error_iff {fault : Fault} : t.pivotAll column (i :: rows) = .error fault ↔
    t.pivot i (column i) = .error fault ∨
      ∃ t₁, t.pivot i (column i) = .ok t₁ ∧ t₁.pivotAll column rows = .error fault := by
  rw [pivotAll, List.foldlM_cons, bind_eq_error_iff]
  rfl

/-- At a position that exists a pivot is made, unless there is a zero. -/
theorem pivot_cases (hi : i < t.rows.length) (hpos : 0 < j) (hlt : j < t.columns.length) :
    (t.entry i j = 0 ∧ t.pivot i j = .error .zeroPivot) ∨ (t.entry i j ≠ 0 ∧ ∃ t', t.pivot i j = .ok t') := by
  have hrow := List.getElem?_eq_getElem hi
  rw [entry_of_getElem? hrow]
  by_cases hzero : (t.rows[i]).entry j = 0
  · refine .inl ⟨hzero, ?_⟩
    rw [pivot, hrow]
    simp only [if_neg (show ¬ (j = 0 ∨ t.columns.length ≤ j) by omega), if_pos hzero]
  · exact .inr ⟨hzero, _, pivot_eq_ok_iff.mpr ⟨_, hrow, hpos, hlt, hzero, rfl⟩⟩

/-- The first row alone has its pivot element as its minor. -/
theorem det_block_one : (block column t (i :: rows) 1).det = t.entry i (column i) := by
  rw [Matrix.det_unique]
  rfl

/-- A pivot divides the minors of the rows that are still to come by its element. -/
theorem det_block_cons (hrect : t.Rectangular) (hp : t.pivot i (column i) = .ok t') (hi : i ∉ rows)
    (hm : m ≤ rows.length) :
    (block column t (i :: rows) (m + 1)).det = t.entry i (column i) * (block column t' rows m).det := by
  obtain ⟨leaving, hrow, -, -, hne, rfl⟩ := pivot_eq_ok_iff.mp hp
  rw [← entry_of_getElem? hrow] at hne
  have hblock : block column (t.exchange i (column i) leaving) rows m = Matrix.of fun k l : Fin m =>
      t.entry (rows.getD k 0) (column (rows.getD l 0)) - t.entry (rows.getD k 0) (column i) *
        (t.entry i (column (rows.getD l 0)) / t.entry i (column i)) := by
    ext k l
    have hk : rows.getD k 0 ≠ i := by
      rintro rfl
      exact hi (getD_mem hm k)
    rw [block, Matrix.of_apply, Matrix.of_apply, entry_exchange hrect hrow, if_neg hk]
  rw [det_eq_mul_det_eliminate _ hne, hblock]
  rfl

/-- The rows exist, each once, and their columns belong to variables. -/
structure Selects (t : Tableau) (column : Nat → Nat) (rows : List Nat) : Prop where
  nodup : rows.Nodup
  row_lt : ∀ i ∈ rows, i < t.rows.length
  column_pos : ∀ i ∈ rows, 0 < column i
  column_lt : ∀ i ∈ rows, column i < t.columns.length

namespace Selects

/-- The first row is pivoted, unless its minor is zero. -/
theorem pivot_cases (h : t.Selects column (i :: rows)) :
    ((block column t (i :: rows) 1).det = 0 ∧ t.pivot i (column i) = .error .zeroPivot) ∨
      ((block column t (i :: rows) 1).det ≠ 0 ∧ ∃ t', t.pivot i (column i) = .ok t') := by
  rw [det_block_one]
  exact Tableau.pivot_cases (h.row_lt i List.mem_cons_self) (h.column_pos i List.mem_cons_self)
    (h.column_lt i List.mem_cons_self)

/-- After the pivot of the first row the others are still there to be pivoted. -/
theorem pivot (h : t.Selects column (i :: rows)) (hp : t.pivot i (column i) = .ok t') : t'.Selects column rows where
  nodup := (List.nodup_cons.mp h.nodup).2
  row_lt k hk := length_rows_pivot hp ▸ h.row_lt k (List.mem_cons_of_mem i hk)
  column_pos k hk := h.column_pos k (List.mem_cons_of_mem i hk)
  column_lt k hk := columns_pivot hp ▸ h.column_lt k (List.mem_cons_of_mem i hk)

/-- The first row is not among those that come after it. -/
theorem head_notMem (h : t.Selects column (i :: rows)) : i ∉ rows := (List.nodup_cons.mp h.nodup).1

/-- The rows can be pivoted in order when no minor is zero. -/
theorem exists_pivotAll (h : t.Selects column rows) (hrect : t.Rectangular)
    (hminors : ∀ m, m ≤ rows.length → (block column t rows m).det ≠ 0) : ∃ t', t.pivotAll column rows = .ok t' := by
  induction rows generalizing t with
  | nil => exact ⟨t, rfl⟩
  | cons i rows ih =>
    obtain ⟨hzero, -⟩ | ⟨hne, t₁, ht₁⟩ := h.pivot_cases
    · exact absurd hzero (hminors 1 (by simp))
    · obtain ⟨t', ht'⟩ := ih (h.pivot ht₁) (hrect.pivot ht₁) fun m hm hzero => by
        have hdet := det_block_cons hrect ht₁ h.head_notMem hm
        rw [hzero, mul_zero] at hdet
        exact hminors (m + 1) (Nat.succ_le_succ hm) hdet
      exact ⟨t', pivotAll_cons_eq_ok_iff.mpr ⟨t₁, ht₁, ht'⟩⟩

/-- A minor that is zero makes one of the pivots meet a zero. -/
theorem pivotAll_eq_error (h : t.Selects column rows) (hrect : t.Rectangular) (hm : m ≤ rows.length)
    (hzero : (block column t rows m).det = 0) : t.pivotAll column rows = .error .zeroPivot := by
  induction m generalizing t rows with
  | zero =>
    rw [Matrix.det_isEmpty] at hzero
    exact absurd hzero one_ne_zero
  | succ m ih =>
    cases rows with
    | nil => exact absurd hm (Nat.not_succ_le_zero m)
    | cons i rows =>
      rw [pivotAll_cons_eq_error_iff]
      obtain ⟨-, hfault⟩ | ⟨hne, t₁, ht₁⟩ := h.pivot_cases
      · exact .inl hfault
      · have hm := Nat.le_of_succ_le_succ hm
        rw [det_block_one] at hne
        rw [det_block_cons hrect ht₁ h.head_notMem hm] at hzero
        exact .inr ⟨t₁, ht₁, ih (h.pivot ht₁) (hrect.pivot ht₁) hm ((mul_eq_zero.mp hzero).resolve_left hne)⟩

end Selects

/-- Pivots keep the number of rows. -/
theorem length_rows_pivotAll (hp : t.pivotAll column rows = .ok t') : t'.rows.length = t.rows.length := by
  induction rows generalizing t with
  | nil =>
    cases hp
    rfl
  | cons i rows ih =>
    obtain ⟨t₁, ht₁, hrest⟩ := pivotAll_cons_eq_ok_iff.mp hp
    rw [ih hrest, length_rows_pivot ht₁]

/-- A row that is not pivoted keeps its basic variable. -/
theorem BasicIn.pivotAll (hb : t.BasicIn l j) (hrect : t.Rectangular) (hl : l ∉ rows)
    (hp : t.pivotAll column rows = .ok t') : t'.BasicIn l j := by
  induction rows generalizing t with
  | nil =>
    cases hp
    exact hb
  | cons i rows ih =>
    obtain ⟨t₁, ht₁, hrest⟩ := pivotAll_cons_eq_ok_iff.mp hp
    rw [List.mem_cons, not_or] at hl
    refine ih ?_ (hrect.pivot ht₁) hl.2 hrest
    obtain ⟨leaving, hrow, -, -, -, rfl⟩ := pivot_eq_ok_iff.mp ht₁
    exact hb.exchange_of_ne hrect hrow hl.1

/-- A row that is pivoted has the variable of its column as its basic one in the end, for the later pivots are made
in other rows. -/
theorem Selects.basicIn (h : t.Selects column rows) (hrect : t.Rectangular) (hl : l ∈ rows)
    (hp : t.pivotAll column rows = .ok t') : t'.BasicIn l (column l) := by
  induction rows generalizing t with
  | nil => cases hl
  | cons i rows ih =>
    obtain ⟨t₁, ht₁, hrest⟩ := pivotAll_cons_eq_ok_iff.mp hp
    rcases List.mem_cons.mp hl with rfl | hl
    · refine BasicIn.pivotAll ?_ (hrect.pivot ht₁) h.head_notMem hrest
      obtain ⟨leaving, hrow, hpos, hlt, hne, rfl⟩ := pivot_eq_ok_iff.mp ht₁
      exact basicIn_exchange_self hrect hrow hpos hlt (entry_of_getElem? hrow ▸ hne)
    · exact ih (h.pivot ht₁) (hrect.pivot ht₁) hl hrest

end Tableau

end ExactSimplex
