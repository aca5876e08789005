import ExactSimplex.Proofs.Tableau.Operations
import ExactSimplex.Proofs.Tableau.Stored

/-!
# Sequences of operations on stored tableaus

A stored tableau is well formed when its parts agree: the heads with the grid, the grid with the columns, the
name index with the heads, and the row of reduced costs with all of them. Every admissible operation can be
carried out and keeps these agreements, and so does a sequence of them. In what they lead to, the basic solution
solves the equations at the cost that the row of reduced costs tells.
-/

namespace ExactSimplex

open Finset

namespace Sheet

/-! What is stored. -/

/-- The cost at the head of row `i`. -/
def basicCost (s : Sheet) (i : Nat) : Cost := (s.heads[i]?.map (·.2)).getD 0

/-- The assignment satisfies the equations of all rows. -/
def Holds (s : Sheet) (x : Assignment) : Prop := ∀ row ∈ s.grid, weigh x 1 row.tail = row[0]?.getD 0

/-- What an assignment to the variables of the columns costs. -/
def costAt (s : Sheet) (x : Assignment) : Cost := ∑ j ∈ Ico 1 s.columns.length, x j • s.price j

/-- The variable of column `j` is basic in row `i`: it heads the row, at its own cost, and its column of the
grid is the unit vector of the row. -/
structure BasicIn (s : Sheet) (i j : Nat) : Prop where
  pos : 0 < j
  lt : j < s.columns.length
  head : s.heads[i]? = some (variableName j, s.price j)
  entry : ∀ k, k < s.grid.length → s.entry k j = if k = i then 1 else 0

/-- The parts of what is stored agree. -/
structure WellFormed (s : Sheet) : Prop where
  rowCount : s.heads.length = s.grid.length
  rectangular : ∀ row ∈ s.grid, row.length = s.columns.length
  cost_eq_none_iff : ∀ j, j < s.columns.length → ((s.columns[j]?.bind (·.cost)) = none ↔ j = 0)
  nonempty : 0 < s.columns.length
  basic : ∀ i, i < s.heads.length → ∃ j, s.BasicIn i j
  names_nodup : s.names.Nodup
  rowOf?_eq_some_iff : ∀ name i, s.rowOf? name = some i ↔ s.names[i]? = some name
  length_reducedCosts : s.reducedCosts.length = s.columns.length
  reducedCosts : ∀ j, j < s.columns.length → s.reducedCosts[j]? =
    some (∑ i ∈ range s.heads.length, s.entry i j • s.basicCost i - s.price j)
  fits : ∀ ratios, s.ratios = some ratios → s.Fits ratios

/-! Operations. -/

/-- Carries out an operation. -/
def perform (s : Sheet) : Operation → Except Fault Sheet
  | .pivot i j => (s.pivot i j).map (·.1)
  | .removeRow i => s.removeRow i
  | .truncate n => s.truncate n
  | .appendRow values => s.appendRow values
  | .record ratios => s.record ratios

/-- The operands of the operation exist. A pivot element is not zero, no basic column is cut off, and an
appended row is zero in the basic columns and ends in one. -/
def Admits (s : Sheet) : Operation → Prop
  | .pivot i j => i < s.heads.length ∧ 0 < j ∧ j < s.columns.length ∧ s.entry i j ≠ 0
  | .removeRow i => i < s.heads.length
  | .truncate n => 0 < n ∧ n ≤ s.columns.length ∧
      ∀ j, j < s.columns.length → variableName j ∈ s.names → j < n
  | .appendRow values => values.length = s.columns.length + 1 ∧
      (∀ j, j < s.columns.length → variableName j ∈ s.names → values[j]?.getD 0 = 0) ∧
      values.getLast? = some 1
  | .record ratios => s.Fits ratios

instance (s : Sheet) (operation : Operation) : Decidable (s.Admits operation) :=
  match operation with
  | .pivot i j =>
    inferInstanceAs (Decidable (i < s.heads.length ∧ 0 < j ∧ j < s.columns.length ∧ s.entry i j ≠ 0))
  | .removeRow i => inferInstanceAs (Decidable (i < s.heads.length))
  | .truncate n => inferInstanceAs (Decidable (0 < n ∧ n ≤ s.columns.length ∧
      ∀ j, j < s.columns.length → variableName j ∈ s.names → j < n))
  | .appendRow values => inferInstanceAs (Decidable (values.length = s.columns.length + 1 ∧
      (∀ j, j < s.columns.length → variableName j ∈ s.names → values[j]?.getD 0 = 0) ∧
      values.getLast? = some 1))
  | .record ratios => inferInstanceAs (Decidable (s.Fits ratios))

/-- Carries out the operations in order, up to the first that is at fault. -/
def performAll : Sheet → List Operation → Except Fault Sheet
  | s, [] => .ok s
  | s, operation :: operations =>
    match s.perform operation with
    | .ok s' => s'.performAll operations
    | .error fault => .error fault

/-- Each operation is admissible in what the ones before it lead to. -/
def AdmitsAll : Sheet → List Operation → Prop
  | _, [] => True
  | s, operation :: operations =>
    s.Admits operation ∧ ∀ s', s.perform operation = .ok s' → s'.AdmitsAll operations

instance decidableAdmitsAll : (s : Sheet) → (operations : List Operation) → Decidable (s.AdmitsAll operations)
  | _, [] => isTrue trivial
  | s, operation :: operations =>
    match h : s.perform operation with
    | .ok s' =>
      have := decidableAdmitsAll s' operations
      decidable_of_iff (s.Admits operation ∧ s'.AdmitsAll operations) (by simp [AdmitsAll, h])
    | .error fault => decidable_of_iff (s.Admits operation) (by simp [AdmitsAll, h])

end Sheet

namespace Tableau

variable {t : Tableau} {operation : Operation} {operations : List Operation} {i j : Nat} {x : Assignment}

/-! Stored forms of tableaus. -/

theorem length_heads_sheet (t : Tableau) : t.sheet.heads.length = t.rows.length := List.length_map ..

theorem length_grid_sheet (t : Tableau) : t.sheet.grid.length = t.rows.length := List.length_map ..

theorem basicCost_sheet (t : Tableau) (i : Nat) : t.sheet.basicCost i = t.basicCost i := by
  rw [Sheet.basicCost, sheet, List.getElem?_map, Option.map_map]
  rfl

theorem holds_sheet : t.sheet.Holds x ↔ t.Holds x := List.forall_mem_map

theorem costAt_sheet (t : Tableau) (x : Assignment) : t.sheet.costAt x = t.costAt x := rfl

/-- In store a variable is basic where it is basic in the tableau. -/
theorem basicIn_sheet : t.sheet.BasicIn i j ↔ t.BasicIn i j := by
  have hhead : t.sheet.heads[i]? = t.rows[i]?.map fun r => (r.name, r.cost) := List.getElem?_map ..
  constructor
  · intro h
    obtain ⟨r, hrow, hr⟩ := Option.map_eq_some_iff.mp (hhead.symm.trans h.head)
    obtain ⟨hname, hcost⟩ := Prod.mk.inj hr
    have hentry : ∀ k, k < t.rows.length → t.entry k j = if k = i then 1 else 0 := by
      intro k hk
      rw [← entry_sheet, h.entry k (t.length_grid_sheet ▸ hk)]
    refine .of_row hrow h.pos h.lt hname hcost ?_ fun k hk hne => ?_
    · rw [hentry i (List.getElem?_eq_some_iff.mp hrow).1, if_pos rfl]
    · rw [hentry k hk, if_neg hne]
  · intro h
    obtain ⟨r, hrow, hname, hcost⟩ := h.exists_row
    refine ⟨h.pos, h.lt, ?_, fun k hk => ?_⟩
    · rw [hhead, hrow, Option.map_some, hname, hcost]
      rfl
    · rw [entry_sheet]
      split
      · rename_i hk
        rw [hk, h.entry_self]
      · rename_i hne
        exact h.entry_other k (t.length_grid_sheet ▸ hk) hne

/-- The row of reduced costs is stored as it belongs to the rows and costs. -/
theorem getElem?_reducedCosts_sheet (hj : j < t.columns.length) : t.sheet.reducedCosts[j]? =
    some (∑ i ∈ range t.sheet.heads.length, t.sheet.entry i j • t.sheet.basicCost i - t.sheet.price j) := by
  have hstored : t.sheet.reducedCosts = t.reducedCosts := rfl
  rw [hstored, getElem?_reducedCosts, if_pos hj, reducedCost_eq_sum, length_heads_sheet]
  simp only [entry_sheet, basicCost_sheet]
  rfl

/-- The stored form of a tableau is well formed when the tableau is. -/
theorem wellFormed_sheet : t.sheet.WellFormed ↔ t.WellFormed := by
  constructor
  · intro h
    refine ⟨List.forall_mem_map.mp h.rectangular, h.cost_eq_none_iff, h.nonempty, fun i hi => ?_, ?_, ?_, ?_⟩
    · obtain ⟨j, hj⟩ := h.basic i (t.length_heads_sheet ▸ hi)
      exact ⟨j, basicIn_sheet.mp hj⟩
    · exact t.names_sheet ▸ h.names_nodup
    · exact t.names_sheet ▸ h.rowOf?_eq_some_iff
    · exact fun ratios hratios => fits_sheet.mp (h.fits ratios hratios)
  · intro h
    refine ⟨?_, List.forall_mem_map.mpr h.rectangular, h.cost_eq_none_iff, h.nonempty, fun i hi => ?_, ?_, ?_,
      t.length_reducedCosts, fun j => getElem?_reducedCosts_sheet, ?_⟩
    · rw [length_heads_sheet, length_grid_sheet]
    · obtain ⟨j, hj⟩ := h.basic i (t.length_heads_sheet ▸ hi)
      exact ⟨j, basicIn_sheet.mpr hj⟩
    · exact t.names_sheet.symm ▸ h.names_nodup
    · exact t.names_sheet.symm ▸ h.rowOf?_eq_some_iff
    · exact fun ratios hratios => fits_sheet.mpr (h.fits ratios hratios)

theorem admits_sheet : t.sheet.Admits operation ↔ t.Admits operation := by
  cases operation with
  | pivot i j => rw [Sheet.Admits, Admits, length_heads_sheet, entry_sheet]; rfl
  | removeRow i => rw [Sheet.Admits, Admits, length_heads_sheet]
  | truncate n => rw [Sheet.Admits, Admits, names_sheet]; rfl
  | appendRow values => rw [Sheet.Admits, Admits, names_sheet]; rfl
  | record ratios => exact fits_sheet

/-- An operation in store leaves the stored form of what it makes of the tableau. -/
theorem perform_sheet (hrect : t.Rectangular) (operation : Operation) :
    t.sheet.perform operation = (t.perform operation).map sheet := by
  cases operation with
  | pivot i j =>
    rw [Sheet.perform, perform, pivot_sheet hrect]
    cases t.pivot i j <;> rfl
  | removeRow i => exact t.removeRow_sheet i
  | truncate n => exact t.truncate_sheet n
  | appendRow values => exact t.appendRow_sheet values
  | record ratios => exact t.record_sheet ratios

/-- So do all operations of a sequence, and they are at fault in store where they are in the tableau. -/
theorem performAll_sheet (hrect : t.Rectangular) (operations : List Operation) :
    t.sheet.performAll operations = (t.performAll operations).map sheet := by
  induction operations generalizing t with
  | nil => rfl
  | cons operation operations ih =>
    rw [Sheet.performAll, performAll, perform_sheet hrect]
    cases ht : t.perform operation with
    | error fault => rfl
    | ok t' => exact ih (hrect.perform ht)

end Tableau

namespace Sheet

variable {s : Sheet} {operation : Operation} {operations : List Operation} {i j : Nat}

/-! Well-formed sheets are stored tableaus. -/

section

variable (h : s.WellFormed)

include h

theorem WellFormed.heads_sheet_tableau : s.tableau.sheet.heads = s.heads := Tableau.map_head_zipWith h.rowCount

theorem WellFormed.grid_sheet_tableau : s.tableau.sheet.grid = s.grid := Tableau.map_values_zipWith h.rowCount

/-- The stored row of reduced costs is the one that belongs to the tableau. -/
theorem WellFormed.reducedCosts_tableau : s.tableau.reducedCosts = s.reducedCosts := by
  apply List.ext_getElem?
  intro j
  by_cases hj : j < s.columns.length
  · refine (Tableau.getElem?_reducedCosts_sheet hj).trans ?_
    rw [h.reducedCosts j hj]
    simp only [entry, basicCost, price, h.heads_sheet_tableau, h.grid_sheet_tableau]
    rfl
  · have hlength : s.tableau.reducedCosts.length = s.columns.length := s.tableau.length_reducedCosts
    rw [List.getElem?_eq_none (by omega), List.getElem?_eq_none (by rw [h.length_reducedCosts]; omega)]

/-- What is well formed stores its tableau. -/
theorem WellFormed.sheet_tableau : s.tableau.sheet = s :=
  Sheet.ext rfl h.heads_sheet_tableau rfl h.grid_sheet_tableau h.reducedCosts_tableau rfl rfl

theorem WellFormed.tableau : s.tableau.WellFormed := Tableau.wellFormed_sheet.mp (h.sheet_tableau.symm ▸ h)

/-- Nothing changes when its row of reduced costs is written anew. -/
theorem WellFormed.refresh_eq : s.refresh = s := by
  have hrefresh := s.tableau.refresh_sheet s.tableau.reducedCosts
  rw [h.sheet_tableau] at hrefresh
  exact hrefresh

end

/-! Operations. -/

/-- An admissible operation can be carried out and keeps what is stored well formed. -/
theorem WellFormed.exists_perform (h : s.WellFormed) (hadmits : s.Admits operation) :
    ∃ s', s.perform operation = .ok s' ∧ s'.WellFormed := by
  obtain ⟨t, rfl⟩ : ∃ t : Tableau, t.sheet = s := ⟨s.tableau, h.sheet_tableau⟩
  have hwell := Tableau.wellFormed_sheet.mp h
  have hadmits' := Tableau.admits_sheet.mp hadmits
  obtain ⟨t', ht'⟩ := Tableau.exists_perform hadmits'
  refine ⟨t'.sheet, ?_, Tableau.wellFormed_sheet.mpr (hwell.perform hadmits' ht')⟩
  rw [Tableau.perform_sheet hwell.rectangular, ht']
  rfl

/-- So can a sequence of admissible operations. -/
theorem WellFormed.exists_performAll (h : s.WellFormed) (hadmits : s.AdmitsAll operations) :
    ∃ s', s.performAll operations = .ok s' ∧ s'.WellFormed := by
  induction operations generalizing s with
  | nil => exact ⟨s, rfl, h⟩
  | cons operation operations ih =>
    obtain ⟨hfirst, hrest⟩ := hadmits
    obtain ⟨s₁, hs₁, hwell⟩ := h.exists_perform hfirst
    obtain ⟨s', hs', hwell'⟩ := ih hwell (hrest s₁ hs₁)
    refine ⟨s', ?_, hwell'⟩
    rw [performAll, hs₁]
    exact hs'

/-- Admissible operations lead from what is well formed to what is well formed: its row of reduced costs in
particular was written anew behind the last change. The basic solution there solves the equations, the stored
reduced costs of the basic variables are zero, and the entry in the column of right-hand sides is the cost of the
basic solution. -/
theorem wellFormed_of_performAll (h : s.WellFormed) (hadmits : s.AdmitsAll operations) :
    ∃ s', s.performAll operations = .ok s' ∧ s'.WellFormed ∧ s'.Holds s'.variableValue ∧
      (∀ i j, s'.BasicIn i j → s'.reducedCosts[j]? = some 0) ∧
      s'.reducedCosts[0]? = some (s'.costAt s'.variableValue) := by
  obtain ⟨s', hs', hwell⟩ := h.exists_performAll hadmits
  refine ⟨s', hs', hwell, ?_⟩
  obtain ⟨t, rfl⟩ : ∃ t : Tableau, t.sheet = s' := ⟨s'.tableau, hwell.sheet_tableau⟩
  have htableau := Tableau.wellFormed_sheet.mp hwell
  have hget : ∀ j, j < t.columns.length → t.sheet.reducedCosts[j]? = some (t.reducedCost j) := by
    intro j hj
    exact (t.getElem?_reducedCosts j).trans (if_pos hj)
  have hvalue : t.sheet.variableValue = t.variableValue := funext t.variableValue_sheet
  rw [hvalue]
  refine ⟨Tableau.holds_sheet.mpr htableau.holds_variableValue, fun i j hb => ?_, ?_⟩
  · rw [hget j hb.lt, (Tableau.basicIn_sheet.mp hb).reducedCost_eq_zero]
  · rw [hget 0 htableau.nonempty, Tableau.costAt_sheet, htableau.costAt_variableValue, Tableau.objectiveValue]

/-- Two products that share two resources, with a slack variable for each resource. -/
def products : Program where
  sense := .maximize
  objective := [2, 3]
  slackCosts := [0, 0]
  artificialCosts := []
  constraints := [⟨[1, 1, 1, 0], .le, 4⟩, ⟨[1, 3, 0, 1], .le, 6⟩]

/-- Both products enter the basis, a row is appended and its variable leaves at once for a slack variable;
then the second product is removed with its row, and with it the columns behind the basic ones. -/
def rebuild : List Operation :=
  [.record (.primal [some 4, some 6]), .pivot 0 1, .pivot 1 2,
    .appendRow [-1 / 2, 0, 0, -1 / 2, -1 / 2, 1],
    .record (.dual [none, none, none, some 3, some 1, none]), .pivot 2 3, .removeRow 1, .truncate 4]

theorem wellFormed_rebuild : ∃ s, ofProgram products [3, 4] = .ok s ∧ s.WellFormed ∧ s.AdmitsAll rebuild ∧
    ∃ s', s.performAll rebuild = .ok s' ∧ s'.WellFormed ∧ s'.Holds s'.variableValue := by
  have hcolumns : ∀ i (hi : i < [3, 4].length), 0 < [3, 4][i] ∧ [3, 4][i] ≤ products.variableCount ∧
      unitRow? (products.column ([3, 4][i] - 1)) = some i := by decide +kernel
  have hunit : ∀ i j, [3, 4][i]? = some j → 0 < j ∧ j ≤ products.variableCount ∧ products.UnitAt i (j - 1) := by
    intro i j hj
    obtain ⟨hi, rfl⟩ := List.getElem?_eq_some_iff.mp hj
    obtain ⟨hpos, hle, hrow⟩ := hcolumns i hi
    exact ⟨hpos, hle, (Program.unitRow?_column hi).mp hrow⟩
  have hmade : ofProgram products [3, 4] = .ok (Tableau.start products [3, 4]).sheet := by
    rw [Tableau.sheet_ofProgram, Tableau.ofProgram_eq_start rfl hunit (by decide)]
    rfl
  have hwell : (Tableau.start products [3, 4]).sheet.WellFormed :=
    Tableau.wellFormed_sheet.mpr (Tableau.wellFormed_start rfl hunit (by decide))
  have hadmits : (Tableau.start products [3, 4]).sheet.AdmitsAll rebuild := by decide +kernel
  obtain ⟨s', hs', hfinal, hholds, -⟩ := wellFormed_of_performAll hwell hadmits
  exact ⟨_, hmade, hwell, hadmits, s', hs', hfinal, hholds⟩

end Sheet

end ExactSimplex
