import ExactSimplex.Proofs.Checked.Tableau
import ExactSimplex.Proofs.Program.Reachable
import ExactSimplex.Proofs.Tableau.Start

/-!
# A start that checks what it reads

The transformations of a program check that its dimensions agree. The starting basis reads the coefficients of
whole columns and enters what it finds into a place for each row, and the tableau of a program reads the cost of
each variable. In a program in which every constraint has one coefficient for each variable, nothing is missing.
-/

namespace ExactSimplex

variable {p : Program} {basis : List Nat} {c : Constraint} {slots : List (Option Nat)} {i j : Nat}

namespace Program

/-! The standard form. -/

/-- The program itself, if its dimensions agree. -/
def checkConsistent (p : Program) : Except Fault Program :=
  if p.IsConsistent then .ok p else .error .rowLength

/-- Applies the three transformations in order. -/
def checkedStandardForm (p : Program) : Except Fault StandardForm := do
  let (slacked, _) ← p.canonicalize.addSlacks
  let slacked ← slacked.checkConsistent
  let augmented ← slacked.addArtificials.1.checkConsistent
  .ok ⟨p.canonicalize, slacked, augmented⟩

theorem Accepted.isConsistent_slacked (hp : p.Accepted) : p.slacked.IsConsistent :=
  hp.isConsistent.canonicalize.addSlacks (addSlacks_canonicalize hp.artificials_eq)

theorem Accepted.isConsistent_augmented (hp : p.Accepted) : p.augmented.IsConsistent :=
  hp.isConsistent_slacked.addArtificials

/-- The dimensions of an accepted program agree on its way to the standard form. -/
theorem Accepted.checkedStandardForm_eq (hp : p.Accepted) : p.checkedStandardForm = p.standardForm := by
  have hslacked : p.slacked.checkConsistent = .ok p.slacked := if_pos hp.isConsistent_slacked
  have haugmented : p.slacked.addArtificials.1.checkConsistent = .ok p.augmented :=
    if_pos hp.isConsistent_augmented
  rw [standardForm_eq hp.artificials_eq, checkedStandardForm, addSlacks_canonicalize hp.artificials_eq, ok_bind]
  dsimp only
  rw [hslacked, ok_bind, haugmented, ok_bind]

/-! The starting basis. -/

/-- The coefficients of the variable at position `j`, by row. -/
def checkedColumn (p : Program) (j : Nat) : Except Fault (List Rat) :=
  p.constraints.mapM fun c => lookup .noColumn c.coefficients j

/-- Gives the variable at position `j` the row of its unit column, unless that row is taken. -/
def checkedTakeRow (p : Program) (slots : List (Option Nat)) (j : Nat) : Except Fault (List (Option Nat)) := do
  let column ← p.checkedColumn j
  match unitRow? column with
  | some i => do
    let slot ← lookup .noRow slots i
    .ok (slots.set i (slot.or (some (j + 1))))
  | none => .ok slots

/-- The rows as the unit columns of slack and artificial variables fill them. -/
def checkedUnitColumns (p : Program) : Except Fault (List (Option Nat)) :=
  (List.range' p.decisions (p.slacks + p.artificials)).foldlM p.checkedTakeRow
    (List.replicate p.constraints.length none)

/-- The first decision variable with coefficient `1` or `-1`, among coefficients for all of them. -/
def checkedFallbackColumn? (p : Program) (c : Constraint) : Except Fault (Option Nat) :=
  if p.decisions ≤ c.coefficients.length then .ok (p.fallbackColumn? c) else .error .noColumn

/-- The basic variable of row `i`: the one that took it, or the one to fall back on. -/
def checkedFill (p : Program) (i : Nat) : Option Nat → Except Fault (Option Nat)
  | some j => .ok (some j)
  | none => do
    let c ← lookup .noRow p.constraints i
    p.checkedFallbackColumn? c

/-- A basic variable for every row; the first row without one is reported. -/
def checkedInitialBasis (p : Program) : Except Fault (Except Failure Basis) := do
  let slots ← p.checkedUnitColumns
  let filled ← slots.zipIdx.mapM fun slot => p.checkedFill slot.2 slot.1
  .ok (match filled.findIdx? (·.isNone) with
    | some row => .error (.noInitialBasis row)
    | none => .ok {
        columns := filled.filterMap id
        fallback := (List.range slots.length).filter fun i => slots[i]? = some none })

section InitialBasis

variable (h : p.IsConsistent)

include h

theorem checkedColumn_eq (hj : j < p.variableCount) : p.checkedColumn j = .ok (p.column j) := by
  refine mapM_eq_ok_map fun c hc => ?_
  have hlt : j < c.coefficients.length := (h.2.2 c hc).symm ▸ hj
  rw [lookup_of_getElem? (List.getElem?_eq_getElem hlt), List.getElem?_eq_getElem hlt, Option.getD_some]

/-- Where there is a place for each row, the row of a unit column has one. -/
theorem checkedTakeRow_eq (hslots : slots.length = p.constraints.length) (hj : j < p.variableCount) :
    p.checkedTakeRow slots j = .ok (p.takeRow slots j) := by
  rw [checkedTakeRow, checkedColumn_eq h hj, ok_bind, takeRow]
  cases hunit : unitRow? (p.column j) with
  | none => rfl
  | some i =>
    have hone := (unitRow?_eq_some_iff.mp hunit).1
    have hi : i < slots.length := by
      have hcolumn := (List.getElem?_eq_some_iff.mp hone).1
      rw [column, List.length_map] at hcolumn
      exact hslots ▸ hcolumn
    dsimp only
    rw [lookup_of_getElem? (List.getElem?_eq_getElem hi), ok_bind, List.modify_eq_set_getElem?,
      List.getElem?_eq_getElem hi]
    rfl

theorem checkedUnitColumns_eq : p.checkedUnitColumns = .ok p.unitColumns := by
  -- Taking a row keeps the number of places, so that each unit column finds the place of its row.
  have hfold : ∀ (l : List Nat) (slots : List (Option Nat)), (∀ j ∈ l, j < p.variableCount) →
      slots.length = p.constraints.length → l.foldlM p.checkedTakeRow slots = .ok (l.foldl p.takeRow slots) := by
    intro l
    induction l with
    | nil => exact fun _ _ _ => rfl
    | cons j l ih =>
      intro slots hl hslots
      obtain ⟨hj, hrest⟩ := List.forall_mem_cons.mp hl
      rw [List.foldlM_cons, checkedTakeRow_eq h hslots hj, ok_bind, List.foldl_cons]
      exact ih _ hrest ((p.length_takeRow slots j).trans hslots)
  exact hfold _ _ (fun j hj => (mem_range'_unitColumns.mp hj).2) List.length_replicate

theorem checkedFill_eq (hc : p.constraints[i]? = some c) (slot : Option Nat) :
    p.checkedFill i slot = .ok (slot.or (p.fallbackColumn? c)) := by
  cases slot with
  | some j => rfl
  | none =>
    have hle : p.decisions ≤ c.coefficients.length := by
      rw [h.2.2 c (List.mem_of_getElem? hc), variableCount]
      omega
    rw [checkedFill, lookup_of_getElem? hc, ok_bind, checkedFallbackColumn?, if_pos hle]
    rfl

theorem checkedInitialBasis_eq : p.checkedInitialBasis = .ok p.initialBasis := by
  have hlength := p.length_unitColumns
  have hfilled : (p.unitColumns.zipIdx.mapM fun slot => p.checkedFill slot.2 slot.1) =
      .ok (p.unitColumns.zipIdx.map fun slot => slot.1.or (p.constraints[slot.2]?.bind p.fallbackColumn?)) := by
    refine mapM_eq_ok_map fun slot hslot => ?_
    have hi := (List.getElem?_eq_some_iff.mp (List.mem_zipIdx_iff_getElem?.mp hslot)).1
    have hc := List.getElem?_eq_getElem (hlength ▸ hi)
    rw [checkedFill_eq h hc, hc, Option.bind_some]
  have hzip : (p.unitColumns.zipIdx.map fun slot => slot.1.or (p.constraints[slot.2]?.bind p.fallbackColumn?)) =
      List.zipWith (fun slot c => slot.or (p.fallbackColumn? c)) p.unitColumns p.constraints := by
    apply List.ext_getElem
    · simp [hlength]
    · intro i hi hi'
      have hlt : i < p.constraints.length := by
        rw [List.length_zipWith] at hi'
        omega
      simp [List.getElem?_eq_getElem hlt]
  rw [hzip] at hfilled
  rw [checkedInitialBasis, checkedUnitColumns_eq h, ok_bind, hfilled, ok_bind]
  rfl

end InitialBasis

/-! The starting tableau. -/

/-- The cost of the variable of column `j`. -/
def checkedCost (p : Program) (j : Nat) : Except Fault Cost :=
  if j = 0 then .error .basisColumn else lookup .noColumn p.costs (j - 1)

theorem checkedCost_eq (hpos : 0 < j) (hj : j ≤ p.variableCount) :
    p.checkedCost j = .ok (p.costs[j - 1]?.getD 0) := by
  have hlt : j - 1 < p.costs.length := by
    rw [length_costs]
    omega
  rw [checkedCost, if_neg hpos.ne', lookup_of_getElem? (List.getElem?_eq_getElem hlt),
    List.getElem?_eq_getElem hlt, Option.getD_some]

end Program

namespace Tableau

variable {t : Tableau}

/-- The tableau of a program with one basic variable for each constraint, given by its column. -/
def checkedOfProgram (p : Program) (basis : List Nat) : Except Fault Tableau :=
  if basis.length ≠ p.constraints.length then .error .basisLength
  else if ∃ j ∈ basis, j = 0 ∨ p.variableCount < j then .error .basisColumn
  else do
    let heads ← basis.mapM fun j => do
      let cost ← p.checkedCost j
      .ok (variableName j, cost)
    let columns ← (List.range' 1 p.variableCount).mapM fun j => do
      let cost ← p.checkedCost j
      .ok (⟨columnName j, some cost⟩ : Column)
    let t ← make p.sense heads (⟨columnName 0, none⟩ :: columns)
      (p.constraints.map fun c => c.bound :: c.coefficients)
    t.checkPrices

/-- The tableau of a program in which the variables of a starting basis are basic. -/
def checkedOfBasis (p : Program) (basis : Basis) : Except Fault Tableau := do
  let t ← checkedOfProgram p basis.columns
  basis.fallback.foldlM (fun t i => do
    let j ← lookup .noRow basis.columns i
    t.checkedPivot i j) t

/-- A tableau that can be made has a shape. -/
theorem shaped_of_make {sense : Sense} {heads : List (String × Cost)} {columns : List Column}
    {values : List (List Rat)} (h : make sense heads columns values = .ok t) : t.Shaped := by
  unfold make at h
  split at h
  · cases h
  · split at h
    · cases h
    · rename_i hlengths
      split at h
      · cases h
      · rename_i hconstant
        cases h
        refine ⟨fun r hr => ?_, ?_⟩
        · obtain ⟨i, hi⟩ := List.mem_iff_getElem?.mp hr
          obtain ⟨head, row, -, hrow, rfl⟩ := List.getElem?_zipWith_eq_some.mp hi
          by_contra hne
          exact hlengths ⟨row, List.mem_of_getElem? hrow, hne⟩
        · rw [List.length_pos_iff]
          rintro rfl
          exact hconstant (by simp)

/-- The columns of a program, by the costs of its variables. -/
theorem cons_map_range'_eq_columnsOf (p : Program) :
    (⟨columnName 0, none⟩ :: (List.range' 1 p.variableCount).map fun j =>
      (⟨columnName j, some (p.costs[j - 1]?.getD 0)⟩ : Column)) = columnsOf p := by
  rw [columnsOf]
  congr 1
  apply List.ext_getElem
  · simp
  · intro j hj hj'
    rw [List.length_map, List.length_range', ← Program.length_costs] at hj
    simp [List.getElem?_eq_getElem hj, Nat.add_comm 1]

/-- Where the columns of the basis belong to variables, nothing is missing. -/
theorem checkedOfProgram_eq (p : Program) (basis : List Nat) : checkedOfProgram p basis = ofProgram p basis := by
  unfold checkedOfProgram ofProgram
  by_cases hlength : basis.length ≠ p.constraints.length
  · rw [if_pos hlength, if_pos hlength]
  · rw [if_neg hlength, if_neg hlength]
    by_cases hout : ∃ j ∈ basis, j = 0 ∨ p.variableCount < j
    · rw [if_pos hout, if_pos hout]
    · have hheads : (basis.mapM fun j => do
          let cost ← p.checkedCost j
          Except.ok (variableName j, cost)) =
            .ok (basis.map fun j => (variableName j, p.costs[j - 1]?.getD 0)) := by
        refine mapM_eq_ok_map fun j hj => ?_
        have hpos : 0 < j := Nat.pos_of_ne_zero fun hzero => hout ⟨j, hj, .inl hzero⟩
        have hle : j ≤ p.variableCount := not_lt.mp fun hlt => hout ⟨j, hj, .inr hlt⟩
        rw [Program.checkedCost_eq hpos hle, ok_bind]
      have hcolumns : ((List.range' 1 p.variableCount).mapM fun j => do
          let cost ← p.checkedCost j
          Except.ok (⟨columnName j, some cost⟩ : Column)) =
            .ok ((List.range' 1 p.variableCount).map fun j => ⟨columnName j, some (p.costs[j - 1]?.getD 0)⟩) := by
        refine mapM_eq_ok_map fun j hj => ?_
        rw [List.mem_range'_1] at hj
        rw [Program.checkedCost_eq hj.1 (by omega), ok_bind]
      rw [if_neg hout, if_neg hout, hheads, ok_bind, hcolumns, ok_bind, cons_map_range'_eq_columnsOf]
      exact bind_checkPrices fun _ => shaped_of_make

/-- Without rows that fell back on a decision variable there is no pivot. -/
theorem checkedOfBasis_eq (p : Program) (columns : List Nat) :
    checkedOfBasis p ⟨columns, []⟩ = ofBasis p ⟨columns, []⟩ := by
  rw [checkedOfBasis, ofBasis, checkedOfProgram_eq]
  rfl

end Tableau

end ExactSimplex
