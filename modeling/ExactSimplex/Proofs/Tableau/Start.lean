import ExactSimplex.Proofs.Program.Costs
import ExactSimplex.Proofs.Program.UnitBasis
import ExactSimplex.Proofs.Tableau.Equations
import ExactSimplex.Tableau.Start

/-!
# The starting tableau of a program

On a basis of unit columns the tableau of a program has one row for each constraint and needs no pivot. It
is well formed, and its solutions are those of the constraints read as equations.
-/

namespace ExactSimplex.Tableau

variable {t : Tableau} {q : Program} {basis : List Nat} {c : Constraint} {i j : Nat} {x : Assignment}

/-! The columns of a program. -/

@[simp] theorem length_columnsOf (q : Program) : (columnsOf q).length = q.variableCount + 1 := by
  simp [columnsOf]

/-- The column of right-hand sides is the only one without a cost. -/
theorem cost_columnsOf_eq_none_iff (hj : j < (columnsOf q).length) :
    ((columnsOf q)[j]?.bind (·.cost)) = none ↔ j = 0 := by
  cases j with
  | zero => simp [columnsOf]
  | succ j =>
    rw [length_columnsOf, Nat.add_lt_add_iff_right, ← Program.length_costs] at hj
    simp [columnsOf, List.getElem?_eq_getElem hj]

/-- Every variable has its cost in the program. -/
theorem price_eq (h : t.columns = columnsOf q) (hpos : 0 < j) : t.price j = q.costs[j - 1]?.getD 0 := by
  obtain ⟨j, rfl⟩ := Nat.exists_eq_succ_of_ne_zero hpos.ne'
  rw [price, h, columnsOf, List.getElem?_cons_succ, List.getElem?_mapIdx, Nat.succ_eq_add_one,
    Nat.add_sub_cancel]
  cases q.costs[j]? <;> rfl

/-- A decision variable has its coefficient in the objective as cost. -/
theorem price_decision (h : t.columns = columnsOf q) (hpos : 0 < j) (hj : j ≤ q.decisions) :
    t.price j = Cost.ofRat (q.objective[j - 1]?.getD 0) := by
  rw [price_eq h hpos, Program.getElem?_costs_decision (by omega), Option.getD_some]

/-- A slack variable costs nothing, where it has the cost that belongs to it. -/
theorem price_slack (hq : q.Priced) (h : t.columns = columnsOf q) (hj : q.decisions < j)
    (hle : j ≤ q.decisions + q.slacks) : t.price j = 0 := by
  rw [price_eq h (Nat.zero_lt_of_lt hj), hq.getElem?_costs_slack (by omega) (by omega), Option.getD_some]

/-- An artificial variable then costs the large constant, against the direction of optimization. -/
theorem price_artificial (hq : q.Priced) (h : t.columns = columnsOf q) (hj : q.decisions + q.slacks < j)
    (hlt : j < t.columns.length) : t.price j = q.sense.artificialCost := by
  rw [h, length_columnsOf] at hlt
  rw [price_eq h (Nat.zero_lt_of_lt hj), hq.getElem?_costs_artificial (by omega) (by omega),
    Option.getD_some]

/-! The rows of a program. -/

/-- The row of a constraint in which the variable of column `j` is basic. -/
def startRow (q : Program) (j : Nat) (c : Constraint) : Row :=
  ⟨variableName j, q.costs[j - 1]?.getD 0, c.bound :: c.coefficients⟩

/-- The tableau of a program on a basis. -/
def start (q : Program) (basis : List Nat) : Tableau where
  sense := q.sense
  rows := List.zipWith (startRow q) basis q.constraints
  columns := columnsOf q
  ratios := none
  index := NameIndex.ofNames 0 (basis.map variableName)

section

variable (hbasis : basis.length = q.constraints.length)

include hbasis

theorem length_rows_start : (start q basis).rows.length = q.constraints.length := by
  rw [start, List.length_zipWith, hbasis, Nat.min_self]

theorem getElem?_rows_start (hc : q.constraints[i]? = some c) :
    ∃ j, basis[i]? = some j ∧ (start q basis).rows[i]? = some (startRow q j c) := by
  have hi : i < basis.length := hbasis ▸ (List.getElem?_eq_some_iff.mp hc).1
  refine ⟨basis[i], List.getElem?_eq_getElem hi, ?_⟩
  rw [start, List.getElem?_zipWith, List.getElem?_eq_getElem hi, hc]

theorem exists_of_mem_rows_start {r : Row} (hr : r ∈ (start q basis).rows) :
    ∃ j, ∃ c ∈ q.constraints, r = startRow q j c := by
  obtain ⟨i, hi⟩ := List.mem_iff_getElem?.mp hr
  have hlt : i < q.constraints.length := by
    rw [← length_rows_start hbasis]
    exact (List.getElem?_eq_some_iff.mp hi).1
  obtain ⟨j, -, hrow⟩ := getElem?_rows_start hbasis (List.getElem?_eq_getElem hlt)
  rw [hi, Option.some.injEq] at hrow
  exact ⟨j, _, List.getElem_mem hlt, hrow⟩

theorem names_start : (start q basis).names = basis.map variableName := by
  apply List.ext_getElem
  · rw [names, List.length_map, length_rows_start hbasis, List.length_map, hbasis]
  · intro i hi hi'
    simp [names, start, startRow]

/-- The rows mean the constraints, read as equations. -/
theorem holds_start : (start q basis).Holds x ↔ q.Tight x := by
  constructor
  · intro h c hc
    obtain ⟨i, hi⟩ := List.mem_iff_getElem?.mp hc
    obtain ⟨j, -, hrow⟩ := getElem?_rows_start hbasis hi
    exact h _ (List.mem_of_getElem? hrow)
  · intro h r hr
    obtain ⟨j, c, hc, rfl⟩ := exists_of_mem_rows_start hbasis hr
    exact h c hc

/-- Where no right-hand side is negative, the starting tableau is feasible. -/
theorem isFeasible_start (hbound : ∀ c ∈ q.constraints, 0 ≤ c.bound) : (start q basis).IsFeasible := by
  intro r hr
  obtain ⟨j, c, hc, rfl⟩ := exists_of_mem_rows_start hbasis hr
  exact not_lt.mpr (hbound c hc)

/-- A constraint has its coefficients in the columns of the variables. -/
theorem entry_start (hc : q.constraints[i]? = some c) (hpos : 0 < j) :
    (start q basis).entry i j = c.coefficients[j - 1]?.getD 0 := by
  obtain ⟨l, -, hrow⟩ := getElem?_rows_start hbasis hc
  obtain ⟨m, rfl⟩ := Nat.exists_eq_succ_of_ne_zero hpos.ne'
  rw [entry_of_getElem? hrow, Row.entry, startRow, List.getElem?_cons_succ]
  rfl

/-- A variable that stands at the head of its row is basic there when its column is the unit vector of the row. -/
theorem basicIn_start_of_unitAt (hj : basis[i]? = some j) (hpos : 0 < j) (hle : j ≤ q.variableCount)
    (hcolumn : q.UnitAt i (j - 1)) : (start q basis).BasicIn i j := by
  have hentry : ∀ k, k < q.constraints.length → (start q basis).entry k j = if k = i then 1 else 0 := by
    intro k hk
    have hc := List.getElem?_eq_getElem hk
    rw [entry_start hbasis hc hpos, hcolumn k _ hc]
  have hi : i < q.constraints.length := hbasis ▸ (List.getElem?_eq_some_iff.mp hj).1
  obtain ⟨l, hl, hrow⟩ := getElem?_rows_start hbasis (List.getElem?_eq_getElem hi)
  rw [hj, Option.some.injEq] at hl
  subst hl
  refine .of_row hrow hpos ?_ rfl ?_ ?_ ?_
  · exact (length_columnsOf q).symm ▸ Nat.lt_succ_of_le hle
  · exact (price_eq rfl hpos).symm
  · rw [hentry i hi, if_pos rfl]
  · intro k hk hki
    rw [hentry k (length_rows_start hbasis ▸ hk), if_neg hki]

section

variable (hlength : ∀ c ∈ q.constraints, c.coefficients.length = q.variableCount)

include hlength

/-- Every row has a right-hand side and one value for each variable. -/
theorem rectangular_start : (start q basis).Rectangular := by
  intro r hr
  obtain ⟨j, c, hc, rfl⟩ := exists_of_mem_rows_start hbasis hr
  rw [startRow, List.length_cons, hlength c hc]
  exact (length_columnsOf q).symm

/-- On any choice of variables the program has the starting tableau. -/
theorem ofProgram_eq_start_of_range (hrange : ∀ (i j : Nat), basis[i]? = some j → 0 < j ∧ j ≤ q.variableCount) :
    ofProgram q basis = .ok (start q basis) := by
  have hcolumns : ¬ ∃ j ∈ basis, j = 0 ∨ q.variableCount < j := by
    rintro ⟨j, hj, hout⟩
    obtain ⟨i, hi⟩ := List.mem_iff_getElem?.mp hj
    obtain ⟨hpos, hle⟩ := hrange i j hi
    omega
  have hrows : ¬ ∃ row ∈ q.constraints.map fun c => c.bound :: c.coefficients,
      row.length ≠ (columnsOf q).length := by
    rintro ⟨row, hrow, hne⟩
    obtain ⟨c, hc, rfl⟩ := List.mem_map.mp hrow
    rw [List.length_cons, hlength c hc, length_columnsOf] at hne
    exact hne rfl
  have hcount : ¬ (basis.map fun j => (variableName j, q.costs[j - 1]?.getD 0)).length ≠
      (q.constraints.map fun c => c.bound :: c.coefficients).length := by
    rw [List.length_map, List.length_map]
    exact not_not.mpr hbasis
  have hconstant : ¬ (columnsOf q).head?.map (·.cost) ≠ some none := by simp [columnsOf]
  rw [ofProgram, if_neg (not_not.mpr hbasis), if_neg hcolumns, make, if_neg hcount, if_neg hrows,
    if_neg hconstant]
  congr 1
  rw [start, List.zipWith_map, List.map_map]
  rfl

end

section

variable (hunit : ∀ i j, basis[i]? = some j → 0 < j ∧ j ≤ q.variableCount ∧ q.UnitAt i (j - 1))
  (hlength : ∀ c ∈ q.constraints, c.coefficients.length = q.variableCount)

include hunit

/-- The variables of the basis are basic in their rows. -/
theorem basicIn_start (hj : basis[i]? = some j) : (start q basis).BasicIn i j := by
  obtain ⟨hpos, hle, hcolumn⟩ := hunit i j hj
  exact basicIn_start_of_unitAt hbasis hj hpos hle hcolumn

include hlength

/-- The starting tableau is well formed. -/
theorem wellFormed_start : (start q basis).WellFormed := by
  have hbasic : ∀ i, i < (start q basis).rows.length → ∃ j, (start q basis).BasicIn i j := by
    intro i hi
    rw [length_rows_start hbasis, ← hbasis] at hi
    exact ⟨_, basicIn_start hbasis hunit (List.getElem?_eq_getElem hi)⟩
  have hnodup := names_nodup_of_basic hbasic
  refine ⟨rectangular_start hbasis hlength, fun j hj => cost_columnsOf_eq_none_iff hj, ?_, hbasic, hnodup, ?_, ?_⟩
  · exact Nat.succ_pos _
  · rw [names_start hbasis] at hnodup ⊢
    exact NameIndex.lists_ofNames hnodup
  · intro ratios hratios
    cases hratios

/-- On a basis of unit columns the program has the starting tableau. -/
theorem ofProgram_eq_start : ofProgram q basis = .ok (start q basis) :=
  ofProgram_eq_start_of_range hbasis hlength fun i j hj => ⟨(hunit i j hj).1, (hunit i j hj).2.1⟩

/-- Without rows that fell back on a decision variable, it is made without a pivot. -/
theorem ofBasis_eq_start : ofBasis q ⟨basis, []⟩ = .ok (start q basis) := by
  rw [ofBasis, ofProgram_eq_start hbasis hunit hlength]
  rfl

end

end

end ExactSimplex.Tableau
