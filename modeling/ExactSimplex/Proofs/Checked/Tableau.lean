import ExactSimplex.Number.Rounding
import ExactSimplex.Proofs.Tableau.WellFormed
import ExactSimplex.Solution

/-!
# Operations on tableaus that check what they read

The operations on tableaus take a number at a position that does not exist to be zero, and divide by whatever
they find. Here they are repeated with every position looked up where there must be something, every divisor
checked, and the reduced costs computed behind each change. On a tableau with a column, in which every row has one
number for each column, nothing is missing, and the checked operations do what the others do.
-/

namespace ExactSimplex

variable {α β : Type}

/-! Lists. -/

/-- What stands at a position, where there must be something. -/
def lookup (missing : Fault) (l : List α) (i : Nat) : Except Fault α :=
  match l[i]? with
  | some a => .ok a
  | none => .error missing

theorem lookup_of_getElem? {missing : Fault} {l : List α} {i : Nat} {a : α} (h : l[i]? = some a) :
    lookup missing l i = .ok a := by
  rw [lookup, h]

/-- All elements behind the first, which there must be. -/
def behindFirst (missing : Fault) : List α → Except Fault (List α)
  | [] => .error missing
  | _ :: l => .ok l

theorem behindFirst_eq {missing : Fault} {l : List α} (h : 0 < l.length) : behindFirst missing l = .ok l.tail := by
  cases l with
  | nil => exact absurd h (Nat.lt_irrefl 0)
  | cons a l => rfl

/-- What is computed from a value that is there. -/
@[simp] theorem ok_bind (a : α) (f : α → Except Fault β) : (Except.ok a >>= f) = f a := rfl

/-- Computations that go on in the same way from every value. -/
theorem bind_congr_of_ok {e : Except Fault α} {f g : α → Except Fault β} (h : ∀ a, e = .ok a → f a = g a) :
    (e >>= f) = (e >>= g) := by
  cases e with
  | error fault => rfl
  | ok a => exact h a rfl

/-- A traversal depends on what it meets alone. -/
theorem mapM_congr_of_mem {f g : α → Except Fault β} {l : List α} (h : ∀ a ∈ l, f a = g a) :
    l.mapM f = l.mapM g := by
  induction l with
  | nil => rfl
  | cons a l ih =>
    obtain ⟨hhead, htail⟩ := List.forall_mem_cons.mp h
    rw [List.mapM_cons, List.mapM_cons, hhead, ih htail]

/-- A traversal in which nothing is missing. -/
theorem mapM_eq_ok_map {f : α → Except Fault β} {g : α → β} {l : List α} (h : ∀ a ∈ l, f a = .ok (g a)) :
    l.mapM f = .ok (l.map g) := by
  induction l with
  | nil => rfl
  | cons a l ih =>
    obtain ⟨hhead, htail⟩ := List.forall_mem_cons.mp h
    rw [List.mapM_cons, hhead, ok_bind, ih htail]
    rfl

namespace Row

/-- The number in column `j`, where there must be one. -/
def read (r : Row) (j : Nat) : Except Fault Rat := lookup .noColumn r.values j

theorem read_eq {r : Row} {j : Nat} (h : j < r.values.length) : r.read j = .ok (r.entry j) := by
  rw [read, lookup_of_getElem? (List.getElem?_eq_getElem h), entry, List.getElem?_eq_getElem h, Option.getD_some]

/-- The row less the multiple of `source` that clears its entry in column `j`. -/
def checkedEliminate (r : Row) (j : Nat) (source : List Rat) : Except Fault Row := do
  let factor ← r.read j
  .ok { r with values := List.zipWith (fun v s => v - factor * s) r.values source }

end Row

namespace Tableau

variable {t t' : Tableau} {r : Row} {i j n : Nat}

/-- There is a column, and every row has one number for each column. -/
structure Shaped (t : Tableau) : Prop where
  rectangular : t.Rectangular
  nonempty : 0 < t.columns.length

theorem WellFormed.shaped (h : t.WellFormed) : t.Shaped := ⟨h.rectangular, h.nonempty⟩

/-! The shape is kept. -/

namespace Shaped

variable (h : t.Shaped)

include h

theorem read_eq (hr : r ∈ t.rows) (hj : j < t.columns.length) : r.read j = .ok (r.entry j) :=
  Row.read_eq ((h.rectangular r hr).symm ▸ hj)

theorem pivot (hp : t.pivot i j = .ok t') : t'.Shaped := by
  refine ⟨h.rectangular.pivot hp, ?_⟩
  obtain ⟨_, -, -, -, -, rfl⟩ := pivot_eq_ok_iff.mp hp
  exact h.nonempty

theorem truncate (ht : t.truncate n = .ok t') : t'.Shaped := by
  refine ⟨h.rectangular.truncate ht, ?_⟩
  rw [length_columns_truncate ht]
  exact (truncate_eq_ok_iff.mp ht).1.1

theorem removeRow (hr : t.removeRow i = .ok t') : t'.Shaped := by
  refine ⟨h.rectangular.removeRow hr, ?_⟩
  rw [columns_removeRow hr]
  exact h.nonempty

theorem appendRow {values : List Rat} (ha : t.appendRow values = .ok t') : t'.Shaped := by
  refine ⟨h.rectangular.appendRow ha, ?_⟩
  rw [length_columns_appendRow ha]
  exact Nat.succ_pos _

theorem record {ratios : Ratios} (hr : t.record ratios = .ok t') : t'.Shaped := by
  refine ⟨h.rectangular.record hr, ?_⟩
  obtain ⟨-, rfl⟩ := record_eq_ok_iff.mp hr
  exact h.nonempty

end Shaped

/-! Reduced costs. -/

/-- The reduced cost of column `j`, read from all rows. -/
def checkedReducedCost (t : Tableau) (j : Nat) : Except Fault Cost := do
  let terms ← t.rows.mapM fun r => do
    let entry ← r.read j
    .ok (entry • r.cost)
  let column ← lookup .noColumn t.columns j
  .ok (terms.sum - column.cost.getD 0)

/-- The reduced costs of all columns. -/
def checkedReducedCosts (t : Tableau) : Except Fault (List Cost) :=
  (List.range t.columns.length).mapM t.checkedReducedCost

/-- The objective value of the basic solution. -/
def checkedObjectiveValue (t : Tableau) : Except Fault Cost := do
  let costs ← t.checkedReducedCosts
  lookup .noColumn costs 0

/-- The tableau itself, once its reduced costs and its objective value have been computed. -/
def checkPrices (t : Tableau) : Except Fault Tableau := do
  let _ ← t.checkedObjectiveValue
  .ok t

namespace Shaped

variable (h : t.Shaped)

include h

theorem checkedReducedCost_eq (hj : j < t.columns.length) : t.checkedReducedCost j = .ok (t.reducedCost j) := by
  have hterms : (t.rows.mapM fun r => do
      let entry ← r.read j
      Except.ok (entry • r.cost)) = .ok (t.rows.map fun r => r.entry j • r.cost) :=
    mapM_eq_ok_map fun r hr => by rw [h.read_eq hr hj, ok_bind]
  have hcolumn := List.getElem?_eq_getElem hj
  rw [checkedReducedCost, hterms, ok_bind, lookup_of_getElem? hcolumn, ok_bind, reducedCost, price, hcolumn,
    Option.bind_some]

theorem checkedReducedCosts_eq : t.checkedReducedCosts = .ok t.reducedCosts :=
  mapM_eq_ok_map fun _ hj => h.checkedReducedCost_eq (List.mem_range.mp hj)

theorem checkedObjectiveValue_eq : t.checkedObjectiveValue = .ok t.objectiveValue := by
  rw [checkedObjectiveValue, h.checkedReducedCosts_eq, ok_bind]
  apply lookup_of_getElem?
  rw [getElem?_reducedCosts, if_pos h.nonempty]
  rfl

theorem checkPrices_eq : t.checkPrices = .ok t := by
  rw [checkPrices, h.checkedObjectiveValue_eq, ok_bind]

end Shaped

/-- An operation behind which the prices are checked, where it leaves a shape. -/
theorem bind_checkPrices {e : Except Fault Tableau} (h : ∀ t, e = .ok t → t.Shaped) : (e >>= checkPrices) = e := by
  cases e with
  | error fault => rfl
  | ok t => rw [ok_bind, (h t rfl).checkPrices_eq]

/-! Operations. -/

/-- Exchanges the basic variable of a row for that of a column. -/
def checkedPivot (t : Tableau) (i j : Nat) : Except Fault Tableau := do
  let leaving ← lookup .noRow t.rows i
  if j = 0 ∨ t.columns.length ≤ j then .error .noColumn
  else do
    let element ← leaving.read j
    if element = 0 then .error .zeroPivot
    else do
      let source ← leaving.values.mapM fun v => divide v element
      let rows ← t.rows.mapM fun r => r.checkedEliminate j source
      let cost ← t.columnCost j
      checkPrices { t with
        rows := rows.set i ⟨variableName j, cost, source⟩
        ratios := none
        index := (t.index.erase leaving.name).insert (variableName j) i }

/-- Keeps the first `n` columns. -/
def checkedTruncate (t : Tableau) (n : Nat) : Except Fault Tableau := t.truncate n >>= checkPrices

/-- Removes row `i` and its basic variable. -/
def checkedRemoveRow (t : Tableau) (i : Nat) : Except Fault Tableau := t.removeRow i >>= checkPrices

/-- Appends a row and a column for its basic variable. -/
def checkedAppendRow (t : Tableau) (values : List Rat) : Except Fault Tableau := t.appendRow values >>= checkPrices

/-- The value of variable `xj` in the basic solution. -/
def checkedVariableValue (t : Tableau) (j : Nat) : Except Fault Rat :=
  match t.rowOf? (variableName j) with
  | some i => t.value i 0
  | none => .ok 0

namespace Shaped

variable (h : t.Shaped)

include h

theorem checkedPivot_eq (i j : Nat) : t.checkedPivot i j = t.pivot i j := by
  unfold checkedPivot Tableau.pivot
  cases hrow : t.rows[i]? with
  | none =>
    rw [lookup, hrow]
    rfl
  | some leaving =>
    rw [lookup_of_getElem? hrow, ok_bind]
    by_cases hj : j = 0 ∨ t.columns.length ≤ j
    · rw [if_pos hj]
      exact (if_pos hj).symm
    · have hlt : j < t.columns.length := by omega
      have hmem := List.mem_of_getElem? hrow
      dsimp only
      rw [if_neg hj, if_neg hj, h.read_eq hmem hlt, ok_bind]
      by_cases hzero : leaving.entry j = 0
      · rw [if_pos hzero, if_pos hzero]
      · have hsource : (leaving.values.mapM fun v => divide v (leaving.entry j)) = .ok (leaving.normalized j) :=
          mapM_eq_ok_map fun _ _ => divide_eq_ok_iff.mpr ⟨hzero, rfl⟩
        have hrows : (t.rows.mapM fun r => r.checkedEliminate j (leaving.normalized j)) =
            .ok (t.rows.map fun r => r.eliminate j (leaving.normalized j)) :=
          mapM_eq_ok_map fun r hr => by
            rw [Row.checkedEliminate, h.read_eq hr hlt]
            rfl
        -- The prices are those of the tableau behind the pivot, which has the shape of the one in front.
        have hpivot : t.pivot i j = .ok (t.exchange i j leaving) :=
          pivot_eq_ok_iff.mpr ⟨leaving, hrow, by omega, hlt, hzero, rfl⟩
        have hcost : t.columnCost j = .ok (t.price j) := if_pos hlt
        rw [if_neg hzero, if_neg hzero, hsource, ok_bind, hrows, ok_bind, hcost, ok_bind]
        exact (h.pivot hpivot).checkPrices_eq

theorem checkedTruncate_eq (n : Nat) : t.checkedTruncate n = t.truncate n := bind_checkPrices fun _ => h.truncate

theorem checkedRemoveRow_eq (i : Nat) : t.checkedRemoveRow i = t.removeRow i :=
  bind_checkPrices fun _ => h.removeRow

theorem checkedAppendRow_eq (values : List Rat) : t.checkedAppendRow values = t.appendRow values :=
  bind_checkPrices fun _ => h.appendRow

theorem value_eq (hi : i < t.rows.length) (hj : j < t.columns.length) : t.value i j = .ok (t.entry i j) := by
  have hrow := List.getElem?_eq_getElem hi
  have hlt : j < t.rows[i].values.length := by
    rw [h.rectangular _ (List.getElem_mem hi)]
    exact hj
  rw [value, hrow]
  dsimp only
  rw [List.getElem?_eq_getElem hlt, entry_of_getElem? hrow, Row.entry, List.getElem?_eq_getElem hlt]
  rfl

end Shaped

/-- The index leads to rows that exist. -/
theorem WellFormed.lt_of_rowOf? {name : String} (h : t.WellFormed) (hrow : t.rowOf? name = some i) :
    i < t.rows.length := by
  have hname := (List.getElem?_eq_some_iff.mp ((h.rowOf?_eq_some_iff name i).mp hrow)).1
  rwa [names, List.length_map] at hname

theorem WellFormed.checkedVariableValue_eq (h : t.WellFormed) (j : Nat) :
    t.checkedVariableValue j = .ok (t.variableValue j) := by
  unfold checkedVariableValue variableValue
  cases hrow : t.rowOf? (variableName j) with
  | none => rfl
  | some i => exact h.shaped.value_eq (h.lt_of_rowOf? hrow) h.nonempty

end Tableau

/-! Solutions. -/

/-- The basic solution of a tableau, restricted to the first `decisions` variables. -/
def Solution.checkedOfTableau (t : Tableau) (decisions : Nat) : Except Fault Solution := do
  let objective ← t.checkedObjectiveValue
  if objective.IsFinite then do
    let values ← (List.range' 1 decisions).mapM fun j => do
      let value ← t.checkedVariableValue j
      .ok (variableName j, value)
    .ok ⟨objective.finite, values⟩
  else .error .penaltyLeft

theorem Tableau.WellFormed.checkedOfTableau_eq {t : Tableau} (h : t.WellFormed) (decisions : Nat) :
    Solution.checkedOfTableau t decisions = Solution.ofTableau t decisions := by
  have hvalues : ((List.range' 1 decisions).mapM fun j => do
      let value ← t.checkedVariableValue j
      Except.ok (variableName j, value)) =
        .ok ((List.range' 1 decisions).map fun j => (variableName j, t.variableValue j)) :=
    mapM_eq_ok_map fun j _ => by rw [h.checkedVariableValue_eq, ok_bind]
  rw [Solution.checkedOfTableau, h.shaped.checkedObjectiveValue_eq, ok_bind, hvalues]
  rfl

end ExactSimplex
