import ExactSimplex.Proofs.Algebra.Cost
import ExactSimplex.Tableau.Meaning
import ExactSimplex.Tableau.Pivot
import ExactSimplex.Tableau.Resize
import Mathlib.Algebra.BigOperators.Group.Finset.Basic

/-!
# The entries of a tableau

Every operation on a tableau is described by what it does to the entries, the costs and the names of the
basic variables. Reduced costs are sums over the rows.
-/

namespace ExactSimplex

namespace Row

/-- Clearing a column subtracts a multiple of the source, entry by entry. -/
theorem entry_eliminate (r : Row) (j k : Nat) {source : List Rat} (h : r.values.length = source.length) :
    (r.eliminate j source).entry k = r.entry k - r.entry j * source[k]?.getD 0 := by
  simp only [entry, eliminate, List.getElem?_zipWith]
  by_cases hk : k < source.length
  · rw [List.getElem?_eq_getElem (h ▸ hk), List.getElem?_eq_getElem hk]
    rfl
  · rw [List.getElem?_eq_none (by omega), List.getElem?_eq_none (by omega)]
    simp

/-- Dividing a row divides its entries. -/
theorem getElem?_normalized (r : Row) (j k : Nat) :
    (r.normalized j)[k]?.getD 0 = r.entry k / r.entry j := by
  simp only [normalized, List.getElem?_map, entry]
  cases r.values[k]? with
  | none => simp
  | some q => rfl

end Row

namespace Tableau

variable {t t' : Tableau} {i j k l : Nat} {r leaving : Row}

/-- The cost of the basic variable of row `i`. -/
def basicCost (t : Tableau) (i : Nat) : Cost := (t.rows[i]?.map (·.cost)).getD 0

/-- An entry belongs to the row at its place. -/
theorem entry_of_getElem? (h : t.rows[i]? = some r) : t.entry i j = r.entry j := by
  rw [entry, h]
  rfl

/-- A basic cost belongs to the row at its place. -/
theorem basicCost_of_getElem? (h : t.rows[i]? = some r) : t.basicCost i = r.cost := by
  rw [basicCost, h]
  rfl

/-- There are no entries below the last row. -/
theorem entry_eq_zero_of_length_le (h : t.rows.length ≤ i) : t.entry i j = 0 := by
  rw [entry, List.getElem?_eq_none h]
  rfl

/-- There are no entries behind the last column. -/
theorem entry_eq_zero_of_columns_le (hrect : t.Rectangular) (hj : t.columns.length ≤ j) :
    t.entry i j = 0 := by
  unfold entry
  cases hrow : t.rows[i]? with
  | none => rfl
  | some r =>
    have hlength := hrect r (List.mem_of_getElem? hrow)
    simp only [Option.map_some, Option.getD_some, Row.entry]
    rw [List.getElem?_eq_none (by omega)]
    rfl

private theorem sum_map_eq_sum_range (rows : List Row) (f : Row → Cost) :
    (rows.map f).sum = ∑ i ∈ Finset.range rows.length, (rows[i]?.map f).getD 0 := by
  induction rows with
  | nil => simp
  | cons r rows ih =>
    rw [List.map_cons, List.sum_cons, ih, List.length_cons, Finset.sum_range_succ', add_comm]
    rfl

/-- A reduced cost is a sum over the rows. -/
theorem reducedCost_eq_sum (t : Tableau) (j : Nat) :
    t.reducedCost j = ∑ i ∈ Finset.range t.rows.length, t.entry i j • t.basicCost i - t.price j := by
  rw [reducedCost, sum_map_eq_sum_range]
  congr 1
  apply Finset.sum_congr rfl
  intro i _
  simp only [entry, basicCost]
  cases t.rows[i]? with
  | none => simp
  | some r => rfl

/-! The entries after each operation. -/

@[simp] theorem length_rows_exchange : (t.exchange i j leaving).rows.length = t.rows.length := by
  simp [exchange]

theorem getElem?_rows_exchange (hi : i < t.rows.length) :
    (t.exchange i j leaving).rows[l]? =
      if l = i then some ⟨variableName j, t.price j, leaving.normalized j⟩
      else (t.rows[l]?).map (·.eliminate j (leaving.normalized j)) := by
  simp only [exchange, List.getElem?_set, List.length_map, List.getElem?_map, hi, if_true, eq_comm]

/-- A pivot on row `i` and column `j`, entry by entry. -/
theorem entry_exchange (hrect : t.Rectangular) (hrow : t.rows[i]? = some leaving) :
    (t.exchange i j leaving).entry l k =
      if l = i then t.entry i k / t.entry i j
      else t.entry l k - t.entry l j * (t.entry i k / t.entry i j) := by
  obtain ⟨hi, hget⟩ := List.getElem?_eq_some_iff.mp hrow
  have hnormal : ∀ m, (leaving.normalized j)[m]?.getD 0 = t.entry i m / t.entry i j := by
    intro m
    rw [Row.getElem?_normalized, entry_of_getElem? hrow, entry_of_getElem? hrow]
  rw [entry, getElem?_rows_exchange hi]
  split
  · exact hnormal k
  · cases hl : t.rows[l]? with
    | none =>
      have hle := List.getElem?_eq_none_iff.mp hl
      rw [entry_eq_zero_of_length_le hle, entry_eq_zero_of_length_le hle]
      simp
    | some r =>
      have hlength : r.values.length = (leaving.normalized j).length := by
        rw [Row.normalized, List.length_map, hrect r (List.mem_of_getElem? hl),
          hrect leaving (List.mem_of_getElem? hrow)]
      rw [entry_of_getElem? hl, entry_of_getElem? hl]
      simp only [Option.map_some, Option.getD_some]
      rw [Row.entry_eliminate r j k hlength, hnormal]

/-- A pivot leaves the costs of the other basic variables unchanged. -/
theorem basicCost_exchange (hi : i < t.rows.length) :
    (t.exchange i j leaving).basicCost l = if l = i then t.price j else t.basicCost l := by
  rw [basicCost, getElem?_rows_exchange hi]
  split
  · rfl
  · rw [basicCost]
    cases t.rows[l]? <;> rfl

/-- A pivot leaves the names of the other basic variables unchanged. -/
theorem names_exchange : (t.exchange i j leaving).names = t.names.set i (variableName j) := by
  rw [names, names, exchange, List.map_set, List.map_map]
  rfl

/-- A pivot leaves the costs of the other basic variables unchanged, in the order of the rows. -/
theorem map_cost_exchange :
    (t.exchange i j leaving).rows.map (·.cost) = (t.rows.map (·.cost)).set i (t.price j) := by
  rw [exchange, List.map_set, List.map_map]
  rfl

/-! The rows behind a removed one move up. -/

section RemoveRow

variable (h : t.removeRow i = .ok t')

include h

theorem columns_removeRow : t'.columns = t.columns := by
  obtain ⟨-, rfl⟩ := removeRow_eq_ok_iff.mp h
  rfl

theorem getElem?_rows_removeRow : t'.rows[l]? = t.rows[if l < i then l else l + 1]? := by
  obtain ⟨-, rfl⟩ := removeRow_eq_ok_iff.mp h
  rw [List.getElem?_eraseIdx]
  split <;> rfl

theorem length_rows_removeRow : t'.rows.length + 1 = t.rows.length := by
  obtain ⟨hi, rfl⟩ := removeRow_eq_ok_iff.mp h
  have hlength := List.length_eraseIdx_of_lt hi
  dsimp only
  omega

theorem entry_removeRow : t'.entry l k = t.entry (if l < i then l else l + 1) k := by
  rw [entry, entry, getElem?_rows_removeRow h]

theorem price_removeRow : t'.price j = t.price j := by
  rw [price, price, columns_removeRow h]

/-- The removed row and the rows that are left are all rows there were. -/
theorem perm_rows_removeRow (hrow : t.rows[i]? = some r) : (r :: t'.rows).Perm t.rows := by
  obtain ⟨hi, rfl⟩ := removeRow_eq_ok_iff.mp h
  obtain ⟨-, rfl⟩ := List.getElem?_eq_some_iff.mp hrow
  exact List.getElem_cons_eraseIdx_perm hi

end RemoveRow

/-! Cutting off columns changes nothing in front of them. -/

section Truncate

variable {n : Nat} (h : t.truncate n = .ok t')

include h

theorem length_columns_truncate : t'.columns.length = n := by
  obtain ⟨⟨-, hn⟩, rfl⟩ := truncate_eq_ok_iff.mp h
  rw [List.length_take, Nat.min_eq_left hn]

theorem length_rows_truncate : t'.rows.length = t.rows.length := by
  obtain ⟨-, rfl⟩ := truncate_eq_ok_iff.mp h
  rw [List.length_map]

theorem getElem?_rows_truncate :
    t'.rows[l]? = t.rows[l]?.map fun r => { r with values := r.values.take n } := by
  obtain ⟨-, rfl⟩ := truncate_eq_ok_iff.mp h
  rw [List.getElem?_map]

theorem entry_truncate (hk : k < n) : t'.entry l k = t.entry l k := by
  rw [entry, entry, getElem?_rows_truncate h]
  cases t.rows[l]? with
  | none => rfl
  | some r =>
    simp only [Option.map_some, Option.getD_some, Row.entry]
    rw [List.getElem?_take_of_lt hk]

theorem basicCost_truncate : t'.basicCost l = t.basicCost l := by
  rw [basicCost, basicCost, getElem?_rows_truncate h]
  cases t.rows[l]? <;> rfl

theorem price_truncate (hj : j < n) : t'.price j = t.price j := by
  obtain ⟨-, rfl⟩ := truncate_eq_ok_iff.mp h
  rw [price, price, List.getElem?_take_of_lt hj]

theorem names_truncate : t'.names = t.names := by
  obtain ⟨-, rfl⟩ := truncate_eq_ok_iff.mp h
  rw [names, names, List.map_map]
  rfl

theorem rowOf?_truncate (name : String) : t'.rowOf? name = t.rowOf? name := by
  obtain ⟨-, rfl⟩ := truncate_eq_ok_iff.mp h
  rfl

end Truncate

/-! An appended row has a new column to itself. -/

section AppendRow

variable {values : List Rat} (h : t.appendRow values = .ok t')

include h

theorem length_columns_appendRow : t'.columns.length = t.columns.length + 1 := by
  obtain ⟨-, rfl⟩ := appendRow_eq_ok_iff.mp h
  rw [List.length_append, List.length_singleton]

theorem length_rows_appendRow : t'.rows.length = t.rows.length + 1 := by
  obtain ⟨-, rfl⟩ := appendRow_eq_ok_iff.mp h
  rw [List.length_append, List.length_map, List.length_singleton]

theorem getElem?_rows_appendRow_of_lt (hl : l < t.rows.length) :
    t'.rows[l]? = t.rows[l]?.map fun r => { r with values := r.values ++ [0] } := by
  obtain ⟨-, rfl⟩ := appendRow_eq_ok_iff.mp h
  rw [List.getElem?_append_left (by rwa [List.length_map]), List.getElem?_map]

theorem getElem?_rows_appendRow_last :
    t'.rows[t.rows.length]? = some ⟨variableName t.columns.length, 0, values⟩ := by
  obtain ⟨-, rfl⟩ := appendRow_eq_ok_iff.mp h
  simp

theorem names_appendRow : t'.names = t.names ++ [variableName t.columns.length] := by
  obtain ⟨-, rfl⟩ := appendRow_eq_ok_iff.mp h
  rw [names, names, List.map_append, List.map_map]
  rfl

theorem index_appendRow : t'.index = t.index.insert (variableName t.columns.length) t.rows.length := by
  obtain ⟨-, rfl⟩ := appendRow_eq_ok_iff.mp h
  rfl

theorem price_appendRow_of_lt (hj : j < t.columns.length) : t'.price j = t.price j := by
  obtain ⟨-, rfl⟩ := appendRow_eq_ok_iff.mp h
  rw [price, price, List.getElem?_append_left hj]

theorem price_appendRow_last : t'.price t.columns.length = 0 := by
  obtain ⟨-, rfl⟩ := appendRow_eq_ok_iff.mp h
  simp [price]

/-- The other rows keep their entries, and are zero in the new column. -/
theorem entry_appendRow_of_lt (hrect : t.Rectangular) (hl : l < t.rows.length) :
    t'.entry l k = t.entry l k := by
  rw [entry, entry, getElem?_rows_appendRow_of_lt h hl, List.getElem?_eq_getElem hl]
  have hlength := hrect _ (List.getElem_mem hl)
  simp only [Option.map_some, Option.getD_some, Row.entry]
  by_cases hk : k < t.columns.length
  · rw [List.getElem?_append_left (by omega)]
  · rw [List.getElem?_append_right (by omega), List.getElem?_eq_none (l := t.rows[l].values) (by omega)]
    cases k - t.rows[l].values.length <;> rfl

theorem entry_appendRow_last : t'.entry t.rows.length k = values[k]?.getD 0 := by
  rw [entry_of_getElem? (getElem?_rows_appendRow_last h)]
  rfl

theorem basicCost_appendRow_of_lt (hl : l < t.rows.length) : t'.basicCost l = t.basicCost l := by
  rw [basicCost, basicCost, getElem?_rows_appendRow_of_lt h hl]
  cases t.rows[l]? <;> rfl

theorem basicCost_appendRow_last : t'.basicCost t.rows.length = 0 := by
  rw [basicCost_of_getElem? (getElem?_rows_appendRow_last h)]

end AppendRow

/-! The ratios of a choice are no part of the tableau that it is made in. -/

/-- The tableau without recorded ratios. -/
def plain (t : Tableau) : Tableau := { t with ratios := none }

/-- Where no ratios are recorded, none are left out. -/
theorem plain_of_ratios (h : t.ratios = none) : t.plain = t := by
  cases t
  cases h
  rfl

/-- Recording ratios and leaving them out changes nothing else. -/
theorem plain_record {ratios : Ratios} (h : t.record ratios = .ok t') : t'.plain = t.plain := by
  obtain ⟨-, rfl⟩ := record_eq_ok_iff.mp h
  rfl

theorem ratios_pivot (h : t.pivot i j = .ok t') : t'.ratios = none := by
  obtain ⟨leaving, -, -, -, -, rfl⟩ := pivot_eq_ok_iff.mp h
  rfl

/-! What is no part of a pivot. -/

theorem columns_pivot (h : t.pivot i j = .ok t') : t'.columns = t.columns := by
  obtain ⟨leaving, -, -, -, -, rfl⟩ := pivot_eq_ok_iff.mp h
  rfl

theorem length_rows_pivot (h : t.pivot i j = .ok t') : t'.rows.length = t.rows.length := by
  obtain ⟨leaving, -, -, -, -, rfl⟩ := pivot_eq_ok_iff.mp h
  exact length_rows_exchange

end Tableau

end ExactSimplex
