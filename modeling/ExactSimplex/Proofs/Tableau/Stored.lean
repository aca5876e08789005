import ExactSimplex.Proofs.Tableau.Entries
import ExactSimplex.Tableau.Sheet

/-!
# What the operations leave in store

Every operation on the stored form of a tableau leaves the stored form of what the operation makes of the
tableau. In particular the row of reduced costs is the one that belongs to the rows and costs behind the
operation, not the one in front of it. For a pivot this takes rows of equal length: a row that is zero in the
pivot column is not touched in store.
-/

namespace ExactSimplex

namespace Tableau

variable {t : Tableau} {r : Row} {i j n : Nat} {source : List Rat}

/-- The tableau is found in its stored form. -/
@[simp] theorem tableau_sheet (t : Tableau) : t.sheet.tableau = t := by
  have hrows : List.zipWith (fun (head : String × Cost) values => Row.mk head.1 head.2 values)
      (t.rows.map fun r => (r.name, r.cost)) (t.rows.map (·.values)) = t.rows := by
    rw [List.zipWith_map, List.zipWith_self, List.map_id'']
    exact fun _ => rfl
  rw [sheet, Sheet.tableau, hrows]

/-! Reading. -/

theorem entry_sheet (t : Tableau) (i j : Nat) : t.sheet.entry i j = t.entry i j := by
  rw [Sheet.entry, sheet, List.getElem?_map, Option.map_map]
  rfl

theorem names_sheet (t : Tableau) : t.sheet.names = t.names := by
  rw [Sheet.names, sheet, List.map_map]
  rfl

theorem variableValue_sheet (t : Tableau) (j : Nat) : t.sheet.variableValue j = t.variableValue j := by
  have hrow : t.sheet.rowOf? (variableName j) = t.rowOf? (variableName j) := rfl
  rw [Sheet.variableValue, variableValue, hrow]
  cases t.rowOf? (variableName j) with
  | none => rfl
  | some i => exact t.entry_sheet i 0

theorem isOptimal_sheet : t.sheet.IsOptimal ↔ t.IsOptimal := Iff.rfl

theorem isFeasible_sheet : t.sheet.IsFeasible ↔ t.IsFeasible := List.forall_mem_map

/-- The objective value stands in the stored row, where there is a column. -/
theorem objectiveValue_sheet (h : 0 < t.columns.length) : t.sheet.objectiveValue = t.objectiveValue := by
  have hget : t.sheet.reducedCosts[0]? = some (t.reducedCost 0) := by
    rw [sheet, getElem?_reducedCosts, if_pos h]
  rw [Sheet.objectiveValue, hget]
  rfl

/-! The row of reduced costs. -/

/-- What the stored heads cost along a column is what the rows cost. -/
theorem pricedOut_sheet (t : Tableau) (costs : List Cost) (j : Nat) :
    { t.sheet with reducedCosts := costs }.pricedOut j = t.reducedCost j := by
  rw [Sheet.pricedOut, sheet, List.zipWith_map, List.zipWith_self]
  rfl

/-- Whatever stood in the row of reduced costs, written anew it is that of the tableau. -/
theorem refresh_sheet (t : Tableau) (costs : List Cost) :
    { t.sheet with reducedCosts := costs }.refresh = t.sheet := by
  have hcosts : (List.range t.columns.length).map { t.sheet with reducedCosts := costs }.pricedOut =
      t.reducedCosts := List.map_congr_left fun j _ => t.pricedOut_sheet costs j
  exact congrArg (fun c => { t.sheet with reducedCosts := c }) hcosts

/-- With the heads, columns, numbers, ratios and index of a tableau, its stored form is there once the row of
reduced costs has been written anew. -/
theorem refresh_eq_sheet {s : Sheet} (hsense : s.sense = t.sense)
    (hheads : s.heads = t.rows.map fun r => (r.name, r.cost)) (hcolumns : s.columns = t.columns)
    (hgrid : s.grid = t.rows.map (·.values)) (hratios : s.ratios = t.ratios) (hindex : s.index = t.index) :
    s.refresh = t.sheet := by
  have hs : s = { t.sheet with reducedCosts := s.reducedCosts } :=
    Sheet.ext hsense hheads hcolumns hgrid rfl hratios hindex
  rw [hs]
  exact t.refresh_sheet s.reducedCosts

/-! Making. -/

section Aligned

variable {heads : List (String × Cost)} {grid : List (List Rat)} (h : heads.length = grid.length)

include h

/-- Heads and numbers that are put together in rows come apart again. -/
theorem map_head_zipWith :
    (List.zipWith (fun head values => Row.mk head.1 head.2 values) heads grid).map
      (fun r => (r.name, r.cost)) = heads := by
  rw [← List.map_uncurry_zip_eq_zipWith, List.map_map]
  exact List.map_fst_zip h.le

theorem map_values_zipWith :
    (List.zipWith (fun head values => Row.mk head.1 head.2 values) heads grid).map (·.values) = grid := by
  rw [← List.map_uncurry_zip_eq_zipWith, List.map_map]
  exact List.map_snd_zip h.ge

end Aligned

/-- What is made of given rows is stored. -/
theorem sheet_make (sense : Sense) (heads : List (String × Cost)) (columns : List Column)
    (grid : List (List Rat)) :
    Sheet.make sense heads columns grid = (make sense heads columns grid).map sheet := by
  unfold Sheet.make make
  by_cases hcount : heads.length = grid.length
  · rw [if_neg (not_not.mpr hcount), if_neg (not_not.mpr hcount)]
    split
    · rfl
    · split
      · rfl
      · exact congrArg Except.ok
          (refresh_eq_sheet rfl (map_head_zipWith hcount).symm rfl (map_values_zipWith hcount).symm rfl rfl)
  · rw [if_pos hcount, if_pos hcount]
    rfl

/-- So is what is made of a program. -/
theorem sheet_ofProgram (p : Program) (basis : List Nat) :
    Sheet.ofProgram p basis = (ofProgram p basis).map sheet := by
  unfold Sheet.ofProgram ofProgram
  split
  · rfl
  · split
    · rfl
    · exact sheet_make ..

/-! Changing. -/

theorem truncate_sheet (t : Tableau) (n : Nat) : t.sheet.truncate n = (t.truncate n).map sheet := by
  have hcolumns : t.sheet.columns = t.columns := rfl
  rw [Sheet.truncate, truncate, hcolumns]
  split
  · refine congrArg Except.ok (refresh_eq_sheet rfl ?_ rfl ?_ rfl rfl)
    · simp [sheet]
    · simp [sheet]
  · rfl

theorem removeRow_sheet (t : Tableau) (i : Nat) : t.sheet.removeRow i = (t.removeRow i).map sheet := by
  have hlength : t.sheet.heads.length = t.rows.length := List.length_map ..
  rw [Sheet.removeRow, removeRow, hlength]
  split
  · refine congrArg Except.ok (refresh_eq_sheet rfl ?_ rfl ?_ rfl ?_)
    · exact List.eraseIdx_map ..
    · exact List.eraseIdx_map ..
    · rw [Sheet.reindex, Sheet.names, sheet, List.eraseIdx_map, List.map_map]
      rfl
  · rfl

theorem appendRow_sheet (t : Tableau) (values : List Rat) :
    t.sheet.appendRow values = (t.appendRow values).map sheet := by
  have hcolumns : t.sheet.columns = t.columns := rfl
  have hlength : t.sheet.heads.length = t.rows.length := List.length_map ..
  rw [Sheet.appendRow, appendRow, hcolumns, hlength]
  split
  · refine congrArg Except.ok (refresh_eq_sheet rfl ?_ rfl ?_ rfl rfl)
    · simp [sheet]
    · simp [sheet]
  · rfl

theorem fits_sheet {ratios : Ratios} : t.sheet.Fits ratios ↔ t.Fits ratios := by
  cases ratios with
  | primal ratios => exact iff_of_eq (congrArg (ratios.length = ·) (List.length_map ..))
  | dual ratios => exact Iff.rfl

theorem record_sheet (t : Tableau) (ratios : Ratios) : t.sheet.record ratios = (t.record ratios).map sheet := by
  rw [Sheet.record, record]
  by_cases h : t.Fits ratios
  · rw [if_pos h, if_pos (fits_sheet.mpr h)]
    rfl
  · rw [if_neg h, if_neg (mt fits_sheet.mp h)]
    rfl

/-- Where the lengths agree, clearing an entry in store is what eliminating does to the row. -/
theorem clear_values (h : r.values.length = source.length) :
    Sheet.clear source j r.values = (r.eliminate j source).values := by
  have hfactor : r.values[j]?.getD 0 = r.entry j := rfl
  have hlength : (r.eliminate j source).values.length = r.values.length := by
    rw [Row.eliminate, List.length_zipWith, ← h, Nat.min_self]
  rw [Sheet.clear, hfactor]
  split
  · rename_i hzero
    refine List.ext_getElem hlength.symm fun k hk hk' => ?_
    simp [Row.eliminate, hzero]
  · refine List.ext_getElem ((List.length_mapIdx ..).trans hlength.symm) fun k hk hk' => ?_
    rw [List.length_mapIdx] at hk
    simp [Row.eliminate, List.getElem?_eq_getElem (h ▸ hk)]

/-- Row by row a pivot in store divides its row and clears the others. -/
theorem grid_exchange {leaving : Row} (hrect : t.Rectangular) (hrow : t.rows[i]? = some leaving) :
    (t.sheet.grid.mapIdx fun k row =>
      if k = i then leaving.normalized j else Sheet.clear (leaving.normalized j) j row) =
        (t.exchange i j leaving).rows.map (·.values) := by
  have hi := (List.getElem?_eq_some_iff.mp hrow).1
  have hsource : (leaving.normalized j).length = t.columns.length := by
    rw [Row.normalized, List.length_map, hrect leaving (List.mem_of_getElem? hrow)]
  apply List.ext_getElem?
  intro k
  rw [List.getElem?_mapIdx, List.getElem?_map, getElem?_rows_exchange hi, sheet, List.getElem?_map]
  by_cases hk : k = i
  · rw [if_pos hk, hk, hrow]
    simp
  · rw [if_neg hk]
    cases hr : t.rows[k]? with
    | none => rfl
    | some r =>
      have hlength := (hrect r (List.mem_of_getElem? hr)).trans hsource.symm
      simp only [Option.map_some, if_neg hk, clear_values hlength]

/-- In store the head of the row is replaced, and all else is written anew. -/
theorem exchange_sheet {leaving : Row} (hrect : t.Rectangular) (hrow : t.rows[i]? = some leaving) :
    t.sheet.exchange i j leaving.name leaving.values = (t.exchange i j leaving).sheet := by
  refine refresh_eq_sheet rfl ?_ rfl (grid_exchange hrect hrow) rfl rfl
  apply List.ext_getElem?
  intro k
  have hi := (List.getElem?_eq_some_iff.mp hrow).1
  rw [List.getElem?_map, getElem?_rows_exchange hi, List.getElem?_set, sheet, List.length_map, List.getElem?_map]
  by_cases hk : k = i
  · rw [if_pos hk, if_pos hk.symm, if_pos hi]
    rfl
  · rw [if_neg hk, if_neg (Ne.symm hk), Option.map_map]
    rfl

theorem pivot_sheet (hrect : t.Rectangular) (i j : Nat) :
    t.sheet.pivot i j = (t.pivot i j).map fun t' => (t'.sheet, t.basicName i) := by
  have hhead : t.sheet.heads[i]? = t.rows[i]?.map fun r => (r.name, r.cost) := List.getElem?_map ..
  have hgrid : t.sheet.grid[i]? = t.rows[i]?.map (·.values) := List.getElem?_map ..
  have hcolumns : t.sheet.columns = t.columns := rfl
  rw [Sheet.pivot, pivot, basicName, hhead, hgrid, hcolumns]
  cases hrow : t.rows[i]? with
  | none => rfl
  | some leaving =>
    have hentry : leaving.values[j]?.getD 0 = leaving.entry j := rfl
    dsimp only [Option.map_some]
    rw [hentry, exchange_sheet hrect hrow]
    split
    · rfl
    · split <;> rfl

end Tableau

end ExactSimplex
