import ExactSimplex.Tableau.Basic

/-!
# Changing the shape of a tableau

Columns are cut off at the right, a row is removed with its basic variable, a row is appended together
with a column for its basic variable. Each of these forgets the recorded ratios; recording ratios changes
nothing else.
-/

namespace ExactSimplex.Tableau

/-- Keeps the first `n` columns. The name index stays as it is. -/
def truncate (t : Tableau) (n : Nat) : Except Fault Tableau :=
  if 0 < n ∧ n ≤ t.columns.length then
    .ok { t with
      columns := t.columns.take n
      rows := t.rows.map fun r => { r with values := r.values.take n }
      ratios := none }
  else .error .noColumn

/-- Removes row `i` and its basic variable. The rows behind it move up. -/
def removeRow (t : Tableau) (i : Nat) : Except Fault Tableau :=
  if i < t.rows.length then
    let rows := t.rows.eraseIdx i
    .ok { t with rows, ratios := none, index := NameIndex.ofNames 0 (rows.map (·.name)) }
  else .error .noRow

/-- Appends a row and a column for its basic variable, which costs nothing. The last of the given numbers
is the entry of that variable; the other rows are zero in the new column. -/
def appendRow (t : Tableau) (values : List Rat) : Except Fault Tableau :=
  let j := t.columns.length
  if values.length = j + 1 then
    .ok { t with
      columns := t.columns ++ [⟨columnName j, some 0⟩]
      rows := t.rows.map (fun r => { r with values := r.values ++ [0] }) ++ [⟨variableName j, 0, values⟩]
      ratios := none
      index := t.index.insert (variableName j) t.rows.length }
  else .error .rowLength

/-- Ratios fit a tableau when there is one for each row, or one for each column. -/
def Fits (t : Tableau) : Ratios → Prop
  | .primal ratios => ratios.length = t.rows.length
  | .dual ratios => ratios.length = t.columns.length

instance (t : Tableau) (ratios : Ratios) : Decidable (t.Fits ratios) :=
  match ratios with
  | .primal ratios => inferInstanceAs (Decidable (ratios.length = t.rows.length))
  | .dual ratios => inferInstanceAs (Decidable (ratios.length = t.columns.length))

/-- Records the ratios of a choice, if they fit. -/
def record (t : Tableau) (ratios : Ratios) : Except Fault Tableau :=
  if t.Fits ratios then .ok { t with ratios := some ratios } else .error .ratioCount

/-- Columns are cut off exactly when at least one is kept and all that are kept exist. -/
theorem truncate_eq_ok_iff {t t' : Tableau} {n : Nat} :
    t.truncate n = .ok t' ↔ (0 < n ∧ n ≤ t.columns.length) ∧
      t' = { t with
        columns := t.columns.take n
        rows := t.rows.map fun r => { r with values := r.values.take n }
        ratios := none } := by
  by_cases h : 0 < n ∧ n ≤ t.columns.length
  · simp only [truncate, h, and_self, if_true, Except.ok.injEq, true_and]
    exact eq_comm
  · simp only [truncate, h, if_false, reduceCtorEq, false_and]

/-- A row is removed exactly when it exists. -/
theorem removeRow_eq_ok_iff {t t' : Tableau} {i : Nat} :
    t.removeRow i = .ok t' ↔ i < t.rows.length ∧
      t' = { t with
        rows := t.rows.eraseIdx i
        ratios := none
        index := NameIndex.ofNames 0 ((t.rows.eraseIdx i).map (·.name)) } := by
  by_cases h : i < t.rows.length
  · simp only [removeRow, h, if_true, Except.ok.injEq, true_and]
    exact eq_comm
  · simp only [removeRow, h, if_false, reduceCtorEq, false_and]

/-- A row is appended exactly when it has one number more than there are columns. -/
theorem appendRow_eq_ok_iff {t t' : Tableau} {values : List Rat} :
    t.appendRow values = .ok t' ↔ values.length = t.columns.length + 1 ∧
      t' = { t with
        columns := t.columns ++ [⟨columnName t.columns.length, some 0⟩]
        rows := t.rows.map (fun r => { r with values := r.values ++ [0] }) ++
          [⟨variableName t.columns.length, 0, values⟩]
        ratios := none
        index := t.index.insert (variableName t.columns.length) t.rows.length } := by
  by_cases h : values.length = t.columns.length + 1
  · simp only [appendRow, h, if_true, Except.ok.injEq, true_and]
    exact eq_comm
  · simp only [appendRow, h, if_false, reduceCtorEq, false_and]

/-- Ratios are recorded exactly when they fit, and nothing else changes. -/
theorem record_eq_ok_iff {t t' : Tableau} {ratios : Ratios} :
    t.record ratios = .ok t' ↔ t.Fits ratios ∧ t' = { t with ratios := some ratios } := by
  by_cases h : t.Fits ratios
  · simp only [record, h, if_true, Except.ok.injEq, true_and]
    exact eq_comm
  · simp only [record, h, if_false, reduceCtorEq, false_and]

end ExactSimplex.Tableau
