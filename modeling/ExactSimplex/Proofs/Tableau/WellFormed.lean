import ExactSimplex.Proofs.Tableau.Entries
import Mathlib.Tactic.FieldSimp

/-!
# Well-formed tableaus

In a well-formed tableau the unit columns, the names and the name index tell the same story: a variable is
found in a row exactly when it is basic there. Pivots, removing a row, cutting off columns that are not
basic, appending a row that is zero in the basic columns and recording ratios all keep a tableau well
formed.
-/

namespace ExactSimplex

namespace NameIndex

/-- Looking up a name after another one has been entered. -/
theorem getElem?_insert (index : NameIndex) (name name' : String) (i : Nat) :
    (index.insert name i)[name']? = if name = name' then some i else index[name']? := by
  rw [Std.ExtTreeMap.getElem?_insert]
  by_cases h : name = name'
  · simp [h]
  · have hc : compare name name' ≠ .eq := by simpa using h
    rw [if_neg hc, if_neg h]

/-- Looking up a name after another one has been erased. -/
theorem getElem?_erase (index : NameIndex) (name name' : String) :
    (index.erase name)[name']? = if name = name' then none else index[name']? := by
  rw [Std.ExtTreeMap.getElem?_erase]
  by_cases h : name = name'
  · simp [h]
  · have hc : compare name name' ≠ .eq := by simpa using h
    rw [if_neg hc, if_neg h]

/-- The index finds every name exactly where it stands. -/
def Lists (index : NameIndex) (names : List String) : Prop :=
  ∀ (name : String) (i : Nat), index[name]? = some i ↔ names[i]? = some name

section Lists

variable {index : NameIndex} {names : List String} {old new : String} {i : Nat}

/-- The index of a list that repeats no name finds every name where it stands. -/
theorem lists_ofNames (h : names.Nodup) : Lists (ofNames 0 names) names := by
  intro name i
  simp only [getElem?_ofNames, Nat.add_zero, Option.map_id', List.findIdx?_eq_some_iff_getElem]
  constructor
  · rintro ⟨hi, hname, -⟩
    rw [List.getElem?_eq_getElem hi, of_decide_eq_true hname]
  · intro hname
    obtain ⟨hi, hget⟩ := List.getElem?_eq_some_iff.mp hname
    refine ⟨hi, decide_eq_true hget, fun k hk hkname => ?_⟩
    have hki := h.getElem_inj_iff.mp ((of_decide_eq_true hkname).trans hget.symm)
    omega

/-- One name is replaced by another in the list and in the index. -/
theorem Lists.set (h : index.Lists names) (hold : names[i]? = some old)
    (hnodup : (names.set i new).Nodup) : Lists ((index.erase old).insert new i) (names.set i new) := by
  intro name l
  have hi := (List.getElem?_eq_some_iff.mp hold).1
  have hset : (names.set i new)[i]? = some new := by
    rw [List.getElem?_set, if_pos rfl, if_pos hi]
  rw [getElem?_insert, getElem?_erase]
  by_cases hil : i = l
  · subst hil
    rw [hset, Option.some.injEq]
    by_cases hname : new = name
    · simp only [hname, if_true]
    · have holdname : old ≠ name → ¬ index[name]? = some i := by
        intro hne hindex
        rw [h name i, hold, Option.some.injEq] at hindex
        exact hne hindex
      by_cases hne : old = name
      · simp [hname, hne]
      · simp only [hname, hne, if_false, iff_false]
        exact holdname hne
  · have hl : (names.set i new)[l]? = names[l]? := by rw [List.getElem?_set, if_neg hil]
    by_cases hname : new = name
    · -- The new name stands in one place only.
      rw [if_pos hname, Option.some.injEq]
      constructor
      · exact fun heq => absurd heq hil
      · intro hget
        obtain ⟨_, hget'⟩ := List.getElem?_eq_some_iff.mp hget
        obtain ⟨_, hset'⟩ := List.getElem?_eq_some_iff.mp hset
        exact hnodup.getElem_inj_iff.mp (hset'.trans (hname.trans hget'.symm))
    · rw [if_neg hname, hl]
      by_cases hne : old = name
      · rw [if_pos hne]
        simp only [reduceCtorEq, false_iff]
        intro hget
        rw [hne] at hold
        exact hil (Option.some.inj (((h name i).mpr hold).symm.trans ((h name l).mpr hget)))
      · rw [if_neg hne, h name l]

/-- A new name is entered at the end of the list. -/
theorem Lists.append (h : index.Lists names) (hnew : new ∉ names) :
    Lists (index.insert new names.length) (names ++ [new]) := by
  intro name l
  rw [getElem?_insert]
  by_cases hname : new = name
  · rw [if_pos hname, Option.some.injEq, ← hname]
    constructor
    · rintro rfl
      simp
    · intro hget
      by_contra hl
      rcases Nat.lt_or_gt_of_ne hl with hlt | hlt
      · have hlength : (names ++ [new]).length ≤ l := by
          rw [List.length_append, List.length_singleton]
          omega
        rw [List.getElem?_eq_none hlength] at hget
        cases hget
      · rw [List.getElem?_append_left hlt] at hget
        exact hnew (List.mem_of_getElem? hget)
  · rw [if_neg hname, h name l]
    by_cases hlt : l < names.length
    · rw [List.getElem?_append_left hlt]
    · rw [List.getElem?_eq_none (by omega), List.getElem?_append_right (by omega)]
      cases hrest : l - names.length with
      | zero => simpa using hname
      | succ _ => simp

end Lists

end NameIndex

namespace Tableau

variable {t t' : Tableau} {i j k l m : Nat} {r leaving : Row}

namespace BasicIn

/-- The row of a basic variable tells that it is basic there. -/
theorem of_row (hrow : t.rows[i]? = some r) (hpos : 0 < j) (hlt : j < t.columns.length)
    (hname : r.name = variableName j) (hcost : r.cost = t.price j) (hself : t.entry i j = 1)
    (hother : ∀ k, k < t.rows.length → k ≠ i → t.entry k j = 0) : t.BasicIn i j where
  pos := hpos
  lt := hlt
  name := by rw [basicName, hrow, Option.map_some, Option.getD_some, hname]
  cost := by rw [hrow, Option.map_some, hcost]
  entry_self := hself
  entry_other := hother

/-- A variable is basic in a row that exists. -/
theorem lt_rows (h : t.BasicIn i j) : i < t.rows.length := by
  by_contra hi
  have hcost := h.cost
  rw [List.getElem?_eq_none (by omega)] at hcost
  cases hcost

/-- The row of a basic variable carries its name and cost. -/
theorem exists_row (h : t.BasicIn i j) :
    ∃ r, t.rows[i]? = some r ∧ r.name = variableName j ∧ r.cost = t.price j := by
  have hrow := List.getElem?_eq_getElem h.lt_rows
  have hname := h.name
  have hcost := h.cost
  rw [basicName, hrow, Option.map_some, Option.getD_some] at hname
  rw [hrow, Option.map_some, Option.some.injEq] at hcost
  exact ⟨_, hrow, hname, hcost⟩

/-- The names list a basic variable at its row. -/
theorem getElem?_names (h : t.BasicIn i j) : t.names[i]? = some (variableName j) := by
  obtain ⟨r, hrow, hname, -⟩ := h.exists_row
  rw [names, List.getElem?_map, hrow, Option.map_some, hname]

/-- The name of a basic variable is among the names of the rows. -/
theorem mem_names (h : t.BasicIn i j) : variableName j ∈ t.names := List.mem_of_getElem? h.getElem?_names

/-- A basic variable has the cost of its column. -/
theorem basicCost_eq (h : t.BasicIn i j) : t.basicCost i = t.price j := by
  obtain ⟨r, hrow, -, hcost⟩ := h.exists_row
  rw [basicCost_of_getElem? hrow, hcost]

/-- A variable is basic in one row only. -/
theorem row_eq (h : t.BasicIn i j) (h' : t.BasicIn k j) : i = k := by
  by_contra hne
  have hzero := h'.entry_other i h.lt_rows hne
  rw [h.entry_self] at hzero
  exact one_ne_zero hzero

/-- Only one variable is basic in a row. -/
theorem column_eq (h : t.BasicIn i j) (h' : t.BasicIn i l) : j = l :=
  variableName_injective (h.name.symm.trans h'.name)

end BasicIn

/-- Where every row has a basic variable, no name is repeated. -/
theorem names_nodup_of_basic (h : ∀ i, i < t.rows.length → ∃ j, t.BasicIn i j) : t.names.Nodup := by
  rw [List.nodup_iff_injective_get]
  rintro ⟨i, hi⟩ ⟨k, hk⟩ hik
  have hlength : t.names.length = t.rows.length := List.length_map ..
  obtain ⟨j, hj⟩ := h i (hlength ▸ hi)
  obtain ⟨l, hl⟩ := h k (hlength ▸ hk)
  have hnames : variableName j = variableName l := by
    have h1 := hj.getElem?_names
    have h2 := hl.getElem?_names
    rw [List.getElem?_eq_getElem hi, Option.some.injEq] at h1
    rw [List.getElem?_eq_getElem hk, Option.some.injEq] at h2
    exact h1.symm.trans (hik.trans h2)
  obtain rfl := variableName_injective hnames
  exact Fin.ext (hj.row_eq hl)

namespace WellFormed

/-- A variable is found in a row exactly when it is basic there. -/
theorem rowOf?_variableName (h : t.WellFormed) :
    t.rowOf? (variableName j) = some i ↔ t.BasicIn i j := by
  rw [h.rowOf?_eq_some_iff]
  constructor
  · intro hname
    have hi : i < t.rows.length := by
      obtain ⟨hi, -⟩ := List.getElem?_eq_some_iff.mp hname
      rwa [names, List.length_map] at hi
    obtain ⟨l, hl⟩ := h.basic i hi
    have hjl : variableName j = variableName l :=
      Option.some.inj (hname.symm.trans hl.getElem?_names)
    obtain rfl := variableName_injective hjl
    exact hl
  · exact BasicIn.getElem?_names

/-- A variable whose name is among those of the rows is basic. -/
theorem exists_basicIn (h : t.WellFormed) (hmem : variableName j ∈ t.names) : ∃ i, t.BasicIn i j := by
  obtain ⟨i, hi⟩ := List.mem_iff_getElem?.mp hmem
  exact ⟨i, h.rowOf?_variableName.mp ((h.rowOf?_eq_some_iff _ _).mpr hi)⟩

/-- No basic variable has the name of the column that comes next. -/
theorem variableName_notMem_names (h : t.WellFormed) : variableName t.columns.length ∉ t.names := by
  intro hmem
  obtain ⟨i, hbasic⟩ := h.exists_basicIn hmem
  exact lt_irrefl _ hbasic.lt

/-- The value of a basic variable is the right-hand side of its row. -/
theorem variableValue_of_basicIn (h : t.WellFormed) (hb : t.BasicIn i j) :
    t.variableValue j = t.entry i 0 := by
  rw [variableValue, h.rowOf?_variableName.mpr hb]

/-- A variable that is not basic is zero. -/
theorem variableValue_eq_zero (h : t.WellFormed) (hb : ∀ i, ¬ t.BasicIn i j) : t.variableValue j = 0 := by
  unfold variableValue
  cases hrow : t.rowOf? (variableName j) with
  | none => rfl
  | some i => exact absurd (h.rowOf?_variableName.mp hrow) (hb i)

end WellFormed

/-! Pivots. -/

section Exchange

variable (hrect : t.Rectangular) (hrow : t.rows[i]? = some leaving)

include hrect hrow

/-- The entering variable is basic in the row of the pivot. -/
theorem basicIn_exchange_self (hpos : 0 < j) (hlt : j < t.columns.length) (hne : t.entry i j ≠ 0) :
    (t.exchange i j leaving).BasicIn i j := by
  have hi := (List.getElem?_eq_some_iff.mp hrow).1
  refine .of_row (r := ⟨variableName j, t.price j, leaving.normalized j⟩) ?_ hpos hlt rfl rfl ?_ ?_
  · rw [getElem?_rows_exchange hi, if_pos rfl]
  · rw [entry_exchange hrect hrow, if_pos rfl, div_self hne]
  · intro k _ hk
    rw [entry_exchange hrect hrow, if_neg hk, div_self hne, mul_one, sub_self]

/-- The basic variables of the other rows stay. -/
theorem BasicIn.exchange_of_ne (hb : t.BasicIn l m) (hl : l ≠ i) :
    (t.exchange i j leaving).BasicIn l m := by
  have hi := (List.getElem?_eq_some_iff.mp hrow).1
  have hzero : t.entry i m = 0 := hb.entry_other i hi hl.symm
  obtain ⟨r, hr, hname, hcost⟩ := hb.exists_row
  refine .of_row (r := r.eliminate j (leaving.normalized j)) ?_ hb.pos hb.lt hname hcost ?_ ?_
  · rw [getElem?_rows_exchange hi, if_neg hl, hr, Option.map_some]
  · rw [entry_exchange hrect hrow, if_neg hl, hzero, hb.entry_self]
    ring
  · intro k hk hkl
    rw [length_rows_exchange] at hk
    rw [entry_exchange hrect hrow, hzero]
    split
    · exact zero_div _
    · rw [hb.entry_other k hk hkl]
      ring

end Exchange

/-- A pivot changes no row's length. -/
theorem Rectangular.pivot (h : t.Rectangular) (hp : t.pivot i j = .ok t') : t'.Rectangular := by
  obtain ⟨leaving, hrow, -, -, -, rfl⟩ := pivot_eq_ok_iff.mp hp
  intro r hr
  obtain ⟨l, hl⟩ := List.mem_iff_getElem?.mp hr
  have hnormal : (leaving.normalized j).length = t.columns.length := by
    rw [Row.normalized, List.length_map, h leaving (List.mem_of_getElem? hrow)]
  rw [getElem?_rows_exchange (List.getElem?_eq_some_iff.mp hrow).1] at hl
  split at hl
  · cases hl
    exact hnormal
  · obtain ⟨r', hr', rfl⟩ := Option.map_eq_some_iff.mp hl
    rw [Row.eliminate, List.length_zipWith, hnormal, h r' (List.mem_of_getElem? hr')]
    exact Nat.min_self _

/-- A pivot leaves a basic variable in every row. -/
theorem exists_basicIn_pivot (hrect : t.Rectangular) (h : ∀ l, l < t.rows.length → ∃ m, t.BasicIn l m)
    (hp : t.pivot i j = .ok t') : ∀ l, l < t'.rows.length → ∃ m, t'.BasicIn l m := by
  obtain ⟨leaving, hrow, hpos, hlt, hne, rfl⟩ := pivot_eq_ok_iff.mp hp
  rw [← entry_of_getElem? hrow] at hne
  intro l hl
  rw [length_rows_exchange] at hl
  by_cases hli : l = i
  · subst hli
    exact ⟨j, basicIn_exchange_self hrect hrow hpos hlt hne⟩
  · obtain ⟨m, hm⟩ := h l hl
    exact ⟨m, hm.exchange_of_ne hrect hrow hli⟩

/-- The index finds every name where it stands after a pivot too, if no name is repeated then. -/
theorem lists_pivot (h : NameIndex.Lists t.index t.names) (hp : t.pivot i j = .ok t')
    (hnodup : t'.names.Nodup) : NameIndex.Lists t'.index t'.names := by
  obtain ⟨leaving, hrow, -, -, -, rfl⟩ := pivot_eq_ok_iff.mp hp
  rw [names_exchange] at hnodup ⊢
  have hname : t.names[i]? = some leaving.name := by
    rw [names, List.getElem?_map, hrow, Option.map_some]
  exact h.set hname hnodup

/-- A pivot keeps a tableau well formed. -/
theorem WellFormed.pivot (h : t.WellFormed) (hp : t.pivot i j = .ok t') : t'.WellFormed := by
  have hbasic := exists_basicIn_pivot h.rectangular h.basic hp
  have hnodup := names_nodup_of_basic hbasic
  have hlists := lists_pivot h.rowOf?_eq_some_iff hp hnodup
  have hrect := h.rectangular.pivot hp
  obtain ⟨leaving, -, -, -, -, rfl⟩ := pivot_eq_ok_iff.mp hp
  refine ⟨hrect, h.cost_eq_none_iff, h.nonempty, hbasic, hnodup, hlists, ?_⟩
  intro ratios hratios
  cases hratios

/-! Removing a row. -/

/-- The basic variables of the rows that are kept stay, in the place their row moves to. -/
theorem BasicIn.removeRow (h : t.removeRow i = .ok t')
    (hb : t.BasicIn (if l < i then l else l + 1) m) : t'.BasicIn l m := by
  obtain ⟨r, hr, hname, hcost⟩ := hb.exists_row
  have hlength := length_rows_removeRow h
  refine .of_row (r := r) ?_ hb.pos ?_ hname ?_ ?_ ?_
  · rw [getElem?_rows_removeRow h, hr]
  · rw [columns_removeRow h]
    exact hb.lt
  · rw [price_removeRow h, hcost]
  · rw [entry_removeRow h, hb.entry_self]
  · intro k hk hkl
    have hold : (if k < i then k else k + 1) < t.rows.length := by split <;> omega
    have hne : (if k < i then k else k + 1) ≠ if l < i then l else l + 1 := by split <;> split <;> omega
    rw [entry_removeRow h, hb.entry_other _ hold hne]

/-- The rows that are kept have their length. -/
theorem Rectangular.removeRow (h : t.Rectangular) (hr : t.removeRow i = .ok t') : t'.Rectangular := by
  obtain ⟨-, rfl⟩ := removeRow_eq_ok_iff.mp hr
  exact fun r hmem => h r (List.mem_of_mem_eraseIdx hmem)

/-- Removing a row keeps a tableau well formed. -/
theorem WellFormed.removeRow (h : t.WellFormed) (hr : t.removeRow i = .ok t') : t'.WellFormed := by
  have hlength := length_rows_removeRow hr
  have hbasic : ∀ l, l < t'.rows.length → ∃ m, t'.BasicIn l m := by
    intro l hl
    have hlt : (if l < i then l else l + 1) < t.rows.length := by split <;> omega
    obtain ⟨m, hm⟩ := h.basic _ hlt
    exact ⟨m, hm.removeRow hr⟩
  have hnodup := names_nodup_of_basic hbasic
  have hrect := h.rectangular.removeRow hr
  obtain ⟨hi, rfl⟩ := removeRow_eq_ok_iff.mp hr
  refine ⟨hrect, h.cost_eq_none_iff, h.nonempty, hbasic, hnodup, ?_, ?_⟩
  · exact NameIndex.lists_ofNames hnodup
  · intro ratios hratios
    cases hratios

/-! Cutting off columns. -/

/-- Basic variables in front of the cut stay basic. -/
theorem BasicIn.truncate {n : Nat} (h : t.truncate n = .ok t') (hb : t.BasicIn l m) (hm : m < n) :
    t'.BasicIn l m := by
  obtain ⟨r, hr, hname, hcost⟩ := hb.exists_row
  refine .of_row (r := { r with values := r.values.take n }) ?_ hb.pos ?_ hname ?_ ?_ ?_
  · rw [getElem?_rows_truncate h, hr, Option.map_some]
  · rwa [length_columns_truncate h]
  · rw [price_truncate h hm]
    exact hcost
  · rw [entry_truncate h hm, hb.entry_self]
  · intro k hk hkl
    rw [length_rows_truncate h] at hk
    rw [entry_truncate h hm, hb.entry_other k hk hkl]

/-- Columns are cut off in every row. -/
theorem Rectangular.truncate {n : Nat} (h : t.Rectangular) (ht : t.truncate n = .ok t') : t'.Rectangular := by
  obtain ⟨-, rfl⟩ := truncate_eq_ok_iff.mp ht
  intro r hr
  obtain ⟨r', hr', rfl⟩ := List.mem_map.mp hr
  rw [List.length_take, List.length_take, h r' hr']

/-- Cutting off columns that are not basic keeps a tableau well formed. -/
theorem WellFormed.truncate {n : Nat} (h : t.WellFormed) (ht : t.truncate n = .ok t')
    (hfront : ∀ i j, t.BasicIn i j → j < n) : t'.WellFormed := by
  have hbasic : ∀ l, l < t'.rows.length → ∃ m, t'.BasicIn l m := by
    intro l hl
    rw [length_rows_truncate ht] at hl
    obtain ⟨m, hm⟩ := h.basic l hl
    exact ⟨m, hm.truncate ht (hfront l m hm)⟩
  have hnodup := names_nodup_of_basic hbasic
  have hlists : ∀ name i, t'.rowOf? name = some i ↔ t'.names[i]? = some name := by
    intro name i
    rw [rowOf?_truncate ht, names_truncate ht]
    exact h.rowOf?_eq_some_iff name i
  have hrect := h.rectangular.truncate ht
  obtain ⟨⟨hn, hle⟩, rfl⟩ := truncate_eq_ok_iff.mp ht
  refine ⟨hrect, ?_, ?_, hbasic, hnodup, hlists, ?_⟩
  · intro j hj
    rw [List.length_take] at hj
    rw [List.getElem?_take_of_lt (by omega)]
    exact h.cost_eq_none_iff j (by omega)
  · rw [List.length_take]
    omega
  · intro ratios hratios
    cases hratios

/-- Cutting off columns leaves the basic solution. -/
theorem variableValue_truncate {n : Nat} (h : t.truncate n = .ok t') (j : Nat) :
    t'.variableValue j = t.variableValue j := by
  have hn := (truncate_eq_ok_iff.mp h).1.1
  rw [variableValue, variableValue, rowOf?_truncate h]
  cases t.rowOf? (variableName j) with
  | none => rfl
  | some i => exact entry_truncate h hn

/-! Appending a row. -/

section AppendRow

variable {values : List Rat}

/-- Basic variables with a zero in the appended row stay basic. -/
theorem BasicIn.appendRow (hrect : t.Rectangular) (h : t.appendRow values = .ok t') (hb : t.BasicIn l m)
    (hzero : values[m]?.getD 0 = 0) : t'.BasicIn l m := by
  obtain ⟨r, hr, hname, hcost⟩ := hb.exists_row
  have hl := hb.lt_rows
  refine .of_row (r := { r with values := r.values ++ [0] }) ?_ hb.pos ?_ hname ?_ ?_ ?_
  · rw [getElem?_rows_appendRow_of_lt h hl, hr, Option.map_some]
  · rw [length_columns_appendRow h]
    exact Nat.lt_succ_of_lt hb.lt
  · rw [price_appendRow_of_lt h hb.lt]
    exact hcost
  · rw [entry_appendRow_of_lt h hrect hl, hb.entry_self]
  · intro k hk hkl
    rw [length_rows_appendRow h] at hk
    by_cases hlast : k = t.rows.length
    · rw [hlast, entry_appendRow_last h, hzero]
    · rw [entry_appendRow_of_lt h hrect (by omega)]
      exact hb.entry_other k (by omega) hkl

/-- The variable of the new column is basic in the appended row. -/
theorem basicIn_appendRow_last (hpos : 0 < t.columns.length) (hrect : t.Rectangular)
    (h : t.appendRow values = .ok t') (hlast : values[t.columns.length]? = some 1) :
    t'.BasicIn t.rows.length t.columns.length := by
  refine .of_row (getElem?_rows_appendRow_last h) hpos ?_ rfl ?_ ?_ ?_
  · rw [length_columns_appendRow h]
    exact Nat.lt_succ_self _
  · exact (price_appendRow_last h).symm
  · rw [entry_appendRow_last h, hlast]
    rfl
  · intro k hk hne
    rw [length_rows_appendRow h] at hk
    rw [entry_appendRow_of_lt h hrect (by omega), entry_eq_zero_of_columns_le hrect le_rfl]

/-- The index finds the new name in the new row. -/
theorem WellFormed.lists_appendRow (h : t.WellFormed) (ha : t.appendRow values = .ok t') :
    NameIndex.Lists t'.index t'.names := by
  have hold : NameIndex.Lists t.index t.names := h.rowOf?_eq_some_iff
  have happend := hold.append h.variableName_notMem_names
  rwa [names, List.length_map, ← names, ← names_appendRow ha, ← index_appendRow ha] at happend

/-- Every row gets a number for the new column, and the new row has one for each. -/
theorem Rectangular.appendRow (h : t.Rectangular) (ha : t.appendRow values = .ok t') : t'.Rectangular := by
  obtain ⟨hlength, rfl⟩ := appendRow_eq_ok_iff.mp ha
  intro r hr
  rw [List.length_append, List.length_singleton]
  rcases List.mem_append.mp hr with hr | hr
  · obtain ⟨r', hr', rfl⟩ := List.mem_map.mp hr
    rw [List.length_append, List.length_singleton, h r' hr']
  · rw [List.mem_singleton.mp hr, hlength]

/-- Appending a row that is zero in the basic columns, with a one for its own variable, keeps a tableau
well formed. -/
theorem WellFormed.appendRow (h : t.WellFormed) (ha : t.appendRow values = .ok t')
    (hzero : ∀ i j, t.BasicIn i j → values[j]?.getD 0 = 0)
    (hlast : values[t.columns.length]? = some 1) : t'.WellFormed := by
  have hbasic : ∀ l, l < t'.rows.length → ∃ m, t'.BasicIn l m := by
    intro l hl
    rw [length_rows_appendRow ha] at hl
    by_cases hnew : l = t.rows.length
    · exact ⟨_, hnew ▸ basicIn_appendRow_last h.nonempty h.rectangular ha hlast⟩
    · obtain ⟨m, hm⟩ := h.basic l (by omega)
      exact ⟨m, hm.appendRow h.rectangular ha (hzero l m hm)⟩
  have hnodup := names_nodup_of_basic hbasic
  have hlists := h.lists_appendRow ha
  have hrect := h.rectangular.appendRow ha
  obtain ⟨-, rfl⟩ := appendRow_eq_ok_iff.mp ha
  refine ⟨hrect, ?_, ?_, hbasic, hnodup, hlists, ?_⟩
  · intro j hj
    rw [List.length_append, List.length_singleton] at hj
    by_cases hjlast : j = t.columns.length
    · have hpos := h.nonempty
      rw [hjlast, List.getElem?_append_right le_rfl]
      simp only [Nat.sub_self, List.getElem?_cons_zero, Option.bind_some, reduceCtorEq, false_iff]
      omega
    · rw [List.getElem?_append_left (by omega)]
      exact h.cost_eq_none_iff j (by omega)
  · rw [List.length_append, List.length_singleton]
    exact Nat.succ_pos _
  · intro ratios hratios
    cases hratios

end AppendRow

/-! Recording ratios. -/

/-- Recorded ratios have nothing to do with what is basic. -/
theorem basicIn_record {ratios : Ratios} (h : t.record ratios = .ok t') :
    t'.BasicIn i j ↔ t.BasicIn i j := by
  obtain ⟨-, rfl⟩ := record_eq_ok_iff.mp h
  exact ⟨fun hb => ⟨hb.pos, hb.lt, hb.name, hb.cost, hb.entry_self, hb.entry_other⟩,
    fun hb => ⟨hb.pos, hb.lt, hb.name, hb.cost, hb.entry_self, hb.entry_other⟩⟩

theorem Rectangular.record {ratios : Ratios} (h : t.Rectangular) (hr : t.record ratios = .ok t') :
    t'.Rectangular := by
  obtain ⟨-, rfl⟩ := record_eq_ok_iff.mp hr
  exact h

/-- Recording ratios keeps a tableau well formed. -/
theorem WellFormed.record {ratios : Ratios} (h : t.WellFormed) (hr : t.record ratios = .ok t') :
    t'.WellFormed := by
  have hbasic : ∀ i, i < t.rows.length → ∃ j, t'.BasicIn i j := by
    intro i hi
    obtain ⟨j, hj⟩ := h.basic i hi
    exact ⟨j, (basicIn_record hr).mpr hj⟩
  obtain ⟨hfits, rfl⟩ := record_eq_ok_iff.mp hr
  refine ⟨h.rectangular, h.cost_eq_none_iff, h.nonempty, hbasic, h.names_nodup, h.rowOf?_eq_some_iff, ?_⟩
  intro ratios' hratios
  cases hratios
  cases ratios <;> exact hfits

end Tableau

end ExactSimplex
