import ExactSimplex.Program.Basis
import ExactSimplex.Proofs.Program.Transformed

/-!
# The starting basis of an augmented program

Slack and artificial variables are taken for the rows in which their columns are unit vectors. An
augmented program has such a variable for every row, so no row falls back on a decision variable.
-/

namespace ExactSimplex

/-- All coefficients are zero when there is none but zero at every position. -/
theorem forall_mem_eq_zero_iff {as : List Rat} : (∀ a ∈ as, a = 0) ↔ ∀ k : Nat, as[k]?.getD 0 = 0 := by
  constructor
  · intro h k
    cases hk : as[k]? with
    | none => rfl
    | some a => exact h a (List.mem_of_getElem? hk)
  · intro h a ha
    obtain ⟨k, hk⟩ := List.mem_iff_getElem?.mp ha
    have hzero := h k
    rwa [hk] at hzero

/-- A unit column has a one at its position and zeros elsewhere. -/
theorem unitRow?_eq_some_iff {as : List Rat} {i : Nat} :
    unitRow? as = some i ↔ as[i]? = some 1 ∧ ∀ k, k ≠ i → as[k]?.getD 0 = 0 := by
  induction as generalizing i with
  | nil => simp [unitRow?]
  | cons a as ih =>
    rw [unitRow?]
    by_cases hzero : a = 0
    · subst hzero
      rw [if_pos rfl, Option.map_eq_some_iff]
      cases i with
      | zero =>
        simp only [Nat.succ_ne_zero, and_false, exists_const, List.getElem?_cons_zero, Option.some.injEq,
          zero_ne_one, false_and]
      | succ i =>
        simp only [Nat.add_right_cancel_iff, exists_eq_right, ih, List.getElem?_cons_succ]
        refine and_congr_right fun _ => ⟨fun h k hk => ?_, fun h k hk => ?_⟩
        · cases k with
          | zero => rfl
          | succ k => exact h k (by omega)
        · exact h (k + 1) (by omega)
    · rw [if_neg hzero]
      constructor
      · intro h
        split at h
        · rename_i hunit
          cases h
          refine ⟨by rw [hunit.1, List.getElem?_cons_zero], fun k hk => ?_⟩
          obtain ⟨m, rfl⟩ := Nat.exists_eq_succ_of_ne_zero hk
          rw [List.getElem?_cons_succ]
          exact forall_mem_eq_zero_iff.mp hunit.2 m
        · cases h
      · rintro ⟨hone, hother⟩
        cases i with
        | zero =>
          rw [List.getElem?_cons_zero, Option.some.injEq] at hone
          refine if_pos ⟨hone, forall_mem_eq_zero_iff.mpr fun k => ?_⟩
          have hk := hother (k + 1) (Nat.succ_ne_zero k)
          rwa [List.getElem?_cons_succ] at hk
        | succ i =>
          have hhead := hother 0 (Nat.succ_ne_zero i).symm
          rw [List.getElem?_cons_zero] at hhead
          exact absurd hhead hzero

/-- Only the slack variable of a constraint that is `<=` has the coefficient one. -/
theorem Relation.eq_le_of_slack? {relation : Relation} (h : relation.slack? = some 1) : relation = .le := by
  cases relation with
  | le => rfl
  | ge => exact absurd (Option.some.inj h) (by norm_num)
  | eq => cases h

namespace Program

variable {p : Program} {b : Basis} {c : Constraint} {i j m : Nat}

/-- The variable at position `j` has the unit vector of row `i` as its column. -/
def UnitAt (p : Program) (i j : Nat) : Prop :=
  ∀ k c, p.constraints[k]? = some c → c.coefficients[j]?.getD 0 = if k = i then 1 else 0

/-- A unit column is zero but in its row, where it is one. -/
theorem UnitAt.of_ne_zero {k : Nat} {v : Rat} (h : p.UnitAt i m) (hc : p.constraints[k]? = some c)
    (hv : c.coefficients[m]?.getD 0 = v) (hne : v ≠ 0) : k = i ∧ v = 1 := by
  have hentry := h k c hc
  rw [hv] at hentry
  by_cases hk : k = i
  · exact ⟨hk, hentry.trans (if_pos hk)⟩
  · exact absurd (hentry.trans (if_neg hk)) hne

/-- A unit column is found in its row. -/
theorem unitRow?_column (hi : i < p.constraints.length) :
    unitRow? (p.column j) = some i ↔ p.UnitAt i j := by
  rw [unitRow?_eq_some_iff, column]
  constructor
  · rintro ⟨hone, hother⟩ k c hc
    rw [List.getElem?_map, Option.map_eq_some_iff] at hone
    by_cases hk : k = i
    · obtain ⟨c', hc', heq⟩ := hone
      rw [hk, hc', Option.some.injEq] at hc
      rw [if_pos hk, ← hc, heq]
    · have hzero := hother k hk
      rw [List.getElem?_map, hc, Option.map_some, Option.getD_some] at hzero
      rw [if_neg hk, hzero]
  · intro hunit
    constructor
    · have hget := List.getElem?_eq_getElem hi
      rw [List.getElem?_map, hget, Option.map_some, hunit i _ hget, if_pos rfl]
    · intro k hk
      rw [List.getElem?_map]
      cases hc : p.constraints[k]? with
      | none => rfl
      | some c => rw [Option.map_some, Option.getD_some, hunit k c hc, if_neg hk]

@[simp] theorem length_takeRow (p : Program) (slots : List (Option Nat)) (j : Nat) :
    (p.takeRow slots j).length = slots.length := by
  unfold takeRow
  split <;> simp

/-- A row that is taken stays so, and others are taken by unit columns only. -/
theorem getElem?_takeRow (p : Program) (slots : List (Option Nat)) (i j : Nat) :
    (p.takeRow slots j)[i]? = slots[i]?.map fun slot =>
      if unitRow? (p.column j) = some i then slot.or (some (j + 1)) else slot := by
  unfold takeRow
  cases hunit : unitRow? (p.column j) with
  | none => simp
  | some k =>
    simp only [List.getElem?_modify, Option.some.injEq]
    by_cases hk : k = i
    · simp [hk]
    · simp [hk]

@[simp] theorem length_foldl_takeRow (p : Program) (l : List Nat) (slots : List (Option Nat)) :
    (l.foldl p.takeRow slots).length = slots.length := by
  induction l generalizing slots with
  | nil => rfl
  | cons m l ih => rw [List.foldl_cons, ih, length_takeRow]

/-- A row that is free is taken by the first of the variables whose column is its unit vector. -/
theorem getElem?_foldl_takeRow (p : Program) (l : List Nat) (slots : List (Option Nat)) (i : Nat) :
    (l.foldl p.takeRow slots)[i]? = slots[i]?.map fun slot =>
      slot.or ((l.find? fun m => unitRow? (p.column m) = some i).map (· + 1)) := by
  induction l generalizing slots with
  | nil => simp
  | cons m l ih =>
    rw [List.foldl_cons, ih, getElem?_takeRow, Option.map_map]
    congr 1
    funext slot
    -- The variable takes the row if that is still free, or leaves it to those that follow.
    by_cases hunit : unitRow? (p.column m) = some i
    · simp [hunit]
    · simp [hunit]

theorem length_unitColumns (p : Program) : p.unitColumns.length = p.constraints.length := by
  rw [unitColumns, length_foldl_takeRow, List.length_replicate]

/-- The slack and artificial variables are tried. -/
theorem mem_range'_unitColumns :
    m ∈ List.range' p.decisions (p.slacks + p.artificials) ↔ p.decisions ≤ m ∧ m < p.variableCount := by
  rw [List.mem_range'_1, variableCount]
  omega

/-- A row is taken by the first slack or artificial variable whose column is its unit vector. -/
theorem getElem?_unitColumns (hi : i < p.constraints.length) :
    p.unitColumns[i]? = some (((List.range' p.decisions (p.slacks + p.artificials)).find? fun m =>
      unitRow? (p.column m) = some i).map (· + 1)) := by
  rw [unitColumns, getElem?_foldl_takeRow, List.getElem?_replicate_of_lt hi, Option.map_some, Option.none_or]

/-- What a row gets is its first unit column behind the decision variables. -/
theorem getElem?_unitColumns_eq_some_iff (hi : i < p.constraints.length) : p.unitColumns[i]? = some (some j) ↔
    p.decisions < j ∧ j ≤ p.variableCount ∧ p.UnitAt i (j - 1) ∧
      ∀ m, p.decisions ≤ m → m < j - 1 → ¬ p.UnitAt i m := by
  rw [getElem?_unitColumns hi, Option.some.injEq, Option.map_eq_some_iff]
  cases j with
  | zero => simp
  | succ j =>
    simp only [Nat.add_right_cancel_iff, exists_eq_right, List.find?_range'_eq_some, mem_range'_unitColumns,
      unitRow?_column hi, Bool.not_eq_true', decide_eq_true_iff, decide_eq_false_iff_not, Nat.add_sub_cancel,
      Nat.lt_succ_iff, Nat.succ_le_iff]
    tauto

/-- A row with a unit column among the slack and artificial variables gets one. -/
theorem isSome_unitColumns (hi : i < p.constraints.length)
    (h : ∃ m, p.decisions ≤ m ∧ m < p.variableCount ∧ p.UnitAt i m) :
    ∃ j, p.unitColumns[i]? = some (some j) := by
  obtain ⟨m, hle, hlt, hunit⟩ := h
  have hfound : ((List.range' p.decisions (p.slacks + p.artificials)).find? fun m =>
      unitRow? (p.column m) = some i).isSome :=
    List.find?_isSome.mpr ⟨m, mem_range'_unitColumns.mpr ⟨hle, hlt⟩,
      decide_eq_true ((unitRow?_column hi).mpr hunit)⟩
  obtain ⟨m', hm'⟩ := Option.isSome_iff_exists.mp hfound
  exact ⟨m' + 1, by rw [getElem?_unitColumns hi, hm', Option.map_some]⟩

/-- What a row gets is a unit column of the row, behind the decision variables. -/
theorem unitAt_of_unitColumns (h : p.unitColumns[i]? = some (some j)) :
    p.decisions < j ∧ j ≤ p.variableCount ∧ p.UnitAt i (j - 1) := by
  have hi : i < p.constraints.length := p.length_unitColumns ▸ (List.getElem?_eq_some_iff.mp h).1
  obtain ⟨hlt, hle, hunit, -⟩ := (getElem?_unitColumns_eq_some_iff hi).mp h
  exact ⟨hlt, hle, hunit⟩

/-- For each row the variable that it is given, by its column. -/
def choices (p : Program) : List (Option Nat) :=
  List.zipWith (fun slot c => slot.or (p.fallbackColumn? c)) p.unitColumns p.constraints

/-- The rows without a unit column among the slack and artificial variables. -/
def uncovered (p : Program) : List Nat :=
  (List.range p.unitColumns.length).filter fun i => p.unitColumns[i]? = some none

/-- A row is given what the scan of the unit columns found for it, or else the decision variable that it falls back
on. -/
theorem getElem?_choices {slot : Option Nat} (hslot : p.unitColumns[i]? = some slot)
    (hc : p.constraints[i]? = some c) : p.choices[i]? = some (slot.or (p.fallbackColumn? c)) := by
  rw [choices, List.getElem?_zipWith, hslot, hc]

theorem length_choices (p : Program) : p.choices.length = p.constraints.length := by
  rw [choices, List.length_zipWith, length_unitColumns, Nat.min_self]

theorem mem_uncovered_iff : i ∈ p.uncovered ↔ p.unitColumns[i]? = some none := by
  rw [uncovered, List.mem_filter, List.mem_range, decide_eq_true_iff]
  exact and_iff_right_of_imp fun h => (List.getElem?_eq_some_iff.mp h).1

theorem nodup_uncovered (p : Program) : p.uncovered.Nodup := List.nodup_range.filter _

/-- When each option has a value, there is a list of the values. -/
theorem exists_eq_map_some {l : List (Option Nat)} (h : ∀ slot ∈ l, ∃ j, slot = some j) :
    ∃ columns : List Nat, l = columns.map some := by
  induction l with
  | nil => exact ⟨[], rfl⟩
  | cons slot l ih =>
    obtain ⟨j, rfl⟩ := h slot List.mem_cons_self
    obtain ⟨columns, rfl⟩ := ih fun slot' hslot' => h slot' (List.mem_cons_of_mem _ hslot')
    exact ⟨j :: columns, rfl⟩

/-- The choices make a starting basis when no row is without a variable. -/
theorem initialBasis_of_none (h : p.choices.findIdx? (·.isNone) = none) :
    p.initialBasis = .ok ⟨p.choices.filterMap id, p.uncovered⟩ := by
  rw [choices] at h
  simp only [initialBasis, h]
  rfl

/-- The first row without a variable is reported. -/
theorem initialBasis_of_some {row : Nat} (h : p.choices.findIdx? (·.isNone) = some row) :
    p.initialBasis = .error (.noInitialBasis row) := by
  rw [choices] at h
  simp only [initialBasis, h]

/-- There is no starting basis when a row is without a variable, and the first one is reported. -/
theorem initialBasis_eq_error_iff {failure : Failure} : p.initialBasis = .error failure ↔
    ∃ row, p.choices.findIdx? (·.isNone) = some row ∧ failure = .noInitialBasis row := by
  constructor
  · intro h
    cases hfind : p.choices.findIdx? (·.isNone) with
    | none =>
      rw [initialBasis_of_none hfind] at h
      cases h
    | some row =>
      rw [initialBasis_of_some hfind] at h
      cases h
      exact ⟨row, rfl, rfl⟩
  · rintro ⟨row, hfind, rfl⟩
    exact initialBasis_of_some hfind

/-- A starting basis is found when every row is given a variable. -/
theorem initialBasis_eq_ok_iff :
    p.initialBasis = .ok b ↔ p.choices = b.columns.map some ∧ b.fallback = p.uncovered := by
  constructor
  · intro h
    cases hfind : p.choices.findIdx? (·.isNone) with
    | some row =>
      rw [initialBasis_of_some hfind] at h
      cases h
    | none =>
      obtain ⟨columns, hcolumns⟩ := exists_eq_map_some fun slot hslot =>
        Option.isSome_iff_exists.mp (by simpa using List.findIdx?_eq_none_iff.mp hfind slot hslot)
      rw [initialBasis_of_none hfind] at h
      cases h
      simp [hcolumns]
  · rintro ⟨hchoices, hfallback⟩
    rw [initialBasis_of_none (by simp [hchoices]), hchoices, ← hfallback]
    simp

/-- Where every row has a unit column among the slack and artificial variables, these make the starting
basis. -/
theorem initialBasis_eq_ok
    (h : ∀ i, i < p.constraints.length → ∃ m, p.decisions ≤ m ∧ m < p.variableCount ∧ p.UnitAt i m) :
    ∃ columns, p.initialBasis = .ok ⟨columns, []⟩ ∧ columns.length = p.constraints.length ∧
      ∀ i j, columns[i]? = some j → p.decisions < j ∧ j ≤ p.variableCount ∧ p.UnitAt i (j - 1) := by
  have htaken : ∀ i, i < p.constraints.length → ∃ j, p.unitColumns[i]? = some (some j) :=
    fun i hi => isSome_unitColumns hi (h i hi)
  obtain ⟨columns, hcolumns⟩ : ∃ columns : List Nat, p.unitColumns = columns.map some := by
    apply exists_eq_map_some
    intro slot hslot
    obtain ⟨i, hi⟩ := List.mem_iff_getElem?.mp hslot
    obtain ⟨j, hj⟩ := htaken i (p.length_unitColumns ▸ (List.getElem?_eq_some_iff.mp hi).1)
    rw [hj, Option.some.injEq] at hi
    exact ⟨j, hi.symm⟩
  have hlength : columns.length = p.constraints.length := by
    rw [← p.length_unitColumns, hcolumns, List.length_map]
  have hchoices : p.choices = columns.map some := by
    apply List.ext_getElem (by rw [length_choices, List.length_map, hlength])
    intro i hi hi'
    simp [choices, hcolumns]
  have huncovered : p.uncovered = [] := by
    rw [List.eq_nil_iff_forall_not_mem]
    intro i hi
    rw [mem_uncovered_iff, hcolumns, List.getElem?_map] at hi
    simp at hi
  refine ⟨columns, initialBasis_eq_ok_iff.mpr ⟨hchoices, huncovered.symm⟩, hlength, fun i j hij =>
    unitAt_of_unitColumns ?_⟩
  rw [hcolumns, List.getElem?_map, hij, Option.map_some]

/-- Appended slack variables change no relation. -/
theorem exists_slacked (hc : p.canonicalize.constraints[i]? = some c) :
    ∃ c', p.slacked.constraints[i]? = some c' ∧ c'.relation = c.relation := by
  have hslacked := getElem?_appendColumns Relation.slack? (p.canonicalize.columnsFor Relation.slack?) 0
    p.canonicalize.constraints i
  rw [hc] at hslacked
  exact ⟨_, hslacked, rfl⟩

@[simp] theorem length_constraints_augmented (p : Program) :
    p.augmented.constraints.length = p.constraints.length := by
  rw [augmented, addArtificials, length_appendColumns, slacked, length_appendColumns, canonicalize,
    List.length_map]

/-- Appended artificial variables leave the constraints at their places. -/
theorem exists_augmented_of_slacked (hc : p.slacked.constraints[i]? = some c) :
    ∃ c', p.augmented.constraints[i]? = some c' := by
  have haugmented := getElem?_appendColumns Relation.artificial? (p.slacked.columnsFor Relation.artificial?) 0
    p.slacked.constraints i
  rw [hc] at haugmented
  exact ⟨_, haugmented⟩

/-- The position of the variable that is to be basic in the row of a canonical constraint: its slack variable if
it is `<=`, its artificial variable otherwise. -/
def startPosition (p : Program) (i : Nat) (c : Constraint) : Nat :=
  if c.relation = .le then p.decisions + columnPlace Relation.slack? p.canonicalize.constraints i
  else p.decisions + p.slacked.slacks + columnPlace Relation.artificial? p.slacked.constraints i

section Accepted

variable (hp : p.Accepted)

include hp

/-- There is a slack variable for each inequality, and an artificial variable for each constraint that is not
`<=`. -/
theorem Accepted.variableCount_augmented : p.augmented.variableCount =
    p.decisions + p.slacked.slacks + p.slacked.columnsFor Relation.artificial? := by
  rw [← hp.artificials_augmented]
  rfl

/-- Every inequality has taken one of the slack columns. -/
theorem Accepted.columnPlace_slack_lt (hc : p.canonicalize.constraints[i]? = some c)
    (hsome : c.relation.slack?.isSome) :
    columnPlace Relation.slack? p.canonicalize.constraints i < p.slacked.slacks :=
  hp.slacks_slacked ▸ columnPlace_lt hc hsome

/-- The column of a slack variable is zero but in the row of the slack variable. -/
theorem Accepted.coefficient_slack {k : Nat} {c' : Constraint} {v : Rat}
    (hc : p.canonicalize.constraints[i]? = some c) (hv : c.relation.slack? = some v)
    (hc' : p.augmented.constraints[k]? = some c') :
    c'.coefficients[p.decisions + columnPlace Relation.slack? p.canonicalize.constraints i]?.getD 0 =
      if k = i then v else 0 := by
  have hplace := hp.columnPlace_slack_lt hc (by rw [hv]; rfl)
  obtain ⟨c'', hc'', heq⟩ := getElem?_coefficients_appendColumns (fun _ h => hp.length_slacked h) hc'
    (Nat.add_lt_add_left hplace p.decisions)
  rw [heq]
  exact coefficient_appendColumns (fun _ h => hp.length_canonicalize h) hc hv hc''

/-- The artificial variable of a row has the unit vector of the row as its column. -/
theorem Accepted.unitAt_artificial (hc : p.slacked.constraints[i]? = some c)
    (hsome : c.relation.artificial?.isSome) :
    p.augmented.UnitAt i (p.decisions + p.slacked.slacks +
      columnPlace Relation.artificial? p.slacked.constraints i) := by
  intro k c' hc'
  have hv : c.relation.artificial? = some 1 := by
    cases hrel : c.relation with
    | le => rw [hrel] at hsome; cases hsome
    | ge => rfl
    | eq => rfl
  exact coefficient_appendColumns (fun _ h => hp.length_slacked h) hc hv hc'

/-- The starting variable of a row is a slack or an artificial variable, and has the unit vector of the row as its
column. -/
theorem Accepted.unitAt_startPosition (hc : p.canonicalize.constraints[i]? = some c) :
    p.augmented.decisions ≤ p.startPosition i c ∧ p.startPosition i c < p.augmented.variableCount ∧
      p.augmented.UnitAt i (p.startPosition i c) := by
  rw [decisions_augmented, hp.variableCount_augmented]
  by_cases hle : c.relation = .le
  · have hv : c.relation.slack? = some 1 := by rw [hle]; rfl
    have hplace := hp.columnPlace_slack_lt hc (by rw [hv]; rfl)
    rw [startPosition, if_pos hle]
    exact ⟨by omega, by omega, fun k c' hc' => hp.coefficient_slack hc hv hc'⟩
  · obtain ⟨c', hc', hrel⟩ := exists_slacked hc
    have hsome : c'.relation.artificial?.isSome := by
      rw [hrel, Relation.isSome_artificial?]
      exact decide_eq_true hle
    have hplace : columnPlace Relation.artificial? p.slacked.constraints i <
        p.slacked.columnsFor Relation.artificial? := columnPlace_lt hc' hsome
    rw [startPosition, if_neg hle]
    exact ⟨by omega, by omega, hp.unitAt_artificial hc' hsome⟩

/-- A slack variable with a unit column is that of its own row, and no surplus variable. -/
theorem Accepted.of_unitAt_slack {k : Nat} {v : Rat} (hc : p.canonicalize.constraints[k]? = some c)
    (hv : c.relation.slack? = some v)
    (hunit : p.augmented.UnitAt i (p.decisions + columnPlace Relation.slack? p.canonicalize.constraints k)) :
    k = i ∧ c.relation = .le := by
  obtain ⟨_, hslacked, -⟩ := exists_slacked hc
  obtain ⟨c', hc'⟩ := exists_augmented_of_slacked hslacked
  have hentry := hp.coefficient_slack hc hv hc'
  rw [if_pos rfl] at hentry
  obtain ⟨hki, rfl⟩ := hunit.of_ne_zero hc' hentry (Relation.slack_ne_zero hv)
  exact ⟨hki, Relation.eq_le_of_slack? hv⟩

/-- An artificial variable with a unit column is that of its own row. -/
theorem Accepted.of_unitAt_artificial {k : Nat} (hc : p.slacked.constraints[k]? = some c)
    (hsome : c.relation.artificial?.isSome)
    (hunit : p.augmented.UnitAt i (p.decisions + p.slacked.slacks +
      columnPlace Relation.artificial? p.slacked.constraints k)) : k = i := by
  obtain ⟨c', hc'⟩ := exists_augmented_of_slacked hc
  have hentry := hp.unitAt_artificial hc hsome k c' hc'
  rw [if_pos rfl] at hentry
  exact (hunit.of_ne_zero hc' hentry one_ne_zero).1

/-- No other slack or artificial variable has the unit vector of the row as its column. -/
theorem Accepted.eq_startPosition (hc : p.canonicalize.constraints[i]? = some c)
    (hle : p.augmented.decisions ≤ m) (hlt : m < p.augmented.variableCount) (hunit : p.augmented.UnitAt i m) :
    m = p.startPosition i c := by
  rw [decisions_augmented] at hle
  rw [hp.variableCount_augmented] at hlt
  by_cases hslack : m < p.decisions + p.slacked.slacks
  · have hplace : m - p.decisions < p.canonicalize.columnsFor Relation.slack? := by
      rw [← hp.slacks_slacked]
      omega
    obtain ⟨k, d, hd, hsome, heq⟩ := exists_columnPlace_eq _ _ hplace
    obtain ⟨v, hv⟩ := Option.isSome_iff_exists.mp hsome
    obtain rfl : m = p.decisions + columnPlace Relation.slack? p.canonicalize.constraints k := by omega
    obtain ⟨rfl, hrel⟩ := hp.of_unitAt_slack hd hv hunit
    rw [hd, Option.some.injEq] at hc
    rw [startPosition, if_pos (hc ▸ hrel)]
  · have hplace : m - (p.decisions + p.slacked.slacks) < p.slacked.columnsFor Relation.artificial? := by omega
    obtain ⟨k, d, hd, hsome, heq⟩ := exists_columnPlace_eq _ _ hplace
    obtain rfl : m = p.decisions + p.slacked.slacks +
      columnPlace Relation.artificial? p.slacked.constraints k := by omega
    obtain rfl := hp.of_unitAt_artificial hd hsome hunit
    obtain ⟨c', hc', hrel⟩ := exists_slacked hc
    rw [hd, Option.some.injEq] at hc'
    rw [Relation.isSome_artificial?, hc', hrel] at hsome
    rw [startPosition, if_neg (of_decide_eq_true hsome)]

/-- The starting basis of an augmented program consists of the starting variables of its rows, which have unit
columns. No row falls back on a decision variable. -/
theorem Accepted.exists_initialBasis : ∃ columns, p.augmented.initialBasis = .ok ⟨columns, []⟩ ∧
    columns.length = p.augmented.constraints.length ∧
    (∀ i j, columns[i]? = some j → 0 < j ∧ j ≤ p.augmented.variableCount ∧ p.augmented.UnitAt i (j - 1)) ∧
    ∀ i c, p.canonicalize.constraints[i]? = some c → columns[i]? = some (p.startPosition i c + 1) := by
  have hrows : p.augmented.constraints.length = p.canonicalize.constraints.length := by
    rw [length_constraints_augmented, canonicalize, List.length_map]
  obtain ⟨columns, hinitial, hlength, hunit⟩ := initialBasis_eq_ok fun i (hi : i < p.augmented.constraints.length) =>
    ⟨_, hp.unitAt_startPosition (List.getElem?_eq_getElem (hrows ▸ hi))⟩
  refine ⟨columns, hinitial, hlength, fun i j hj => ?_, fun i c hc => ?_⟩
  · obtain ⟨hlt, hle, hcolumn⟩ := hunit i j hj
    exact ⟨Nat.zero_lt_of_lt hlt, hle, hcolumn⟩
  · have hi : i < columns.length := by
      rw [hlength, hrows]
      exact (List.getElem?_eq_some_iff.mp hc).1
    have hj := List.getElem?_eq_getElem hi
    obtain ⟨hlt, hle, hcolumn⟩ := hunit i _ hj
    have hposition := hp.eq_startPosition hc (Nat.le_sub_one_of_lt hlt) (by omega) hcolumn
    rw [hj, ← hposition, Nat.sub_add_cancel (Nat.zero_lt_of_lt hlt)]

end Accepted

end Program

end ExactSimplex
