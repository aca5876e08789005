import ExactSimplex.Proofs.Tableau.Operations

/-!
# Looking names up and scanning for them

A name is to be found in the first row that it heads. The index of a new tableau finds it there, and so does the one
that is built anew when a row is removed. A pivot only erases the name that leaves and enters the one that comes, and
an appended row only enters its own. That is not enough where one of these names heads another row: the erased name
is not found any more, and the entered one is not found in front. Rows come to share a name where a variable enters
that heads another row already, so it does not take repeated names from the start.
-/

namespace ExactSimplex

namespace NameIndex

/-- The index finds the first place of every name, and none for a name that is missing. -/
def Scans (index : NameIndex) (names : List String) : Prop :=
  ∀ name : String, index[name]? = names.findIdx? (· = name)

section Scans

variable {index : NameIndex} {names front back : List String} {name old : String}

theorem scans_ofNames (names : List String) : Scans (ofNames 0 names) names := by
  intro name
  simp [getElem?_ofNames]

/-- A scan finds nothing exactly when the name is missing. -/
theorem findIdx?_eq_none_iff_notMem : names.findIdx? (· = name) = none ↔ name ∉ names := by
  rw [List.findIdx?_eq_none_iff]
  constructor
  · exact fun h hmem => of_decide_eq_false (h name hmem) rfl
  · exact fun h other hmem => decide_eq_false fun heq => h (heq ▸ hmem)

/-- A scan goes through the names in front of a name, then to the name itself, then behind it. -/
theorem findIdx?_append_cons (front back : List String) (middle name : String) :
    (front ++ middle :: back).findIdx? (· = name) = (front.findIdx? (· = name)).or
      (if middle = name then some front.length
        else (back.findIdx? (· = name)).map (· + 1 + front.length)) := by
  rw [List.findIdx?_append, List.findIdx?_cons]
  by_cases h : middle = name
  · simp [h]
  · simp [h, Function.comp_def]

/-- A scan stops at a name when the name does not stand in front. -/
theorem findIdx?_append_cons_self :
    (front ++ name :: back).findIdx? (· = name) = some front.length ↔ name ∉ front := by
  rw [findIdx?_append_cons, if_pos rfl, ← findIdx?_eq_none_iff_notMem]
  cases hfront : front.findIdx? (· = name) with
  | none => simp
  | some k =>
    have hlt := (List.findIdx?_eq_some_iff_getElem.mp hfront).1
    simp [hlt.ne]

/-- When one name replaces another, the index still finds first places exactly if the new name does not stand in front
and the old one does not stand elsewhere. -/
theorem Scans.replace_iff (new : String) (h : index.Scans (front ++ old :: back)) :
    Scans ((index.erase old).insert new front.length) (front ++ new :: back) ↔
      new ∉ front ∧ (old = new ∨ old ∉ front ++ back) := by
  have hold : old ≠ new →
      (((front ++ new :: back).findIdx? (· = old)) = none ↔ old ∉ front ++ back) := by
    intro hne
    rw [findIdx?_eq_none_iff_notMem]
    simp [hne]
  constructor
  · intro hscans
    have hnew := hscans new
    rw [getElem?_insert, if_pos rfl, eq_comm, findIdx?_append_cons_self] at hnew
    refine ⟨hnew, or_iff_not_imp_left.mpr fun hne => (hold hne).mp ?_⟩
    rw [← hscans old, getElem?_insert, if_neg (Ne.symm hne), getElem?_erase, if_pos rfl]
  · rintro ⟨hfront, helse⟩ name
    rw [getElem?_insert, getElem?_erase]
    by_cases hnew : new = name
    · subst hnew
      rw [if_pos rfl, eq_comm, findIdx?_append_cons_self]
      exact hfront
    · by_cases heq : old = name
      · subst heq
        rw [if_neg hnew, if_pos rfl]
        exact ((hold (Ne.symm hnew)).mpr (helse.resolve_left (Ne.symm hnew))).symm
      · -- Any other name stands where it stood.
        rw [if_neg hnew, if_neg heq, h name, findIdx?_append_cons, findIdx?_append_cons, if_neg hnew, if_neg heq]

/-- When a name is entered behind the others, the index still finds first places exactly if the name is a new one. -/
theorem Scans.append_iff (new : String) (h : index.Scans names) :
    Scans (index.insert new names.length) (names ++ [new]) ↔ new ∉ names := by
  constructor
  · intro hscans
    have hnew := hscans new
    rwa [getElem?_insert, if_pos rfl, eq_comm, findIdx?_append_cons_self] at hnew
  · intro hfresh name
    rw [getElem?_insert]
    by_cases hname : new = name
    · subst hname
      rw [if_pos rfl, eq_comm, findIdx?_append_cons_self]
      exact hfresh
    · rw [if_neg hname, h name, findIdx?_append_cons, if_neg hname]
      simp

end Scans

end NameIndex

namespace Tableau

variable {t t' : Tableau} {operation : Operation} {operations : List Operation} {i j : Nat}

/-- Names are found where a scan of the rows finds them. -/
def FindsFirst (t : Tableau) : Prop := NameIndex.Scans t.index t.names

/-- The value of variable `xj` as a scan of the rows tells it. -/
def scannedValue (t : Tableau) (j : Nat) : Rat :=
  ((t.rows.find? (·.name = variableName j)).map (·.bound)).getD 0

/-- The operation erases no name that heads another row, and enters none that heads a row in front. -/
def KeepsScan (t : Tableau) : Operation → Prop
  | .pivot i j => variableName j ∉ t.names.take i ∧
      (t.basicName i = variableName j ∨ t.basicName i ∉ t.names.eraseIdx i)
  | .appendRow _ => variableName t.columns.length ∉ t.names
  | .removeRow _ => True
  | .truncate _ => True
  | .record _ => True

instance (t : Tableau) (operation : Operation) : Decidable (t.KeepsScan operation) :=
  match operation with
  | .pivot i j => inferInstanceAs (Decidable (variableName j ∉ t.names.take i ∧
      (t.basicName i = variableName j ∨ t.basicName i ∉ t.names.eraseIdx i)))
  | .appendRow _ => inferInstanceAs (Decidable (variableName t.columns.length ∉ t.names))
  | .removeRow _ => isTrue trivial
  | .truncate _ => isTrue trivial
  | .record _ => isTrue trivial

/-- Each operation keeps the scan of the tableau that the ones before it lead to. -/
def KeepsScanAll : Tableau → List Operation → Prop
  | _, [] => True
  | t, operation :: operations =>
    t.KeepsScan operation ∧ ∀ t', t.perform operation = .ok t' → t'.KeepsScanAll operations

instance decidableKeepsScanAll :
    (t : Tableau) → (operations : List Operation) → Decidable (t.KeepsScanAll operations)
  | _, [] => isTrue trivial
  | t, operation :: operations =>
    match h : t.perform operation with
    | .ok t' =>
      have := decidableKeepsScanAll t' operations
      decidable_of_iff (t.KeepsScan operation ∧ t'.KeepsScanAll operations) (by simp [KeepsScanAll, h])
    | .error fault => decidable_of_iff (t.KeepsScan operation) (by simp [KeepsScanAll, h])

/-- Names are found where a scan finds them, in the tableau and in all that the operations lead to. -/
def FindsFirstAll : Tableau → List Operation → Prop
  | t, [] => t.FindsFirst
  | t, operation :: operations =>
    t.FindsFirst ∧ ∀ t', t.perform operation = .ok t' → t'.FindsFirstAll operations

/-! Single operations. -/

/-- A new tableau finds every name in the first row that it heads. -/
theorem findsFirst_make {sense : Sense} {basic : List (String × Cost)} {columns : List Column}
    {values : List (List Rat)} (h : make sense basic columns values = .ok t) : t.FindsFirst := by
  unfold make at h
  split at h
  · cases h
  · rename_i hcount
    split at h
    · cases h
    · split at h
      · cases h
      · cases h
        have hnames : (List.zipWith (fun (head : String × Cost) values => (⟨head.1, head.2, values⟩ : Row)) basic
            values).map (·.name) = basic.map (·.1) := by
          have hzip : (basic.zip values).map Prod.fst = basic := List.map_fst_zip (not_not.mp hcount).le
          conv_rhs => rw [← hzip, List.map_map]
          rw [List.map_zipWith, ← List.map_uncurry_zip_eq_zipWith]
          rfl
        rw [FindsFirst, names, hnames]
        exact NameIndex.scans_ofNames _

/-- So does the tableau of a program. -/
theorem findsFirst_ofProgram {p : Program} {basis : List Nat} (h : ofProgram p basis = .ok t) : t.FindsFirst := by
  unfold ofProgram at h
  split at h
  · cases h
  · split at h
    · cases h
    · exact findsFirst_make h

/-- A pivot takes the place of one name for another. -/
theorem findsFirst_pivot_iff (h : t.FindsFirst) (hp : t.pivot i j = .ok t') :
    t'.FindsFirst ↔ t.KeepsScan (.pivot i j) := by
  obtain ⟨leaving, hrow, -, -, -, rfl⟩ := pivot_eq_ok_iff.mp hp
  have hleaving : t.basicName i = leaving.name := by
    rw [basicName, hrow]
    rfl
  obtain ⟨hi, hname⟩ : ∃ hi : i < t.names.length, t.names[i] = leaving.name := by
    rw [← List.getElem?_eq_some_iff, names, List.getElem?_map, hrow, Option.map_some]
  have hlength : (t.names.take i).length = i := List.length_take_of_le hi.le
  have hsplit : t.names = t.names.take i ++ leaving.name :: t.names.drop (i + 1) := by
    rw [← hname, ← List.drop_eq_getElem_cons hi, List.take_append_drop]
  have hset : t.names.set i (variableName j) = t.names.take i ++ variableName j :: t.names.drop (i + 1) := by
    rw [List.set_eq_take_append_cons_drop, if_pos hi]
  rw [FindsFirst, hsplit] at h
  have hiff := h.replace_iff (variableName j)
  rw [hlength, ← hset, ← List.eraseIdx_eq_take_drop_succ] at hiff
  rw [FindsFirst, names_exchange, KeepsScan, hleaving]
  exact hiff

/-- Removing a row builds the index anew, whatever was in it. -/
theorem findsFirst_removeRow (hr : t.removeRow i = .ok t') : t'.FindsFirst := by
  obtain ⟨-, rfl⟩ := removeRow_eq_ok_iff.mp hr
  exact NameIndex.scans_ofNames _

/-- An operation on a tableau that finds first rows leads to one that does exactly when it keeps the scan. -/
theorem findsFirst_perform_iff (h : t.FindsFirst) (hperform : t.perform operation = .ok t') :
    t'.FindsFirst ↔ t.KeepsScan operation := by
  cases operation with
  | pivot i j => exact findsFirst_pivot_iff h hperform
  | removeRow i => exact iff_of_true (findsFirst_removeRow hperform) trivial
  | truncate n =>
    refine iff_of_true (fun name => ?_) trivial
    rw [names_truncate hperform, ← h name]
    exact rowOf?_truncate hperform name
  | appendRow values =>
    have hlength : t.names.length = t.rows.length := List.length_map ..
    rw [FindsFirst, names_appendRow hperform, index_appendRow hperform, ← hlength]
    exact h.append_iff _
  | record ratios =>
    obtain ⟨-, rfl⟩ := record_eq_ok_iff.mp hperform
    exact iff_of_true h trivial

/-- Where names are found in first rows, values are those that a scan tells. -/
theorem FindsFirst.variableValue_eq (h : t.FindsFirst) (j : Nat) : t.variableValue j = t.scannedValue j := by
  have hrow : t.rowOf? (variableName j) = t.rows.findIdx? (·.name = variableName j) := by
    have hscan := h (variableName j)
    rwa [names, List.findIdx?_map] at hscan
  rw [variableValue, hrow, scannedValue, List.find?_eq_bind_findIdx?_getElem?]
  cases t.rows.findIdx? (·.name = variableName j) with
  | none => rfl
  | some i => rfl

/-! Sequences of operations. -/

theorem FindsFirstAll.head (h : t.FindsFirstAll operations) : t.FindsFirst := by
  cases operations with
  | nil => exact h
  | cons operation operations => exact h.1

theorem FindsFirstAll.last {last : Tableau} (h : t.FindsFirstAll operations)
    (hrun : t.performAll operations = .ok last) : last.FindsFirst := by
  induction operations generalizing t with
  | nil =>
    cases hrun
    exact h
  | cons operation operations ih =>
    rw [performAll] at hrun
    split at hrun
    · rename_i t₁ hperform
      exact ih (h.2 t₁ hperform) hrun
    · cases hrun

/-- From a tableau that finds first rows on, names are found there all along exactly when each operation keeps the
scan. -/
theorem findsFirstAll_iff {last : Tableau} (h : t.FindsFirst) (hrun : t.performAll operations = .ok last) :
    t.FindsFirstAll operations ↔ t.KeepsScanAll operations := by
  induction operations generalizing t with
  | nil => exact iff_of_true h trivial
  | cons operation operations ih =>
    rw [performAll] at hrun
    split at hrun
    · rename_i t₁ hperform
      -- The operation leads to one tableau only.
      have hnext : ∀ P : Tableau → Prop, (∀ t', t.perform operation = .ok t' → P t') ↔ P t₁ := fun P =>
        ⟨fun hall => hall t₁ hperform, fun hP t' ht' => by cases hperform.symm.trans ht'; exact hP⟩
      have hstep := findsFirst_perform_iff h hperform
      rw [FindsFirstAll, KeepsScanAll, hnext, hnext]
      constructor
      · rintro ⟨-, hall⟩
        exact ⟨hstep.mp hall.head, (ih hall.head hrun).mp hall⟩
      · rintro ⟨hkeeps, hall⟩
        exact ⟨h, (ih (hstep.mpr hkeeps) hrun).mpr hall⟩
    · cases hrun

/-- In a tableau that was made from rows and columns, or from a program, and in all that operations lead to from
there, names are found in the first rows that they head exactly when each operation keeps the scan. Then the values of
the variables are those of the first rows. After any operations, removing a row makes names found there again. -/
theorem findsFirst_iff_keepsScan {last : Tableau}
    (hnew : (∃ sense basic columns values, make sense basic columns values = .ok t) ∨
      ∃ p basis, ofProgram p basis = .ok t)
    (hrun : t.performAll operations = .ok last) :
    (t.FindsFirstAll operations ↔ t.KeepsScanAll operations) ∧
    (t.KeepsScanAll operations →
      (∀ name, last.rowOf? name = last.names.findIdx? (· = name)) ∧
        ∀ j, last.variableValue j = last.scannedValue j) ∧
    ∀ i t', last.removeRow i = .ok t' → t'.FindsFirst := by
  have hfirst : t.FindsFirst := by
    rcases hnew with ⟨_, _, _, _, hmake⟩ | ⟨_, _, hprogram⟩
    · exact findsFirst_make hmake
    · exact findsFirst_ofProgram hprogram
  have hiff := findsFirstAll_iff hfirst hrun
  refine ⟨hiff, fun hkeeps => ?_, fun i t' hr => findsFirst_removeRow hr⟩
  have hlast := (hiff.mpr hkeeps).last hrun
  exact ⟨hlast, hlast.variableValue_eq⟩

/-- Three rows, of which two are headed by the same variable. -/
def twofold : Tableau where
  sense := .maximize
  rows := [⟨"x1", ⟨0, 2⟩, [2, 1, 1, 0]⟩, ⟨"x2", ⟨0, 3⟩, [3, 0, 1, 1]⟩, ⟨"x1", ⟨0, 2⟩, [4, 1, 0, 1]⟩]
  columns := [⟨"A0", none⟩, ⟨"A1", some ⟨0, 2⟩⟩, ⟨"A2", some ⟨0, 3⟩⟩, ⟨"A3", some 0⟩]
  ratios := none
  index := NameIndex.ofNames 0 ["x1", "x2", "x1"]

theorem make_twofold : make .maximize [("x1", ⟨0, 2⟩), ("x2", ⟨0, 3⟩), ("x1", ⟨0, 2⟩)] twofold.columns
    [[2, 1, 1, 0], [3, 0, 1, 1], [4, 1, 0, 1]] = .ok twofold := rfl

/-- The name that is not repeated leaves for another one, a row is appended, and the first of the repeated names is
removed with its row. The variable of the appended row leaves before its column is cut off and another row takes its
name. -/
def regrouping : List Operation :=
  [.pivot 1 3, .appendRow [-1, 0, -1, 0, 1], .removeRow 0, .pivot 2 2, .truncate 4, .appendRow [1, 0, 1, 0, 1]]

theorem findsFirst_regrouping : ∃ last, twofold.performAll regrouping = .ok last ∧
    last.names = ["x3", "x1", "x2", "x4"] ∧ twofold.KeepsScanAll regrouping ∧
    twofold.FindsFirstAll regrouping ∧ (∀ name, last.rowOf? name = last.names.findIdx? (· = name)) ∧
    ∀ j, last.variableValue j = last.scannedValue j := by
  obtain ⟨last, hrun, hnames⟩ : ∃ last, twofold.performAll regrouping = .ok last ∧
      last.names = ["x3", "x1", "x2", "x4"] := exists_performAll_of_map names (by decide +kernel)
  obtain ⟨hiff, hfinds, -⟩ := findsFirst_iff_keepsScan (Or.inl ⟨_, _, _, _, make_twofold⟩) hrun
  have hkeeps : twofold.KeepsScanAll regrouping := by decide +kernel
  obtain ⟨hrow, hvalue⟩ := hfinds hkeeps
  exact ⟨last, hrun, hnames, hkeeps, hiff.mpr hkeeps, hrow, hvalue⟩

/-- Two products that share two resources, with no slack variables. -/
def bare : Program where
  sense := .maximize
  objective := [1, 1]
  slackCosts := []
  artificialCosts := []
  constraints := [⟨[1, 1], .le, 3⟩, ⟨[1, 2], .le, 4⟩]

/-- The second product enters in the row of the first one while it heads a row itself, and leaves again. Then its own
row is not found any more. -/
theorem exists_row_not_found : ∃ t last, ofProgram bare [1, 2] = .ok t ∧
    t.performAll [.pivot 0 2, .pivot 0 1] = .ok last ∧ last.names = ["x1", "x2"] ∧
    last.names.findIdx? (· = "x2") = some 1 ∧ last.rowOf? "x2" = none ∧
    last.scannedValue 2 = 1 ∧ last.variableValue 2 = 0 := by
  obtain ⟨last, hrun, hread⟩ : ∃ last, (start bare [1, 2]).performAll [.pivot 0 2, .pivot 0 1] = .ok last ∧
      (last.names, last.rowOf? "x2", last.scannedValue 2, last.variableValue 2) = (["x1", "x2"], none, 1, 0) :=
    exists_performAll_of_map (fun t => (t.names, t.rowOf? "x2", t.scannedValue 2, t.variableValue 2))
      (by decide +kernel)
  simp only [Prod.mk.injEq] at hread
  obtain ⟨hnames, hrow, hscanned, hvalue⟩ := hread
  exact ⟨start bare [1, 2], last, rfl, hrun, hnames, by rw [hnames]; rfl, hrow, hscanned, hvalue⟩

end Tableau

end ExactSimplex
