import ExactSimplex.Proofs.Program.Fallback
import Mathlib.Data.List.Sort
import Mathlib.Order.Nat

/-!
# Which variables a starting basis consists of

A row is covered by a column of a slack or artificial variable that is the unit vector of the row, and can fall back on
a column of a decision variable with coefficient `1` or `-1`. A starting basis has in each row the smallest column that
covers it, and in a row that is not covered the smallest one that it can fall back on. This determines the basis. The
only reason why there is none is a row that has neither, and the smallest such row is reported. Column `j` is that of
the variable at position `j - 1`, as column `0` of a tableau holds the right-hand sides.
-/

namespace ExactSimplex

namespace Program

/-- Column `j` belongs to a slack or artificial variable, and has a one in row `i` and zeros in all other rows. -/
def CoveredBy (p : Program) (i j : Nat) : Prop :=
  (p.decisions < j ∧ j ≤ p.variableCount) ∧ i < p.constraints.length ∧
    ∀ k (hk : k < p.constraints.length),
      p.constraints[k].coefficients[j - 1]? = some (if k = i then 1 else 0)

instance (p : Program) (i j : Nat) : Decidable (p.CoveredBy i j) :=
  inferInstanceAs (Decidable ((p.decisions < j ∧ j ≤ p.variableCount) ∧ i < p.constraints.length ∧
    ∀ k (hk : k < p.constraints.length),
      p.constraints[k].coefficients[j - 1]? = some (if k = i then 1 else 0)))

/-- A slack or artificial variable covers the row. -/
def IsCovered (p : Program) (i : Nat) : Prop := ∃ j, p.CoveredBy i j

/-- Column `j` belongs to a decision variable, with coefficient `1` or `-1` in row `i`. -/
def CanFallBackOn (p : Program) (i j : Nat) : Prop :=
  (0 < j ∧ j ≤ p.decisions) ∧ ∃ hi : i < p.constraints.length, p.constraints[i].HasUnit (j - 1)

/-- No variable can be basic in the row from the start: it is not covered and has nothing to fall back on. -/
def IsStuck (p : Program) (i : Nat) : Prop :=
  i < p.constraints.length ∧ ¬ p.IsCovered i ∧ ∀ j, ¬ p.CanFallBackOn i j

end Program

/-- What a starting basis is promised to be, on the coefficients of the program alone. -/
structure Basis.IsStarting (p : Program) (b : Basis) : Prop where
  /-- There is a column for each row. -/
  length_columns : b.columns.length = p.constraints.length
  /-- A covered row has the smallest column that covers it. -/
  covered : ∀ i j, b.columns[i]? = some j → p.IsCovered i → IsLeast {m | p.CoveredBy i m} j
  /-- A row that is not covered has the smallest column that it can fall back on. -/
  uncovered : ∀ i j, b.columns[i]? = some j → ¬ p.IsCovered i → IsLeast {m | p.CanFallBackOn i m} j
  /-- The rows that fell back are listed in increasing order. -/
  sortedLT_fallback : b.fallback.SortedLT
  /-- Exactly the rows that are not covered fell back. -/
  mem_fallback : ∀ i, i ∈ b.fallback ↔ i < p.constraints.length ∧ ¬ p.IsCovered i

/-- A search that finds the least number with a property finds none only where no number has it. -/
theorem eq_none_iff_of_isLeast {P : Nat → Prop} {found : Option Nat}
    (h : ∀ n, found = some n ↔ IsLeast {m | P m} n) : found = none ↔ ∀ n, ¬ P n := by
  classical
  constructor
  · rintro rfl n hn
    cases (h _).mpr (Nat.isLeast_find ⟨n, hn⟩)
  · intro hnot
    rw [Option.eq_none_iff_forall_ne_some]
    intro n hn
    exact hnot n ((h n).mp hn).1

namespace Program

variable {p : Program} {b : Basis} {c : Constraint} {i j row : Nat}

/-- The variable that a row falls back on has the smallest column that it can fall back on. -/
theorem fallbackColumn?_eq_some_iff_isLeast (hc : p.constraints[i]? = some c) :
    p.fallbackColumn? c = some j ↔ IsLeast {m | p.CanFallBackOn i m} j := by
  obtain ⟨hi, rfl⟩ := List.getElem?_eq_some_iff.mp hc
  rw [fallbackColumn?_eq_some_iff]
  constructor
  · rintro ⟨hpos, hle, hunit, hfirst⟩
    refine ⟨⟨⟨hpos, hle⟩, hi, hunit⟩, ?_⟩
    rintro m ⟨⟨hm, -⟩, _, hunit'⟩
    by_contra hlt
    exact hfirst (m - 1) (by omega) hunit'
  · rintro ⟨⟨⟨hpos, hle⟩, _, hunit⟩, hleast⟩
    refine ⟨hpos, hle, hunit, fun m hm hunit' => ?_⟩
    have hjm : j ≤ m + 1 := hleast ⟨⟨Nat.succ_pos m, by omega⟩, hi, hunit'⟩
    omega

section Consistent

variable (h : p.IsConsistent)

include h

/-- Every constraint has a coefficient in each column, so that a column covers a row when it is its unit vector. -/
theorem IsConsistent.coveredBy_iff (hi : i < p.constraints.length) :
    p.CoveredBy i j ↔ (p.decisions < j ∧ j ≤ p.variableCount) ∧ p.UnitAt i (j - 1) := by
  refine and_congr_right fun ⟨hlt, hle⟩ => ?_
  constructor
  · rintro ⟨-, hcolumn⟩ k c hc
    obtain ⟨hk, rfl⟩ := List.getElem?_eq_some_iff.mp hc
    rw [hcolumn k hk, Option.getD_some]
  · intro hunit
    refine ⟨hi, fun k hk => ?_⟩
    have hlength : j - 1 < p.constraints[k].coefficients.length := by
      rw [h.2.2 _ (List.getElem_mem hk)]
      omega
    have hentry := hunit k _ (List.getElem?_eq_getElem hk)
    rw [List.getElem?_eq_getElem hlength, Option.getD_some] at hentry
    rw [List.getElem?_eq_getElem hlength, hentry]

/-- The scan of the unit columns gives a row the smallest column that covers it. -/
theorem IsConsistent.getElem?_unitColumns_eq_some_iff_isLeast (hi : i < p.constraints.length) :
    p.unitColumns[i]? = some (some j) ↔ IsLeast {m | p.CoveredBy i m} j := by
  rw [getElem?_unitColumns_eq_some_iff hi]
  constructor
  · rintro ⟨hlt, hle, hunit, hfirst⟩
    refine ⟨(h.coveredBy_iff hi).mpr ⟨⟨hlt, hle⟩, hunit⟩, fun m hm => ?_⟩
    obtain ⟨⟨hlt', -⟩, hunit'⟩ := (h.coveredBy_iff hi).mp hm
    by_contra hmj
    exact hfirst (m - 1) (by omega) (by omega) hunit'
  · rintro ⟨hcovers, hleast⟩
    obtain ⟨⟨hlt, hle⟩, hunit⟩ := (h.coveredBy_iff hi).mp hcovers
    refine ⟨hlt, hle, hunit, fun m hm hmj hunit' => ?_⟩
    have hjm : j ≤ m + 1 := hleast ((h.coveredBy_iff hi).mpr ⟨⟨by omega, by omega⟩, hunit'⟩)
    omega

/-- What the two searches find for a row, of which the second counts where the first finds nothing. -/
theorem IsConsistent.exists_searches (hi : i < p.constraints.length) : ∃ slot fallback : Option Nat,
    p.unitColumns[i]? = some slot ∧ p.choices[i]? = some (slot.or fallback) ∧
    (∀ j, slot = some j ↔ IsLeast {m | p.CoveredBy i m} j) ∧
    ∀ j, fallback = some j ↔ IsLeast {m | p.CanFallBackOn i m} j := by
  have hc := List.getElem?_eq_getElem hi
  have hslot := List.getElem?_eq_getElem (p.length_unitColumns.symm ▸ hi)
  refine ⟨_, _, hslot, getElem?_choices hslot hc, fun j => ?_, fun j => fallbackColumn?_eq_some_iff_isLeast hc⟩
  rw [← h.getElem?_unitColumns_eq_some_iff_isLeast hi, hslot, Option.some.injEq]

/-- The rows that are left over by the scan are those that are not covered. -/
theorem IsConsistent.mem_uncovered_iff_not_isCovered :
    i ∈ p.uncovered ↔ i < p.constraints.length ∧ ¬ p.IsCovered i := by
  rw [mem_uncovered_iff]
  by_cases hi : i < p.constraints.length
  · obtain ⟨slot, -, hslot, -, hcovered, -⟩ := h.exists_searches hi
    rw [hslot, Option.some.injEq, eq_none_iff_of_isLeast hcovered, IsCovered, not_exists, and_iff_right hi]
  · simp [hi, p.length_unitColumns]

/-- A row is given the smallest column that covers it, or where there is none the smallest that it can fall back
on. -/
theorem IsConsistent.getElem?_choices_eq_some_iff (hi : i < p.constraints.length) : p.choices[i]? = some (some j) ↔
    (p.IsCovered i → IsLeast {m | p.CoveredBy i m} j) ∧
    (¬ p.IsCovered i → IsLeast {m | p.CanFallBackOn i m} j) := by
  obtain ⟨slot, fallback, -, hchoice, hcovered, hfallback⟩ := h.exists_searches hi
  rw [hchoice, Option.some.injEq, ← hcovered, ← hfallback]
  cases slot with
  | none =>
    have hnot : ¬ p.IsCovered i := not_exists.mpr ((eq_none_iff_of_isLeast hcovered).mp rfl)
    simp [hnot]
  | some m =>
    have hcovers : p.IsCovered i := ⟨m, ((hcovered m).mp rfl).1⟩
    simp [hcovers]

/-- A row is given nothing when it is stuck. -/
theorem IsConsistent.getElem?_choices_eq_none_iff : p.choices[i]? = some none ↔ p.IsStuck i := by
  by_cases hi : i < p.constraints.length
  · obtain ⟨slot, fallback, -, hchoice, hcovered, hfallback⟩ := h.exists_searches hi
    rw [hchoice, Option.some.injEq, Option.or_eq_none_iff, eq_none_iff_of_isLeast hcovered,
      eq_none_iff_of_isLeast hfallback, IsStuck, IsCovered, not_exists, and_iff_right hi]
  · simp [IsStuck, hi, p.length_choices]

/-- The first row that is given nothing is the smallest one that is stuck. -/
theorem IsConsistent.findIdx?_choices_eq_some_iff :
    p.choices.findIdx? (·.isNone) = some row ↔ IsLeast {i | p.IsStuck i} row := by
  rw [List.findIdx?_eq_some_iff_getElem]
  constructor
  · rintro ⟨hrow, hnone, hfirst⟩
    refine ⟨h.getElem?_choices_eq_none_iff.mp ?_, fun i hi => ?_⟩
    · rw [List.getElem?_eq_getElem hrow, Option.isNone_iff_eq_none.mp hnone]
    · obtain ⟨hlt, hget⟩ := List.getElem?_eq_some_iff.mp (h.getElem?_choices_eq_none_iff.mpr hi)
      by_contra hir
      exact hfirst i (not_le.mp hir) (Option.isNone_iff_eq_none.mpr hget)
  · rintro ⟨hstuck, hleast⟩
    obtain ⟨hrow, hget⟩ := List.getElem?_eq_some_iff.mp (h.getElem?_choices_eq_none_iff.mpr hstuck)
    refine ⟨hrow, Option.isNone_iff_eq_none.mpr hget, fun i hir hnone => ?_⟩
    have hi : p.IsStuck i := h.getElem?_choices_eq_none_iff.mp <| by
      rw [List.getElem?_eq_getElem (hir.trans hrow), Option.isNone_iff_eq_none.mp hnone]
    exact absurd (hleast hi) (not_le.mpr hir)

/-- The columns of a starting basis are those that its rows are given. -/
theorem IsConsistent.choices_eq_map_some_iff {columns : List Nat} : p.choices = columns.map some ↔
    columns.length = p.constraints.length ∧ ∀ i j, columns[i]? = some j →
      (p.IsCovered i → IsLeast {m | p.CoveredBy i m} j) ∧
      (¬ p.IsCovered i → IsLeast {m | p.CanFallBackOn i m} j) := by
  constructor
  · intro hchoices
    have hlength : columns.length = p.constraints.length := by
      rw [← p.length_choices, hchoices, List.length_map]
    refine ⟨hlength, fun i j hj => ?_⟩
    have hi : i < p.constraints.length := hlength ▸ (List.getElem?_eq_some_iff.mp hj).1
    rw [← h.getElem?_choices_eq_some_iff hi, hchoices, List.getElem?_map, hj, Option.map_some]
  · rintro ⟨hlength, hcolumns⟩
    apply List.ext_getElem?
    intro i
    by_cases hi : i < p.constraints.length
    · have hj := List.getElem?_eq_getElem (hlength.symm ▸ hi)
      rw [(h.getElem?_choices_eq_some_iff hi).mpr (hcolumns i _ hj), List.getElem?_map, hj, Option.map_some]
    · rw [List.getElem?_eq_none (by rw [p.length_choices]; omega),
        List.getElem?_eq_none (by rw [List.length_map]; omega)]

/-- The rows that are not covered are determined by their order. -/
theorem IsConsistent.eq_uncovered_iff {rows : List Nat} : rows = p.uncovered ↔
    rows.SortedLT ∧ ∀ i, i ∈ rows ↔ i < p.constraints.length ∧ ¬ p.IsCovered i := by
  have hsorted : p.uncovered.SortedLT := (List.pairwise_lt_range.filter _).sortedLT
  constructor
  · rintro rfl
    exact ⟨hsorted, fun i => h.mem_uncovered_iff_not_isCovered⟩
  · rintro ⟨hrows, hmem⟩
    apply hrows.eq_of_mem_iff hsorted
    intro i
    rw [hmem, h.mem_uncovered_iff_not_isCovered]

/-- What is found is what a starting basis is promised to be, and nothing else is. -/
theorem IsConsistent.initialBasis_eq_ok_iff_isStarting : p.initialBasis = .ok b ↔ b.IsStarting p := by
  rw [initialBasis_eq_ok_iff, h.choices_eq_map_some_iff, h.eq_uncovered_iff]
  constructor
  · rintro ⟨⟨hlength, hcolumns⟩, hsorted, hmem⟩
    exact ⟨hlength, fun i j hj => (hcolumns i j hj).1, fun i j hj => (hcolumns i j hj).2, hsorted, hmem⟩
  · intro hb
    exact ⟨⟨hb.length_columns, fun i j hj => ⟨hb.covered i j hj, hb.uncovered i j hj⟩⟩, hb.sortedLT_fallback,
      hb.mem_fallback⟩

end Consistent

/-- In every program that transformations lead to, the search for a starting basis fails exactly when a row is stuck,
and reports the smallest such row. Otherwise it finds the one basis that has in each row the smallest column that
covers it, or the smallest that it can fall back on where no column covers it, with the rows of the second kind in
increasing order. -/
theorem initialBasis_chooses_least (hp : p.Reachable) :
    ((∃ failure, p.initialBasis = .error failure) ↔ ∃ i, p.IsStuck i) ∧
    (∀ failure, p.initialBasis = .error failure ↔
      ∃ row, IsLeast {i | p.IsStuck i} row ∧ failure = .noInitialBasis row) ∧
    ∀ b, p.initialBasis = .ok b ↔ b.IsStarting p := by
  classical
  have h := hp.isConsistent
  have herror : ∀ failure, p.initialBasis = .error failure ↔
      ∃ row, IsLeast {i | p.IsStuck i} row ∧ failure = .noInitialBasis row := fun failure => by
    simp only [initialBasis_eq_error_iff, h.findIdx?_choices_eq_some_iff]
  refine ⟨⟨?_, ?_⟩, herror, fun b => h.initialBasis_eq_ok_iff_isStarting⟩
  · rintro ⟨failure, hfailure⟩
    obtain ⟨row, hleast, -⟩ := (herror failure).mp hfailure
    exact ⟨row, hleast.1⟩
  · intro hstuck
    exact ⟨_, (herror _).mpr ⟨_, Nat.isLeast_find hstuck, rfl⟩⟩

/-- A floor, a limit and an equation, to which slack variables were appended twice. The limit is covered by two
columns, the other rows by none. -/
def slackedTwice : Program where
  sense := .maximize
  objective := [2, 1]
  slackCosts := [0, 0, 0, 0]
  artificialCosts := []
  constraints := [⟨[2, -1, -1, 0, -1, 0], .ge, 1⟩, ⟨[3, 1, 0, 1, 0, 1], .le, 6⟩, ⟨[1, 1 / 2, 0, 0, 0, 0], .eq, 2⟩]

/-- A limit and two equations in which no coefficient is `1` or `-1`. -/
def coarse : Program where
  sense := .minimize
  objective := [1, 1]
  slackCosts := [0]
  artificialCosts := []
  constraints := [⟨[2, 3, 1], .le, 6⟩, ⟨[2, 3, 0], .eq, 3⟩, ⟨[0, 5, 0], .eq, 1⟩]

theorem chooses_least_slackedTwice :
    (slackedTwice.Reachable ∧ slackedTwice.initialBasis = .ok ⟨[2, 4, 1], [0, 2]⟩ ∧
      slackedTwice.CoveredBy 1 6 ∧ IsLeast {j | slackedTwice.CoveredBy 1 j} 4 ∧
      ¬ slackedTwice.IsCovered 0 ∧ IsLeast {j | slackedTwice.CanFallBackOn 0 j} 2) ∧
    coarse.Reachable ∧ coarse.initialBasis = .error (.noInitialBasis 1) ∧ IsLeast {i | coarse.IsStuck i} 1 := by
  have hslacked : slackedTwice.Reachable :=
    .transform .addSlacks (.transform .addSlacks (.accepted (p := ⟨.maximize, [2, 1], [], [],
      [⟨[2, -1], .ge, 1⟩, ⟨[3, 1], .le, 6⟩, ⟨[1, 1 / 2], .eq, 2⟩]⟩) rfl) rfl) rfl
  have hcoarse : coarse.Reachable :=
    .transform .addSlacks (.accepted (p := ⟨.minimize, [1, 1], [], [],
      [⟨[2, 3], .le, 6⟩, ⟨[2, 3], .eq, 3⟩, ⟨[0, 5], .eq, 1⟩]⟩) rfl) rfl
  have hfound : slackedTwice.initialBasis = .ok ⟨[2, 4, 1], [0, 2]⟩ := by decide +kernel
  have hfailed : coarse.initialBasis = .error (.noInitialBasis 1) := by decide +kernel
  have hbasis := ((initialBasis_chooses_least hslacked).2.2 _).mp hfound
  have hcovers : slackedTwice.CoveredBy 1 6 := by decide +kernel
  have hnot : ¬ slackedTwice.IsCovered 0 := ((hbasis.mem_fallback 0).mp (by decide)).2
  obtain ⟨row, hleast, hrow⟩ := ((initialBasis_chooses_least hcoarse).2.1 _).mp hfailed
  cases hrow
  exact ⟨⟨hslacked, hfound, hcovers, hbasis.covered 1 4 rfl ⟨6, hcovers⟩, hnot, hbasis.uncovered 0 2 rfl hnot⟩,
    hcoarse, hfailed, hleast⟩

end Program

end ExactSimplex
