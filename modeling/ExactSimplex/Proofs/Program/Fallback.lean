import ExactSimplex.Proofs.Program.UnitBasis
import ExactSimplex.Proofs.Program.Reachable

/-!
# Rows that fall back on a decision variable

A starting basis gives every row a variable. It is one with a unit column among the slack and artificial variables
where there is any, and otherwise the first decision variable with coefficient `1` or `-1`. The column of such a
variable need not be a unit vector, and the basis lists the rows that fell back on one.
-/

namespace ExactSimplex

namespace Constraint

/-- The variable at position `m` has the coefficient `1` or `-1`. -/
def HasUnit (c : Constraint) (m : Nat) : Prop := c.coefficients[m]? = some 1 ∨ c.coefficients[m]? = some (-1)

instance (c : Constraint) (m : Nat) : Decidable (c.HasUnit m) :=
  inferInstanceAs (Decidable (c.coefficients[m]? = some 1 ∨ c.coefficients[m]? = some (-1)))

theorem hasUnit_iff (c : Constraint) {m : Nat} (h : m < c.coefficients.length) :
    c.HasUnit m ↔ c.coefficients[m] = 1 ∨ c.coefficients[m] = -1 := by
  rw [HasUnit, List.getElem?_eq_getElem h, Option.some.injEq, Option.some.injEq]

/-- Only a coefficient that is there is one. -/
theorem HasUnit.lt_length {c : Constraint} {m : Nat} (h : c.HasUnit m) : m < c.coefficients.length := by
  rcases h with h | h
  · exact (List.getElem?_eq_some_iff.mp h).1
  · exact (List.getElem?_eq_some_iff.mp h).1

end Constraint

namespace Program

variable {p : Program} {b : Basis} {c : Constraint} {i j m : Nat}

/-- The variable that a constraint falls back on is its first decision variable with coefficient `1` or `-1`. -/
theorem fallbackColumn?_eq_some_iff : p.fallbackColumn? c = some j ↔
    0 < j ∧ j ≤ p.decisions ∧ c.HasUnit (j - 1) ∧ ∀ m, m < j - 1 → ¬ c.HasUnit m := by
  rw [fallbackColumn?, Option.map_eq_some_iff]
  cases j with
  | zero => simp
  | succ j =>
    simp only [Nat.add_right_cancel_iff, exists_eq_right, List.findIdx?_eq_some_iff_getElem, decide_eq_true_iff,
      List.getElem_take, List.length_take, Nat.add_sub_cancel, Nat.lt_min]
    constructor
    · rintro ⟨⟨hj, hlt⟩, hunit, hfirst⟩
      exact ⟨Nat.succ_pos j, hj, (c.hasUnit_iff hlt).mpr hunit,
        fun m hm h => hfirst m hm ((c.hasUnit_iff (hm.trans hlt)).mp h)⟩
    · rintro ⟨-, hj, hunit, hfirst⟩
      have hlt := hunit.lt_length
      exact ⟨⟨hj, hlt⟩, (c.hasUnit_iff hlt).mp hunit,
        fun m hm h => hfirst m hm ((c.hasUnit_iff (hm.trans hlt)).mpr h)⟩

/-! What a starting basis consists of. -/

section

variable (h : p.initialBasis = .ok b)

include h

theorem length_columns : b.columns.length = p.constraints.length := by
  rw [← length_choices, (initialBasis_eq_ok_iff.mp h).1, List.length_map]

theorem nodup_fallback : b.fallback.Nodup := (initialBasis_eq_ok_iff.mp h).2 ▸ p.nodup_uncovered

theorem mem_fallback_iff : i ∈ b.fallback ↔ p.unitColumns[i]? = some none := by
  rw [(initialBasis_eq_ok_iff.mp h).2, mem_uncovered_iff]

/-- The variable of a row is the one with a unit column that was found for it, or the one that its constraint falls
back on. -/
theorem getElem?_columns (hj : b.columns[i]? = some j) :
    p.unitColumns[i]? = some (some j) ∨
      p.unitColumns[i]? = some none ∧ ∃ c, p.constraints[i]? = some c ∧ p.fallbackColumn? c = some j := by
  have hi : i < p.constraints.length := length_columns h ▸ (List.getElem?_eq_some_iff.mp hj).1
  have hc := List.getElem?_eq_getElem hi
  obtain ⟨slot, hslot⟩ : ∃ slot, p.unitColumns[i]? = some slot :=
    ⟨_, List.getElem?_eq_getElem (p.length_unitColumns ▸ hi)⟩
  have hchoice := getElem?_choices hslot hc
  rw [(initialBasis_eq_ok_iff.mp h).1, List.getElem?_map, hj, Option.map_some, Option.some.injEq] at hchoice
  rw [hslot]
  cases slot with
  | none =>
    rw [Option.none_or] at hchoice
    exact .inr ⟨rfl, _, hc, hchoice.symm⟩
  | some j' =>
    rw [Option.some_or] at hchoice
    exact .inl (congrArg some hchoice.symm)

/-- A row that did not fall back has a slack or artificial variable with its unit vector as column. -/
theorem unitAt_columns (hj : b.columns[i]? = some j) (hi : i ∉ b.fallback) :
    p.decisions < j ∧ j ≤ p.variableCount ∧ p.UnitAt i (j - 1) := by
  rcases getElem?_columns h hj with hunit | ⟨hnone, -⟩
  · exact unitAt_of_unitColumns hunit
  · exact absurd ((mem_fallback_iff h).mpr hnone) hi

/-- A row that fell back has a decision variable, with coefficient `1` or `-1` in the row. -/
theorem exists_of_mem_fallback (hi : i ∈ b.fallback) : ∃ j c, b.columns[i]? = some j ∧
    p.constraints[i]? = some c ∧ 0 < j ∧ j ≤ p.decisions ∧ c.HasUnit (j - 1) := by
  rw [mem_fallback_iff h] at hi
  have hlt : i < b.columns.length := by
    rw [length_columns h, ← p.length_unitColumns]
    exact (List.getElem?_eq_some_iff.mp hi).1
  have hj := List.getElem?_eq_getElem hlt
  rcases getElem?_columns h hj with hunit | ⟨-, c, hc, hfallback⟩
  · rw [hi] at hunit
    cases hunit
  · obtain ⟨hpos, hle, hone, -⟩ := fallbackColumn?_eq_some_iff.mp hfallback
    exact ⟨_, c, hj, hc, hpos, hle, hone⟩

/-- Every variable of a starting basis is one of the program. -/
theorem columns_range (hj : b.columns[i]? = some j) : 0 < j ∧ j ≤ p.variableCount := by
  by_cases hi : i ∈ b.fallback
  · obtain ⟨j', -, hj', -, hpos, hle, -⟩ := exists_of_mem_fallback h hi
    obtain rfl : j' = j := Option.some.inj (hj'.symm.trans hj)
    exact ⟨hpos, hle.trans (by rw [variableCount]; omega)⟩
  · obtain ⟨hlt, hle, -⟩ := unitAt_columns h hj hi
    exact ⟨Nat.zero_lt_of_lt hlt, hle⟩

end

end Program

end ExactSimplex
