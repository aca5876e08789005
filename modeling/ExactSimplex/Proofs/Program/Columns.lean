import ExactSimplex.Program.Standard
import ExactSimplex.Proofs.Algebra.Weigh

/-!
# Appended columns

Columns are appended for some of the constraints, in the order of the constraints. The column of a
constraint stands at the place that the constraints in front of it have left, and is zero in every other
row; the sum of a row grows by what the new variable contributes.
-/

namespace ExactSimplex.Program

/-- The columns that the first `i` constraints have taken. -/
def columnPlace (entry : Relation → Option Rat) (cs : List Constraint) (i : Nat) : Nat :=
  (cs.take i).countP fun c => (entry c.relation).isSome

/-- The coefficients in `count` new columns of a constraint that has its own column at a place. -/
def newCoefficients (v : Option Rat) (count place : Nat) : List Rat :=
  match v with
  | some v => (List.replicate count 0).set place v
  | none => List.replicate count 0

section

variable {entry : Relation → Option Rat} {cs : List Constraint} {c : Constraint} {i k count : Nat} {v : Rat}

@[simp] theorem length_newCoefficients (v : Option Rat) (count place : Nat) :
    (newCoefficients v count place).length = count := by
  cases v <;> simp [newCoefficients]

/-- The new coefficient of a constraint stands at its place. -/
theorem getElem?_newCoefficients (v : Option Rat) {count : Nat} (place : Nat) {m : Nat} (hm : m < count) :
    (newCoefficients v count place)[m]?.getD 0 = if m = place then v.getD 0 else 0 := by
  cases v with
  | none =>
    rw [newCoefficients, List.getElem?_replicate_of_lt hm]
    simp
  | some v =>
    rw [newCoefficients, List.getElem?_set, List.length_replicate, List.getElem?_replicate_of_lt hm]
    by_cases h : m = place
    · simp [h, h ▸ hm]
    · rw [if_neg fun he => h he.symm, if_neg h]
      rfl

/-- A new column contributes the multiple of its variable. -/
theorem weigh_newCoefficients (x : Assignment) (j : Nat) (v : Option Rat) {count place : Nat}
    (hplace : v.isSome → place < count) :
    weigh x j (newCoefficients v count place) = v.getD 0 * x (j + place) := by
  cases v with
  | none =>
    rw [newCoefficients, weigh_replicate_zero]
    exact (zero_mul _).symm
  | some v =>
    rw [newCoefficients, weigh_set_replicate_zero x v j (hplace rfl)]
    rfl

/-- A constraint in front that takes a column moves the places behind it. -/
theorem columnPlace_cons_succ (c : Constraint) (cs : List Constraint) (i : Nat) :
    columnPlace entry (c :: cs) (i + 1) =
      columnPlace entry cs i + if (entry c.relation).isSome then 1 else 0 := by
  rw [columnPlace, List.take_succ_cons, List.countP_cons, columnPlace]

/-- Each constraint gets its coefficients in the new columns, and keeps all else. -/
theorem getElem?_appendColumns (entry : Relation → Option Rat) (count used : Nat) (cs : List Constraint)
    (i : Nat) :
    (appendColumns entry count used cs)[i]? = cs[i]?.map fun c =>
      { c with coefficients := c.coefficients ++
          newCoefficients (entry c.relation) count (used + columnPlace entry cs i) } := by
  induction cs generalizing used i with
  | nil => simp [appendColumns]
  | cons c cs ih =>
    cases i with
    | zero =>
      simp only [appendColumns, columnPlace, List.take_zero, List.countP_nil, Nat.add_zero]
      cases hc : entry c.relation <;> simp [newCoefficients, hc]
    | succ i =>
      rw [columnPlace_cons_succ]
      simp only [appendColumns]
      cases hc : entry c.relation with
      | none => simpa using ih used i
      | some v =>
        have hplace : used + (columnPlace entry cs i + 1) = used + 1 + columnPlace entry cs i := by omega
        simpa [hplace] using ih (used + 1) i

@[simp] theorem length_appendColumns (entry : Relation → Option Rat) (count used : Nat)
    (cs : List Constraint) : (appendColumns entry count used cs).length = cs.length := by
  induction cs generalizing used with
  | nil => rfl
  | cons c cs ih =>
    simp only [appendColumns]
    split <;> simp [ih]

/-- There is a column for each constraint that takes one. -/
theorem columnPlace_lt (hc : cs[i]? = some c) (hv : (entry c.relation).isSome) :
    columnPlace entry cs i < cs.countP fun c => (entry c.relation).isSome := by
  induction cs generalizing i with
  | nil => simp at hc
  | cons d cs ih =>
    cases i with
    | zero =>
      rw [List.getElem?_cons_zero, Option.some.injEq] at hc
      rw [List.countP_cons, hc, if_pos hv, columnPlace, List.take_zero, List.countP_nil]
      exact Nat.succ_pos _
    | succ i =>
      rw [columnPlace_cons_succ, List.countP_cons]
      exact Nat.add_lt_add_right (ih hc) _

/-- Constraints that take a column take different ones. -/
theorem columnPlace_lt_of_lt (hc : cs[i]? = some c) (hv : (entry c.relation).isSome) (hik : i < k) :
    columnPlace entry cs i < columnPlace entry cs k := by
  have htake : (cs.take k)[i]? = some c := by rw [List.getElem?_take_of_lt hik, hc]
  have hplace : columnPlace entry (cs.take k) i = columnPlace entry cs i := by
    rw [columnPlace, List.take_take, Nat.min_eq_left hik.le, columnPlace]
  rw [← hplace]
  exact columnPlace_lt htake hv

/-- Every new column is that of a constraint that takes one. -/
theorem exists_columnPlace_eq (entry : Relation → Option Rat) (cs : List Constraint)
    (hk : k < cs.countP fun c => (entry c.relation).isSome) :
    ∃ i c, cs[i]? = some c ∧ (entry c.relation).isSome ∧ columnPlace entry cs i = k := by
  induction cs generalizing k with
  | nil => cases hk
  | cons d cs ih =>
    rw [List.countP_cons] at hk
    by_cases hd : (entry d.relation).isSome
    · rw [if_pos hd] at hk
      cases k with
      | zero => exact ⟨0, d, rfl, hd, rfl⟩
      | succ k =>
        obtain ⟨i, c, hc, hv, hplace⟩ := ih (Nat.lt_of_succ_lt_succ hk)
        exact ⟨i + 1, c, hc, hv, by rw [columnPlace_cons_succ, if_pos hd, hplace]⟩
    · rw [if_neg hd] at hk
      obtain ⟨i, c, hc, hv, hplace⟩ := ih hk
      exact ⟨i + 1, c, hc, hv, by rw [columnPlace_cons_succ, if_neg hd, hplace, Nat.add_zero]⟩

/-- Of the constraints that give something, the one behind `k` others gives the entry at place `k`. -/
theorem getElem?_filterMap_columnPlace (entry : Relation → Option Rat) {f : Constraint → Option Rat}
    (hf : ∀ c, (f c).isSome = (entry c.relation).isSome) (hc : cs[i]? = some c) (hv : f c = some v) :
    (cs.filterMap f)[columnPlace entry cs i]? = some v := by
  induction cs generalizing i with
  | nil => simp at hc
  | cons d cs ih =>
    cases i with
    | zero =>
      rw [List.getElem?_cons_zero, Option.some.injEq] at hc
      rw [hc, List.filterMap_cons_some hv, columnPlace, List.take_zero, List.countP_nil,
        List.getElem?_cons_zero]
    | succ i =>
      rw [columnPlace_cons_succ, ← hf]
      cases hd : f d with
      | none => simpa [List.filterMap_cons_none hd] using ih hc
      | some w => simpa [List.filterMap_cons_some hd] using ih hc

/-- An appended column changes neither the relation nor the right-hand side. -/
theorem exists_of_mem_appendColumns {count used : Nat} {c' : Constraint}
    (h : c' ∈ appendColumns entry count used cs) :
    ∃ c ∈ cs, c'.relation = c.relation ∧ c'.bound = c.bound ∧
      c'.coefficients.length = c.coefficients.length + count := by
  obtain ⟨i, hi⟩ := List.mem_iff_getElem?.mp h
  rw [getElem?_appendColumns] at hi
  obtain ⟨c, hc, rfl⟩ := Option.map_eq_some_iff.mp hi
  refine ⟨c, List.mem_of_getElem? hc, rfl, rfl, ?_⟩
  rw [List.length_append, length_newCoefficients]

/-- An appended column leaves the coefficients in front of it. -/
theorem getElem?_coefficients_appendColumns {count used n : Nat} {c' : Constraint}
    (hlength : ∀ c ∈ cs, c.coefficients.length = n)
    (h : (appendColumns entry count used cs)[k]? = some c') {m : Nat} (hm : m < n) :
    ∃ c, cs[k]? = some c ∧ c'.coefficients[m]? = c.coefficients[m]? := by
  rw [getElem?_appendColumns] at h
  obtain ⟨c, hc, rfl⟩ := Option.map_eq_some_iff.mp h
  have hlt : m < c.coefficients.length := by rwa [hlength c (List.mem_of_getElem? hc)]
  exact ⟨c, hc, List.getElem?_append_left hlt⟩

/-- The column of a constraint is zero in the other constraints. -/
theorem coefficient_appendColumns {n : Nat} {c' : Constraint} (hlength : ∀ c ∈ cs, c.coefficients.length = n)
    (hc : cs[i]? = some c) (hv : entry c.relation = some v)
    (h : (appendColumns entry (cs.countP fun c => (entry c.relation).isSome) 0 cs)[k]? = some c') :
    c'.coefficients[n + columnPlace entry cs i]?.getD 0 = if k = i then v else 0 := by
  rw [getElem?_appendColumns] at h
  obtain ⟨d, hd, rfl⟩ := Option.map_eq_some_iff.mp h
  have hsome : (entry c.relation).isSome := by rw [hv]; rfl
  rw [List.getElem?_append_right (by rw [hlength d (List.mem_of_getElem? hd)]; omega),
    hlength d (List.mem_of_getElem? hd), Nat.add_sub_cancel_left,
    getElem?_newCoefficients _ _ (columnPlace_lt hc hsome), Nat.zero_add]
  by_cases hki : k = i
  · subst hki
    rw [hc, Option.some.injEq] at hd
    rw [if_pos rfl, if_pos rfl, ← hd, hv, Option.getD_some]
  · rw [if_neg hki]
    cases hentry : entry d.relation with
    | none => exact ite_self _
    | some w =>
      have hdsome : (entry d.relation).isSome := by rw [hentry]; rfl
      rcases Nat.lt_or_gt_of_ne hki with hlt | hlt
      · exact if_neg (columnPlace_lt_of_lt hd hdsome hlt).ne'
      · exact if_neg (columnPlace_lt_of_lt hc hsome hlt).ne

/-- As equations, constraints with appended columns contain one more variable each. -/
theorem tight_appendColumns (entry : Relation → Option Rat) {n : Nat}
    (hlength : ∀ c ∈ cs, c.coefficients.length = n) (x : Assignment) :
    (∀ c ∈ appendColumns entry (cs.countP fun c => (entry c.relation).isSome) 0 cs, c.Tight x) ↔
      ∀ i c, cs[i]? = some c →
        c.left x + (entry c.relation).getD 0 * x (1 + n + columnPlace entry cs i) = c.bound := by
  have hleft : ∀ i c, cs[i]? = some c →
      weigh x 1 (c.coefficients ++ newCoefficients (entry c.relation)
        (cs.countP fun c => (entry c.relation).isSome) (0 + columnPlace entry cs i)) =
          c.left x + (entry c.relation).getD 0 * x (1 + n + columnPlace entry cs i) := by
    intro i c hc
    rw [weigh_append, hlength c (List.mem_of_getElem? hc), Nat.zero_add,
      weigh_newCoefficients x _ _ (columnPlace_lt hc), Constraint.left]
  constructor
  · intro h i c hc
    have hget := getElem?_appendColumns entry (cs.countP fun c => (entry c.relation).isSome) 0 cs i
    rw [hc, Option.map_some] at hget
    rw [← hleft i c hc]
    exact h _ (List.mem_of_getElem? hget)
  · intro h c' hc'
    obtain ⟨i, hi⟩ := List.mem_iff_getElem?.mp hc'
    rw [getElem?_appendColumns] at hi
    obtain ⟨c, hc, rfl⟩ := Option.map_eq_some_iff.mp hi
    rw [Constraint.Tight, Constraint.left, hleft i c hc]
    exact h i c hc

end

end ExactSimplex.Program
