import ExactSimplex.Proofs.Tableau.Operations
import Mathlib.LinearAlgebra.Finsupp.LinearCombination

/-!
# One tableau for each basis

A pivot combines rows with each other and changes nothing else, so all tableaus that pivots lead to have the same
row space. Where the column of every basic variable is the unit vector of its row, a combination of the rows tells
its factors in these columns. So the basic variables leave no choice: tableaus with the same row space and the same
basic variables in their rows are the same, whatever pivots led to them.
-/

namespace ExactSimplex

/-- A pivot, as an operation. -/
def Pivot.operation (p : Pivot) : Operation := .pivot p.row p.column

namespace Tableau

open Finset

variable {t t' u v : Tableau} {i j k l m : Nat} {y : Nat → Rat}

/-- Every row is headed by a variable at the cost of its column, which is the unit vector of the row, and the index
finds the names of the rows. Nothing is asked of the other columns. -/
structure Based (t : Tableau) : Prop where
  rectangular : t.Rectangular
  basic : ∀ i, i < t.rows.length → ∃ j, t.BasicIn i j
  rowOf?_eq_some_iff : ∀ name i, t.rowOf? name = some i ↔ t.names[i]? = some name

theorem WellFormed.based (h : t.WellFormed) : t.Based := ⟨h.rectangular, h.basic, h.rowOf?_eq_some_iff⟩

/-- A pivot leaves every row its basic variable. -/
theorem Based.pivot (h : t.Based) (hp : t.pivot i j = .ok t') : t'.Based where
  rectangular := h.rectangular.pivot hp
  basic := exists_basicIn_pivot h.rectangular h.basic hp
  rowOf?_eq_some_iff := lists_pivot h.rowOf?_eq_some_iff hp
    (names_nodup_of_basic (exists_basicIn_pivot h.rectangular h.basic hp))

/-! The row space. -/

/-- All combinations of the rows, the column of right-hand sides included. -/
def rowSpace (t : Tableau) : Submodule Rat (Nat → Rat) :=
  Submodule.span Rat (Set.range fun i : Fin t.rows.length => t.entry i)

/-- The row at any place is in the row space; there are only zeros behind the last one. -/
theorem entry_mem_rowSpace (t : Tableau) (i : Nat) : t.entry i ∈ t.rowSpace := by
  by_cases hi : i < t.rows.length
  · exact Submodule.subset_span ⟨⟨i, hi⟩, rfl⟩
  · have hzero : t.entry i = 0 := funext fun _ => entry_eq_zero_of_length_le (not_lt.mp hi)
    rw [hzero]
    exact zero_mem _

/-- A tableau whose rows are combinations of those of another one has a smaller row space. -/
theorem rowSpace_le (h : ∀ i, t'.entry i ∈ t.rowSpace) : t'.rowSpace ≤ t.rowSpace := by
  rw [rowSpace, Submodule.span_le]
  rintro _ ⟨i, rfl⟩
  exact h i

/-- A pivot can be undone by combining rows, so it keeps the row space. -/
theorem rowSpace_pivot (hrect : t.Rectangular) (hp : t.pivot i j = .ok t') : t'.rowSpace = t.rowSpace := by
  obtain ⟨leaving, hrow, -, -, hne, rfl⟩ := pivot_eq_ok_iff.mp hp
  rw [← entry_of_getElem? hrow] at hne
  have hpivot : t.entry i = t.entry i j • (t.exchange i j leaving).entry i := by
    ext k
    rw [Pi.smul_apply, smul_eq_mul, entry_exchange hrect hrow, if_pos rfl, mul_div_cancel₀ _ hne]
  have hother : ∀ l, l ≠ i → t.entry l =
      (t.exchange i j leaving).entry l + t.entry l j • (t.exchange i j leaving).entry i := by
    intro l hl
    ext k
    rw [Pi.add_apply, Pi.smul_apply, smul_eq_mul, entry_exchange hrect hrow, entry_exchange hrect hrow, if_neg hl,
      if_pos rfl, sub_add_cancel]
  -- The new pivot row is a multiple of the old one.
  have hnew : (t.exchange i j leaving).entry i ∈ t.rowSpace := by
    rw [← inv_smul_smul₀ hne ((t.exchange i j leaving).entry i), ← hpivot]
    exact Submodule.smul_mem _ _ (entry_mem_rowSpace t i)
  apply le_antisymm
  · refine rowSpace_le fun l => ?_
    by_cases hl : l = i
    · exact hl ▸ hnew
    · rw [eq_sub_of_add_eq (hother l hl).symm]
      exact Submodule.sub_mem _ (entry_mem_rowSpace t l) (Submodule.smul_mem _ _ hnew)
  · refine rowSpace_le fun l => ?_
    by_cases hl : l = i
    · rw [hl, hpivot]
      exact Submodule.smul_mem _ _ (entry_mem_rowSpace _ i)
    · rw [hother l hl]
      exact Submodule.add_mem _ (entry_mem_rowSpace _ l) (Submodule.smul_mem _ _ (entry_mem_rowSpace _ i))

/-- The column of a basic variable is the unit vector of its row. -/
theorem BasicIn.entry_eq (h : t.BasicIn i j) (l : Nat) : t.entry l j = if l = i then 1 else 0 := by
  by_cases hli : l = i
  · rw [if_pos hli, hli, h.entry_self]
  · rw [if_neg hli]
    by_cases hl : l < t.rows.length
    · exact h.entry_other l hl hli
    · exact entry_eq_zero_of_length_le (not_lt.mp hl)

/-- A combination of the rows that is zero in all basic columns has only zero factors. -/
theorem Based.eq_zero_of_mem_rowSpace (h : t.Based) (hy : y ∈ t.rowSpace)
    (hzero : ∀ i j, t.BasicIn i j → y j = 0) : y = 0 := by
  obtain ⟨c, rfl⟩ := (Submodule.mem_span_range_iff_exists_fun Rat).mp hy
  refine Finset.sum_eq_zero fun i _ => ?_
  obtain ⟨j, hj⟩ := h.basic i i.isLt
  have hfactor : c i = 0 := by
    have hcolumn := hzero i j hj
    simp only [Finset.sum_apply, Pi.smul_apply, smul_eq_mul, hj.entry_eq, Fin.val_inj] at hcolumn
    simpa using hcolumn
  rw [hfactor, zero_smul]

/-! Tableaus over the same system of equations. -/

/-- The tableaus have the same columns and the same row space. -/
structure SameSystem (t t' : Tableau) : Prop where
  sense : t'.sense = t.sense
  columns : t'.columns = t.columns
  rowSpace : t'.rowSpace = t.rowSpace

namespace SameSystem

theorem refl (t : Tableau) : t.SameSystem t := ⟨rfl, rfl, rfl⟩

theorem trans (h : t.SameSystem u) (h' : u.SameSystem v) : t.SameSystem v :=
  ⟨h'.sense.trans h.sense, h'.columns.trans h.columns, h'.rowSpace.trans h.rowSpace⟩

theorem symm (h : t.SameSystem u) : u.SameSystem t := ⟨h.sense.symm, h.columns.symm, h.rowSpace.symm⟩

theorem of_pivot (hrect : t.Rectangular) (hp : t.pivot i j = .ok t') : t.SameSystem t' := by
  have hspace := rowSpace_pivot hrect hp
  obtain ⟨leaving, -, -, -, -, rfl⟩ := pivot_eq_ok_iff.mp hp
  exact ⟨rfl, rfl, hspace⟩

end SameSystem

/-- Pivots lead to a tableau over the same system in which every row has its basic variable. -/
theorem Based.performAll (h : t.Based) {pivots : List Pivot}
    (hpivots : t.performAll (pivots.map Pivot.operation) = .ok u) : u.Based ∧ t.SameSystem u := by
  induction pivots generalizing t with
  | nil =>
    cases hpivots
    exact ⟨h, .refl _⟩
  | cons p pivots ih =>
    rw [List.map_cons, Tableau.performAll] at hpivots
    split at hpivots
    · rename_i t₁ hp
      obtain ⟨hbased, hsame⟩ := ih (h.pivot hp) hpivots
      exact ⟨hbased, (SameSystem.of_pivot h.rectangular hp).trans hsame⟩
    · cases hpivots

/-! The basic variables. -/

/-- Tableaus with the same names have the same number of rows. -/
theorem length_rows_eq_of_names (hnames : u.names = v.names) : u.rows.length = v.rows.length := by
  have hlength := congrArg List.length hnames
  rwa [names, names, List.length_map, List.length_map] at hlength

/-- What is basic in a row is told by its name. -/
theorem Based.basicIn_of_names (h : v.Based) (hnames : u.names = v.names) (hb : u.BasicIn i j) : v.BasicIn i j := by
  obtain ⟨m, hm⟩ := h.basic i (length_rows_eq_of_names hnames ▸ hb.lt_rows)
  have hname := hb.getElem?_names
  rw [hnames, hm.getElem?_names, Option.some.injEq] at hname
  exact variableName_injective hname ▸ hm

section SameSystem

variable (hsame : u.SameSystem v) (h : u.Based) (h' : v.Based) (hnames : u.names = v.names)

include hsame h h' hnames

/-- The basic variables determine the entries. -/
theorem SameSystem.entry_eq (i : Nat) : u.entry i = v.entry i := by
  refine sub_eq_zero.mp (h.eq_zero_of_mem_rowSpace ?_ fun l m hb => ?_)
  · exact Submodule.sub_mem _ (entry_mem_rowSpace u i) (hsame.rowSpace ▸ entry_mem_rowSpace v i)
  · rw [Pi.sub_apply, hb.entry_eq, (h'.basicIn_of_names hnames hb).entry_eq, sub_self]

/-- The basic variables determine the numbers of a row. -/
theorem SameSystem.values_eq {r r' : Row} (hr : u.rows[i]? = some r) (hr' : v.rows[i]? = some r') :
    r.values = r'.values := by
  have hrect := h.rectangular r (List.mem_of_getElem? hr)
  have hrect' := h'.rectangular r' (List.mem_of_getElem? hr')
  refine List.ext_getElem (by rw [hrect, hrect', hsame.columns]) fun k hk hk' => ?_
  have hentry := congrFun (hsame.entry_eq h h' hnames i) k
  rwa [entry_of_getElem? hr, entry_of_getElem? hr', Row.entry, Row.entry, List.getElem?_eq_getElem hk,
    List.getElem?_eq_getElem hk', Option.getD_some, Option.getD_some] at hentry

/-- The basic variables determine the rows. -/
theorem SameSystem.rows_eq : u.rows = v.rows := by
  refine List.ext_getElem (length_rows_eq_of_names hnames) fun i hu hv => ?_
  have hr := List.getElem?_eq_getElem hu
  have hr' := List.getElem?_eq_getElem hv
  have hvalues := hsame.values_eq h h' hnames hr hr'
  obtain ⟨j, hj⟩ := h.basic i hu
  have hj' := h'.basicIn_of_names hnames hj
  have hprice : u.price j = v.price j := by rw [price, price, hsame.columns]
  have hcost : u.rows[i].cost = v.rows[i].cost := by
    rw [← basicCost_of_getElem? hr, ← basicCost_of_getElem? hr', hj.basicCost_eq, hj'.basicCost_eq, hprice]
  have hname : u.rows[i].name = v.rows[i].name := by
    have hget := congrArg (·[i]?) hnames
    simpa only [names, List.getElem?_map, hr, hr', Option.map_some, Option.some.injEq] using hget
  cases hrow : u.rows[i]
  cases hrow' : v.rows[i]
  rw [hrow, hrow'] at hname hcost hvalues
  exact Row.mk.injEq .. ▸ ⟨hname, hcost, hvalues⟩

/-- The basic variables determine the tableau, recorded ratios aside. -/
theorem SameSystem.plain_eq : u.plain = v.plain := by
  have hindex : u.index = v.index := by
    refine Std.ExtTreeMap.ext_getElem? fun name => Option.ext fun i => ?_
    have hfound := h.rowOf?_eq_some_iff name i
    rw [hnames] at hfound
    exact hfound.trans (h'.rowOf?_eq_some_iff name i).symm
  rw [plain, plain, hsame.sense, hsame.columns, hsame.rows_eq h h' hnames, hindex]

end SameSystem

/-- Two sequences of pivots that end with the same basic variable in every row end with the same tableau, recorded
ratios aside, and with the same row of reduced costs. A pivot is undone by the pivot that lets the variable that left
enter again. -/
theorem plain_eq_of_names_eq (h : t.Based) :
    (∀ (ps qs : List Pivot) (u v : Tableau), t.performAll (ps.map Pivot.operation) = .ok u →
      t.performAll (qs.map Pivot.operation) = .ok v → u.names = v.names →
        u.plain = v.plain ∧ u.reducedCosts = v.reducedCosts) ∧
    ∀ i j k, t.Admits (.pivot i j) → t.BasicIn i k →
      ∃ t', t.pivot i j = .ok t' ∧ t'.pivot i k = .ok t.plain := by
  constructor
  · intro ps qs u v hps hqs hnames
    obtain ⟨hu, htu⟩ := h.performAll hps
    obtain ⟨hv, htv⟩ := h.performAll hqs
    have hplain := (htu.symm.trans htv).plain_eq hu hv hnames
    -- Recorded ratios do not count in the reduced costs.
    have hcosts : u.plain.reducedCosts = v.plain.reducedCosts := by rw [hplain]
    exact ⟨hplain, hcosts⟩
  · intro i j k hadmits hk
    obtain ⟨t', hp⟩ : ∃ t', t.pivot i j = .ok t' := exists_perform hadmits
    have ht' := h.pivot hp
    have hsame := SameSystem.of_pivot h.rectangular hp
    obtain ⟨leaving, hrow, hpos, hlt, hne, heq⟩ := pivot_eq_ok_iff.mp hp
    -- The element to pivot back on is the inverse of the first one.
    have hback : t'.Admits (.pivot i k) := by
      refine ⟨length_rows_pivot hp ▸ hk.lt_rows, hk.pos, hsame.columns ▸ hk.lt, ?_⟩
      rw [heq, entry_exchange h.rectangular hrow, if_pos rfl, hk.entry_self, entry_of_getElem? hrow]
      exact one_div_ne_zero hne
    obtain ⟨t'', hp'⟩ : ∃ t'', t'.pivot i k = .ok t'' := exists_perform hback
    have hnames : t.names = t''.names := by
      obtain ⟨_, -, -, -, -, rfl⟩ := pivot_eq_ok_iff.mp hp'
      obtain ⟨hi, hname⟩ := List.getElem?_eq_some_iff.mp hk.getElem?_names
      rw [names_exchange, heq, names_exchange, List.set_set, ← hname, List.set_getElem_self]
    have hplain := (hsame.trans (SameSystem.of_pivot ht'.rectangular hp')).plain_eq h (ht'.pivot hp') hnames
    rw [plain_of_ratios (ratios_pivot hp')] at hplain
    exact ⟨t', hp, hplain ▸ hp'⟩

/-- A bounded and a required quantity, with a column that has no cost behind those of the slack and artificial
variables. -/
def required : Tableau where
  sense := .maximize
  rows := [⟨"x3", 0, [4, 1, 2, 1, 0, 1]⟩, ⟨"x4", ⟨-1, 0⟩, [3, 1, -1, 0, 1, 1 / 2]⟩]
  columns := [⟨"A0", none⟩, ⟨"A1", some ⟨0, 2⟩⟩, ⟨"A2", some ⟨0, 3⟩⟩, ⟨"A3", some 0⟩, ⟨"A4", some ⟨-1, 0⟩⟩,
    ⟨"A5", none⟩]
  ratios := some (.primal [some 4, some 3])
  index := NameIndex.ofNames 0 ["x3", "x4"]

theorem based_required : required.Based where
  rectangular := by
    have hlengths : ∀ r ∈ required.rows, r.values.length = required.columns.length := by decide
    exact hlengths
  basic i hi := by
    refine ⟨i + 3, ?_⟩
    match i, hi with
    | 0, _ => exact ⟨by decide, by decide, rfl, by decide, by decide, by decide⟩
    | 1, _ => exact ⟨by decide, by decide, rfl, by decide, by decide, by decide⟩
  rowOf?_eq_some_iff := NameIndex.lists_ofNames (by decide)

/-- Both decision variables enter the basis. -/
def straight : List Pivot := [⟨0, 1⟩, ⟨1, 2⟩]

/-- They enter in each other's rows at first. -/
def detour : List Pivot := [⟨0, 2⟩, ⟨1, 1⟩, ⟨0, 5⟩, ⟨1, 2⟩, ⟨0, 1⟩]

theorem plain_eq_detour : ∃ u v, required.performAll (straight.map Pivot.operation) = .ok u ∧
    required.performAll (detour.map Pivot.operation) = .ok v ∧ u.names = ["x1", "x2"] ∧ u.plain = v.plain ∧
    u.reducedCosts = v.reducedCosts ∧
    ∃ t', required.pivot 1 2 = .ok t' ∧ t'.pivot 1 4 = .ok required.plain := by
  obtain ⟨hsame, hundo⟩ := plain_eq_of_names_eq based_required
  obtain ⟨u, hu, hnames⟩ : ∃ u, required.performAll (straight.map Pivot.operation) = .ok u ∧ u.names = ["x1", "x2"] :=
    exists_performAll_of_map names (by decide +kernel)
  obtain ⟨v, hv, hnames'⟩ : ∃ v, required.performAll (detour.map Pivot.operation) = .ok v ∧ v.names = ["x1", "x2"] :=
    exists_performAll_of_map names (by decide +kernel)
  obtain ⟨hplain, hcosts⟩ := hsame straight detour u v hu hv (hnames.trans hnames'.symm)
  have hbasic : required.BasicIn 1 4 := ⟨by decide, by decide, rfl, by decide, by decide, by decide⟩
  exact ⟨u, v, hu, hv, hnames, hplain, hcosts, hundo 1 2 4 (by decide +kernel) hbasic⟩

end Tableau

end ExactSimplex
