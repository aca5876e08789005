import ExactSimplex.Proofs.Lockstep
import ExactSimplex.Proofs.Scaling.Costs
import ExactSimplex.Tableau.Resize
import ExactSimplex.Tableau.Start

/-!
# Tableaus of a rescaled objective

A tableau with rescaled costs has the numbers and the names of the original one, and its reduced costs are
rescaled. Every operation on the one is the same operation on the other, and either both break a precondition
or neither does.
-/

namespace ExactSimplex

variable {k : Rat}

/-- The row with its cost rescaled. -/
def Row.rescale (k : Rat) (r : Row) : Row := { r with cost := Cost.rescale k r.cost }

/-- The column with its cost rescaled. -/
def Column.rescale (k : Rat) (c : Column) : Column := { c with cost := c.cost.map (Cost.rescale k) }

/-- The ratios of a rescaled objective: those of the rows do not depend on costs, those of the columns grow
with the size of the factor. -/
def Ratios.rescale (k : Rat) : Ratios → Ratios
  | .primal ratios => .primal ratios
  | .dual ratios => .dual (ratios.map (Option.map (k.abs * ·)))

/-- The program with its objective multiplied by a factor, and its direction with it. The costs of appended variables,
if there are any, follow. -/
def Program.rescale (k : Rat) (p : Program) : Program :=
  { p with
    sense := p.sense.rescale k
    objective := p.objective.map (k * ·)
    slackCosts := p.slackCosts.map (k * ·)
    artificialCosts := p.artificialCosts.map (Cost.rescale k) }

namespace Tableau

/-- The tableau with its costs rescaled. -/
def rescale (k : Rat) (t : Tableau) : Tableau where
  sense := t.sense.rescale k
  rows := t.rows.map (Row.rescale k)
  columns := t.columns.map (Column.rescale k)
  ratios := t.ratios.map (Ratios.rescale k)
  index := t.index

/-! What a rescaled tableau shows. -/

@[simp] theorem length_rows_rescale (k : Rat) (t : Tableau) : (t.rescale k).rows.length = t.rows.length :=
  List.length_map ..

@[simp] theorem length_columns_rescale (k : Rat) (t : Tableau) :
    (t.rescale k).columns.length = t.columns.length := List.length_map ..

theorem getElem?_rows_rescale (k : Rat) (t : Tableau) (i : Nat) :
    (t.rescale k).rows[i]? = t.rows[i]?.map (Row.rescale k) := List.getElem?_map ..

theorem values_rescale (k : Rat) (t : Tableau) :
    (t.rescale k).rows.map (·.values) = t.rows.map (·.values) := List.map_map ..

theorem names_rescale (k : Rat) (t : Tableau) : (t.rescale k).names = t.names := List.map_map ..

theorem entry_rescale (k : Rat) (t : Tableau) (i j : Nat) : (t.rescale k).entry i j = t.entry i j := by
  rw [entry, entry, getElem?_rows_rescale, Option.map_map]
  rfl

theorem price_rescale (k : Rat) (t : Tableau) (j : Nat) :
    (t.rescale k).price j = Cost.rescale k (t.price j) := by
  rw [price, price, rescale, List.getElem?_map]
  cases t.columns[j]? with
  | none => exact (map_zero _).symm
  | some c =>
    simp only [Option.map_some, Option.bind_some, Column.rescale]
    cases c.cost with
    | none => exact (map_zero _).symm
    | some cost => rfl

theorem reducedCost_rescale (k : Rat) (t : Tableau) (j : Nat) :
    (t.rescale k).reducedCost j = Cost.rescale k (t.reducedCost j) := by
  have hterms : ((t.rescale k).rows.map fun r => r.entry j • r.cost) =
      (t.rows.map fun r => r.entry j • r.cost).map (Cost.rescale k) := by
    rw [rescale, List.map_map, List.map_map]
    exact List.map_congr_left fun r _ => ((Cost.rescale k).map_smul _ _).symm
  rw [reducedCost, reducedCost, hterms, price_rescale, map_sub, map_list_sum]

theorem reducedCosts_rescale (k : Rat) (t : Tableau) :
    (t.rescale k).reducedCosts = t.reducedCosts.map (Cost.rescale k) := by
  rw [reducedCosts, reducedCosts, length_columns_rescale, List.map_map]
  exact List.map_congr_left fun j _ => reducedCost_rescale k t j

theorem isFeasible_rescale (k : Rat) (t : Tableau) : (t.rescale k).IsFeasible ↔ t.IsFeasible :=
  List.forall_mem_map

theorem isOptimal_rescale (hk : k ≠ 0) (t : Tableau) : (t.rescale k).IsOptimal ↔ t.IsOptimal := by
  rw [IsOptimal, reducedCosts_rescale, ← List.map_tail, List.forall_mem_map]
  exact forall₂_congr fun c _ => not_congr (Sense.improving_rescale hk t.sense c)

/-! Operations. -/

theorem exchange_rescale (k : Rat) (t : Tableau) (i j : Nat) (leaving : Row) :
    (t.rescale k).exchange i j (leaving.rescale k) = (t.exchange i j leaving).rescale k := by
  simp only [exchange, price_rescale]
  simp only [rescale, Option.map_none, List.map_set, List.map_map]
  rfl

theorem pivot_rescale (k : Rat) (t : Tableau) (i j : Nat) :
    (t.rescale k).pivot i j = (t.pivot i j).map (rescale k) := by
  rw [pivot, pivot, getElem?_rows_rescale, length_columns_rescale]
  cases t.rows[i]? with
  | none => rfl
  | some leaving =>
    simp only [Option.map_some, exchange_rescale]
    split
    · rfl
    · split
      · rename_i hzero
        rw [if_pos (show leaving.entry j = 0 from hzero)]
        rfl
      · rename_i hne
        rw [if_neg (show ¬ leaving.entry j = 0 from hne)]
        rfl

theorem fits_rescale (k : Rat) (t : Tableau) (ratios : Ratios) :
    (t.rescale k).Fits (ratios.rescale k) ↔ t.Fits ratios := by
  cases ratios with
  | primal ratios => rw [Ratios.rescale, Fits, length_rows_rescale, Fits]
  | dual ratios => rw [Ratios.rescale, Fits, length_columns_rescale, List.length_map, Fits]

theorem record_rescale (k : Rat) (t : Tableau) (ratios : Ratios) :
    (t.rescale k).record (ratios.rescale k) = (t.record ratios).map (rescale k) := by
  by_cases h : t.Fits ratios
  · rw [record, record, if_pos h, if_pos ((fits_rescale k t ratios).mpr h)]
    rfl
  · rw [record, record, if_neg h, if_neg (mt (fits_rescale k t ratios).mp h)]
    rfl

theorem removeRow_rescale (k : Rat) (t : Tableau) (i : Nat) :
    (t.rescale k).removeRow i = (t.removeRow i).map (rescale k) := by
  have herase : (t.rows.map (Row.rescale k)).eraseIdx i = (t.rows.eraseIdx i).map (Row.rescale k) :=
    List.eraseIdx_map ..
  rw [removeRow, removeRow, length_rows_rescale]
  split
  · simp only [rescale, Except.map, Option.map_none, herase, List.map_map]
    rfl
  · rfl

theorem truncate_rescale (k : Rat) (t : Tableau) (n : Nat) :
    (t.rescale k).truncate n = (t.truncate n).map (rescale k) := by
  rw [truncate, truncate, length_columns_rescale]
  split
  · simp only [rescale, Except.map, Option.map_none, List.map_take, List.map_map]
    rfl
  · rfl

theorem appendRow_rescale (k : Rat) (t : Tableau) (values : List Rat) :
    (t.rescale k).appendRow values = (t.appendRow values).map (rescale k) := by
  have hcolumn : (⟨columnName t.columns.length, some 0⟩ : Column) =
      Column.rescale k ⟨columnName t.columns.length, some 0⟩ := by
    rw [Column.rescale, Option.map_some, map_zero]
  have hrow : (⟨variableName t.columns.length, 0, values⟩ : Row) =
      Row.rescale k ⟨variableName t.columns.length, 0, values⟩ := by
    rw [Row.rescale, map_zero]
  rw [appendRow, appendRow, length_columns_rescale, length_rows_rescale]
  split
  · simp only [rescale, Except.map, Option.map_none, List.map_append, List.map_map, List.map_singleton,
      ← hcolumn, ← hrow]
    rfl
  · rfl

/-! The tableau of a program. -/

theorem make_rescale (k : Rat) (sense : Sense) (basic : List (String × Cost)) (columns : List Column)
    (values : List (List Rat)) :
    make (sense.rescale k) (basic.map fun head => (head.1, Cost.rescale k head.2))
        (columns.map (Column.rescale k)) values =
      (make sense basic columns values).map (rescale k) := by
  have hconstant : ((columns.map (Column.rescale k)).head?.map (·.cost)) ≠ some none ↔
      (columns.head?.map (·.cost)) ≠ some none := by
    cases columns with
    | nil => simp
    | cons c columns => simp [Column.rescale]
  rw [make, make]
  simp only [List.length_map, hconstant]
  split
  · rfl
  · split
    · rfl
    · split
      · rfl
      · simp only [Except.map, rescale, List.map_map, List.zipWith_map_left, List.map_zipWith]
        rfl

end Tableau

namespace Program

@[simp] theorem decisions_rescale (k : Rat) (p : Program) : (p.rescale k).decisions = p.decisions :=
  List.length_map ..

theorem slacks_rescale (k : Rat) (p : Program) : (p.rescale k).slacks = p.slacks := List.length_map ..

theorem artificials_rescale (k : Rat) (p : Program) : (p.rescale k).artificials = p.artificials :=
  List.length_map ..

theorem variableCount_rescale (k : Rat) (p : Program) : (p.rescale k).variableCount = p.variableCount := by
  rw [variableCount, decisions_rescale, slacks_rescale, artificials_rescale, variableCount]

theorem costs_rescale (k : Rat) (p : Program) : (p.rescale k).costs = p.costs.map (Cost.rescale k) := by
  have hfinite : Cost.ofRat ∘ (k * ·) = Cost.rescale k ∘ Cost.ofRat :=
    funext fun q => (Cost.rescale_ofRat k q).symm
  simp only [costs, rescale, List.map_append, List.map_map, hfinite]

/-- The starting basis depends on the constraints only. -/
theorem initialBasis_rescale (k : Rat) (p : Program) : (p.rescale k).initialBasis = p.initialBasis := by
  have hcolumns : (p.rescale k).unitColumns = p.unitColumns := by
    rw [unitColumns, decisions_rescale, slacks_rescale, artificials_rescale]
    rfl
  have hfallback : (p.rescale k).fallbackColumn? = p.fallbackColumn? := by
    funext c
    rw [fallbackColumn?, decisions_rescale]
    rfl
  rw [initialBasis, hcolumns, hfallback]
  rfl

theorem addSlacks_rescale (k : Rat) (p : Program) :
    (p.rescale k).addSlacks = p.addSlacks.map fun result => (result.1.rescale k, result.2) := by
  rw [addSlacks, addSlacks, artificials_rescale]
  split
  · simp only [rescale, Except.map, List.map_append, List.map_replicate, mul_zero]
    rfl
  · rfl

theorem addArtificials_rescale (k : Rat) (p : Program) :
    (p.rescale k).addArtificials = (p.addArtificials.1.rescale k, p.addArtificials.2) := by
  simp only [addArtificials, rescale, List.map_append, List.map_replicate, Sense.artificialCost_rescale]
  rfl

theorem standardForm_rescale (k : Rat) (p : Program) :
    (p.rescale k).standardForm = p.standardForm.map fun form =>
      ⟨form.canonical.rescale k, form.slacked.rescale k, form.augmented.rescale k⟩ := by
  have hcanonical : (p.rescale k).canonicalize = p.canonicalize.rescale k := rfl
  rw [standardForm, standardForm, hcanonical, addSlacks_rescale]
  cases p.canonicalize.addSlacks with
  | error fault => rfl
  | ok result => simp only [Except.map, addArtificials_rescale]

end Program

namespace Tableau

theorem columnsOf_rescale (k : Rat) (p : Program) :
    columnsOf (p.rescale k) = (columnsOf p).map (Column.rescale k) := by
  rw [columnsOf, Program.costs_rescale, columnsOf, List.map_cons]
  congr 1
  apply List.ext_getElem?
  intro j
  simp only [List.getElem?_mapIdx, List.getElem?_map]
  cases p.costs[j]? <;> rfl

theorem ofProgram_rescale (k : Rat) (p : Program) (basis : List Nat) :
    ofProgram (p.rescale k) basis = (ofProgram p basis).map (rescale k) := by
  have hbasic : (basis.map fun j => (variableName j, (p.rescale k).costs[j - 1]?.getD 0)) =
      (basis.map fun j => (variableName j, p.costs[j - 1]?.getD 0)).map fun head =>
        (head.1, Cost.rescale k head.2) := by
    rw [List.map_map]
    refine List.map_congr_left fun j _ => ?_
    rw [Program.costs_rescale, List.getElem?_map, Function.comp_apply]
    cases p.costs[j - 1]? with
    | none => exact Prod.ext rfl (map_zero (Cost.rescale k)).symm
    | some cost => rfl
  rw [ofProgram, ofProgram, Program.variableCount_rescale, hbasic, columnsOf_rescale]
  split
  · rename_i hlength
    rw [if_pos (show basis.length ≠ p.constraints.length from hlength)]
    rfl
  · rename_i hlength
    rw [if_neg (show ¬ basis.length ≠ p.constraints.length from hlength)]
    split
    · rfl
    · exact make_rescale k p.sense _ _ _

theorem ofBasis_rescale (k : Rat) (p : Program) (basis : Basis) :
    ofBasis (p.rescale k) basis = (ofBasis p basis).map (rescale k) := by
  have hfold : ∀ (l : List Nat) (t : Tableau),
      l.foldlM (fun t i => pivot t i (basis.columns[i]?.getD 0)) (t.rescale k) =
        (l.foldlM (fun t i => pivot t i (basis.columns[i]?.getD 0)) t).map (rescale k) := by
    intro l
    induction l with
    | nil => exact fun t => rfl
    | cons i l ih =>
      intro t
      rw [List.foldlM_cons, List.foldlM_cons, pivot_rescale]
      cases t.pivot i (basis.columns[i]?.getD 0) with
      | error fault => rfl
      | ok t' => exact ih t'
  rw [ofBasis, ofBasis, ofProgram_rescale]
  cases ofProgram p basis.columns with
  | error fault => rfl
  | ok t => exact hfold basis.fallback t

end Tableau

end ExactSimplex
