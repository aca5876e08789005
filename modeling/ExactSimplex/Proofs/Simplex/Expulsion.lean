import ExactSimplex.Proofs.Simplex.Totality

/-!
# What a sweep leaves

A sweep goes through the rows once. The same moves are made when the first row with an artificial basic variable is
looked for from the top again after every move: a pivot makes no row artificial, and a removed row leaves its place
to the one below. Every move leaves one artificial row less, no right-hand side of another row changes, and the
objective value stays.
-/

namespace ExactSimplex

/-- The number of rows in which an artificial variable is basic. -/
def Tableau.artificialRows (t : Tableau) : Nat := t.rows.countP fun r => r.IsArtificial

namespace Simplex

/-- The row that a move removed. -/
def Move.dropped? : Move → Option Nat
  | .drop row _ _ => some row
  | _ => none

/-- No row in front of row `i` is artificial, so that a sweep may begin there. -/
def SweptTo (i : Nat) (t : Tableau) : Prop := ∀ k r, k < i → t.rows[k]? = some r → ¬ r.IsArtificial

/-- One turn of a loop that expels artificial variables: the first row with one is looked for, and the loop ends when
there is none. -/
def expelFirst (first : Nat) (t : Tableau) : Turn Move Tableau (Except Fault Tableau) :=
  match t.rows.findIdx? fun r => r.IsArtificial with
  | none => .done [] (.ok t)
  | some i =>
    match t.rows[i]?.bind (expellingColumn? first) with
    | some j =>
      match t.pivot i j with
      | .error fault => .done [] (.error fault)
      | .ok t' => .next [.expel ⟨i, j⟩ t t'] t'
    | none =>
      match t.removeRow i with
      | .error fault => .done [] (.error fault)
      | .ok t' => .next [.drop i t t'] t'

variable {first count i j : Nat} {q : Program} {t t' : Tableau} {r leaving : Row} {moves : List Move}

/-! The number of artificial rows. -/

theorem artificialRows_eq_zero_iff : t.artificialRows = 0 ↔ ∀ r ∈ t.rows, ¬ r.IsArtificial := by
  rw [Tableau.artificialRows, List.countP_eq_zero]
  simp only [decide_eq_true_eq]

theorem artificialRows_eq_countP_cost :
    t.artificialRows = (t.rows.map (·.cost)).countP fun c => ¬ c.IsFinite := by
  rw [List.countP_map]
  rfl

/-- A variable that is not artificial takes a row: if the row was artificial, it is not any more. -/
theorem artificialRows_exchange (hrow : t.rows[i]? = some leaving) (hprice : (t.price j).IsFinite) :
    (t.exchange i j leaving).artificialRows = t.artificialRows - if leaving.IsArtificial then 1 else 0 := by
  obtain ⟨hi, hget⟩ := List.getElem?_eq_some_iff.mp hrow
  have hcost : i < (t.rows.map (·.cost)).length := by rwa [List.length_map]
  have hentering : (if decide ¬ (t.price j).IsFinite then 1 else 0) = 0 :=
    if_neg (by rw [decide_eq_true_eq]; exact not_not.mpr hprice)
  rw [artificialRows_eq_countP_cost, artificialRows_eq_countP_cost, Tableau.map_cost_exchange,
    List.countP_set hcost, List.getElem_map, hget, hentering, add_zero]
  congr 1
  simp only [decide_eq_true_eq, Row.IsArtificial]
  congr

/-- Removing an artificial row leaves one less. -/
theorem artificialRows_removeRow (hr : t.removeRow i = .ok t') (hrow : t.rows[i]? = some r)
    (hartificial : r.IsArtificial) : t'.artificialRows + 1 = t.artificialRows := by
  have hcount := (Tableau.perm_rows_removeRow hr hrow).countP_eq fun r => r.IsArtificial
  rwa [List.countP_cons_of_pos (p := fun r : Row => decide r.IsArtificial) (decide_eq_true hartificial)] at hcount

/-! How far a sweep has come. -/

namespace SweptTo

/-- Nothing is in front of the first row. -/
theorem zero (t : Tableau) : SweptTo 0 t := fun k _ hk => absurd hk (Nat.not_lt_zero k)

/-- A row that is not artificial is passed over. -/
theorem succ (h : SweptTo i t) (hrow : t.rows[i]? = some r) (hfinite : ¬ r.IsArtificial) : SweptTo (i + 1) t := by
  intro k r' hk hr'
  rcases Nat.lt_succ_iff_lt_or_eq.mp hk with hk | rfl
  · exact h k r' hk hr'
  · cases hrow.symm.trans hr'
    exact hfinite

/-- Behind the last row no row is left. -/
theorem not_isArtificial (h : SweptTo i t) (hle : t.rows.length ≤ i) : ∀ r ∈ t.rows, ¬ r.IsArtificial := by
  intro r hr
  obtain ⟨k, hk⟩ := List.mem_iff_getElem?.mp hr
  exact h k r ((List.getElem?_eq_some_iff.mp hk).1.trans_le hle) hk

/-- A pivot on a column without `M` in its price comes one row further. -/
theorem pivot (h : SweptTo i t) (hprice : (t.price j).IsFinite) (hpivot : t.pivot i j = .ok t') :
    SweptTo (i + 1) t' := by
  intro k r hk hr
  obtain ⟨leaving, hrow, -, -, -, rfl⟩ := Tableau.pivot_eq_ok_iff.mp hpivot
  rw [Tableau.getElem?_rows_exchange (List.getElem?_eq_some_iff.mp hrow).1] at hr
  split at hr
  · cases hr
    exact not_not.mpr hprice
  · obtain ⟨r', hr', rfl⟩ := Option.map_eq_some_iff.mp hr
    exact h k r' (by omega) hr'

/-- The removal of a row does not concern the rows in front of it. -/
theorem removeRow (h : SweptTo i t) (hremove : t.removeRow i = .ok t') : SweptTo i t' := by
  intro k r hk hr
  rw [Tableau.getElem?_rows_removeRow hremove, if_pos hk] at hr
  exact h k r hk hr

end SweptTo

/-! The loop and the sweep. -/

/-- A tableau without artificial rows is left as it is by the loop. -/
theorem run_expelFirst_of_none (hfinite : ∀ r ∈ t.rows, ¬ r.IsArtificial) :
    run (expelFirst first) (t.artificialRows + 1) t = some ([], .ok t) := by
  have hnone : (t.rows.findIdx? fun r => r.IsArtificial) = none := by
    rw [List.findIdx?_eq_none_iff]
    exact fun r hr => decide_eq_false (hfinite r hr)
  rw [run, expelFirst, hnone]

/-- A turn of the loop may be taken before the others. -/
theorem run_expelFirst_next {move : Move} {result : Except Fault Tableau}
    (hturn : expelFirst first t = .next [move] t') (hcount : t'.artificialRows + 1 = t.artificialRows)
    (hrun : run (expelFirst first) (t'.artificialRows + 1) t' = some (moves, result)) :
    run (expelFirst first) (t.artificialRows + 1) t = some (move :: moves, result) := by
  rw [← hcount, run, hturn]
  dsimp only
  rw [hrun]
  rfl

section Loop

variable (hswept : SweptTo i t) (hrow : t.rows[i]? = some r) (hartificial : r.IsArtificial)

include hswept hrow hartificial

/-- The loop finds the first artificial row. -/
theorem findIdx?_isArtificial : (t.rows.findIdx? fun r => r.IsArtificial) = some i := by
  obtain ⟨hi, hget⟩ := List.getElem?_eq_some_iff.mp hrow
  refine List.findIdx?_eq_some_iff_getElem.mpr ⟨hi, by rw [hget]; exact decide_eq_true hartificial, ?_⟩
  intro k hk
  rw [decide_eq_true_eq]
  exact hswept k _ hk (List.getElem?_eq_getElem (hk.trans hi))

/-- It pivots in that row, where the row has a column in front of the artificial ones. -/
theorem expelFirst_eq_expel (hcolumn : expellingColumn? first r = some j) (hpivot : t.pivot i j = .ok t') :
    expelFirst first t = .next [.expel ⟨i, j⟩ t t'] t' := by
  simp only [expelFirst, findIdx?_isArtificial hswept hrow hartificial, hrow, Option.bind_some, hcolumn, hpivot]

/-- Otherwise it removes the row. -/
theorem expelFirst_eq_drop (hnone : expellingColumn? first r = none) (hremove : t.removeRow i = .ok t') :
    expelFirst first t = .next [.drop i t t'] t' := by
  simp only [expelFirst, findIdx?_isArtificial hswept hrow hartificial, hrow, Option.bind_some, hnone, hremove]

end Loop

/-- The price of a column in front of the artificial ones does not contain `M`. -/
theorem Represents.isFinite_price (h : Represents q t) (hj : j < firstArtificial q) : (t.price j).IsFinite := by
  have hlt := hj.trans_le h.firstArtificial_le
  unfold firstArtificial at hj
  rw [Cost.IsFinite, h.penalty_price hlt, if_neg (by omega)]

/-- A pivot on a column in front of the artificial ones makes no row artificial. In an artificial row it leaves one
less. -/
theorem Represents.artificialRows_pivot (h : Represents q t) (hrow : t.rows[i]? = some r)
    (hj : j < firstArtificial q) (hpivot : t.pivot i j = .ok t') :
    t'.artificialRows = t.artificialRows - if r.IsArtificial then 1 else 0 := by
  obtain ⟨leaving, hrow', -, -, -, rfl⟩ := Tableau.pivot_eq_ok_iff.mp hpivot
  rw [hrow, Option.some.injEq] at hrow'
  rw [← hrow']
  exact artificialRows_exchange hrow (h.isFinite_price hj)

/-- The sweep and the loop make the same move on row `i`, the first artificial one. The sweep goes on with row `i'`. -/
structure Advances (q : Program) (i : Nat) (t : Tableau) (move : Move) (i' : Nat) (t' : Tableau) : Prop where
  expelFirst_eq : expelFirst (firstArtificial q) t = .next [move] t'
  sweep_eq : ∀ count, sweep (firstArtificial q) (count + 1) i t =
    (move :: (sweep (firstArtificial q) count i' t').1, (sweep (firstArtificial q) count i' t').2)
  represents : Represents q t'
  notStillArtificial : ¬ StillArtificial t'
  sweptTo : SweptTo i' t'
  length_rows : t'.rows.length + (i + 1) = t.rows.length + i'
  artificialRows : t'.artificialRows + 1 = t.artificialRows

section Advances

variable (h : Represents q t) (hart : ¬ StillArtificial t) (hswept : SweptTo i t) (hrow : t.rows[i]? = some r)
  (hartificial : r.IsArtificial)

include h hart hswept hrow hartificial

/-- After a pivot the sweep goes on behind the row. -/
theorem advances_expel (hcolumn : expellingColumn? (firstArtificial q) r = some j) :
    ∃ move t', Advances q i t move (i + 1) t' := by
  have hi := (List.getElem?_eq_some_iff.mp hrow).1
  have hzero := not_stillArtificial_iff.mp hart i r hrow hartificial
  obtain ⟨hpos, hlt, hne⟩ := of_expellingColumn? hcolumn
  rw [← Tableau.entry_of_getElem? hrow] at hne
  obtain ⟨t', hpivot⟩ := exists_pivot hi hpos (hlt.trans_le h.firstArtificial_le) hne
  have hpositive : 0 < t.artificialRows :=
    List.countP_pos_iff.mpr ⟨r, List.mem_of_getElem? hrow, decide_eq_true hartificial⟩
  have hless := h.artificialRows_pivot hrow hlt hpivot
  rw [if_pos hartificial] at hless
  refine ⟨.expel ⟨i, j⟩ t t', t', expelFirst_eq_expel hswept hrow hartificial hcolumn hpivot, fun count => ?_,
    h.expel hrow hzero hpivot, not_stillArtificial_expel hrow hzero hart h.wellFormed.rectangular hpivot,
    hswept.pivot (h.isFinite_price hlt) hpivot, ?_, by omega⟩
  · simp only [sweep, hrow, if_pos hartificial, hcolumn, hpivot]
  · rw [Tableau.length_rows_pivot hpivot]

/-- After a removal it goes on with the row that has moved up. -/
theorem advances_drop (hnone : expellingColumn? (firstArtificial q) r = none) :
    ∃ move t', Advances q i t move i t' := by
  have hi := (List.getElem?_eq_some_iff.mp hrow).1
  have hzero := not_stillArtificial_iff.mp hart i r hrow hartificial
  obtain ⟨t', hremove⟩ : ∃ t', t.removeRow i = .ok t' := ⟨_, Tableau.removeRow_eq_ok_iff.mpr ⟨hi, rfl⟩⟩
  have hlength := Tableau.length_rows_removeRow hremove
  refine ⟨.drop i t t', t', expelFirst_eq_drop hswept hrow hartificial hnone hremove, fun count => ?_,
    h.drop hrow hzero hnone hremove, not_stillArtificial_drop hart hremove, hswept.removeRow hremove, by omega,
    artificialRows_removeRow hremove hrow hartificial⟩
  simp only [sweep, hrow, if_pos hartificial, hnone, hremove]

theorem exists_advances : ∃ move i' t', Advances q i t move i' t' := by
  cases hcolumn : expellingColumn? (firstArtificial q) r with
  | some j =>
    obtain ⟨move, t', hadvances⟩ := advances_expel h hart hswept hrow hartificial hcolumn
    exact ⟨move, i + 1, t', hadvances⟩
  | none =>
    obtain ⟨move, t', hadvances⟩ := advances_drop h hart hswept hrow hartificial hcolumn
    exact ⟨move, i, t', hadvances⟩

end Advances

/-- From a row with no artificial row in front of it, a sweep of all rows behind it makes the moves of the loop, one
for each artificial row, and leaves none. -/
theorem Represents.exists_sweep_eq_run (h : Represents q t) (hart : ¬ StillArtificial t)
    (hswept : SweptTo i t) (hcount : t.rows.length ≤ i + count) :
    ∃ made t', sweep (firstArtificial q) count i t = (made, .ok t') ∧
      run (expelFirst (firstArtificial q)) (t.artificialRows + 1) t = some (made, .ok t') ∧
      made.length = t.artificialRows ∧ ∀ r ∈ t'.rows, ¬ r.IsArtificial := by
  -- `count` rows from row `i` on are left to look at: a pivot and a row that is passed over take one of them, and the
  -- removal of a row, after which `i` stays, does so, too.
  induction count generalizing i t with
  | zero =>
    have hfinite := hswept.not_isArtificial hcount
    exact ⟨[], t, rfl, run_expelFirst_of_none hfinite, (artificialRows_eq_zero_iff.mpr hfinite).symm, hfinite⟩
  | succ count ih =>
    cases hrow : t.rows[i]? with
    | none =>
      have hfinite := hswept.not_isArtificial (List.getElem?_eq_none_iff.mp hrow)
      exact ⟨[], t, by simp only [sweep, hrow], run_expelFirst_of_none hfinite,
        (artificialRows_eq_zero_iff.mpr hfinite).symm, hfinite⟩
    | some r =>
      by_cases hartificial : r.IsArtificial
      · obtain ⟨move, i', t', hnext⟩ := exists_advances h hart hswept hrow hartificial
        have hlength := hnext.length_rows
        obtain ⟨made, t'', hsweep, hrun, hmade, hfinite⟩ :=
          ih hnext.represents hnext.notStillArtificial hnext.sweptTo (by omega)
        exact ⟨move :: made, t'', by rw [hnext.sweep_eq, hsweep],
          run_expelFirst_next hnext.expelFirst_eq hnext.artificialRows hrun,
          by rw [List.length_cons, hmade, hnext.artificialRows], hfinite⟩
      · obtain ⟨made, t', hsweep, hrest⟩ := ih h hart (hswept.succ hrow hartificial) (by omega)
        exact ⟨made, t', by simp only [sweep, hrow, if_neg hartificial, hsweep], hrest⟩

/-! The right-hand sides and the objective value. -/

/-- A pivot on a row whose right-hand side is zero changes no right-hand side, row by row. -/
theorem map_bound_pivot (hrow : t.rows[i]? = some r) (hzero : r.bound = 0) (hrect : t.Rectangular)
    (hpivot : t.pivot i j = .ok t') : t'.rows.map (·.bound) = t.rows.map (·.bound) := by
  have hlength := Tableau.length_rows_pivot hpivot
  apply List.ext_getElem
  · rw [List.length_map, List.length_map, hlength]
  · intro l hl hl'
    rw [List.length_map] at hl hl'
    have hentry := entry_zero_pivot hrow hzero hrect hpivot l
    rw [Tableau.entry_of_getElem? (List.getElem?_eq_getElem hl),
      Tableau.entry_of_getElem? (List.getElem?_eq_getElem hl')] at hentry
    rw [List.getElem_map, List.getElem_map]
    exact hentry

/-- Nor does it change the objective value. -/
theorem objectiveValue_pivot (hrow : t.rows[i]? = some r) (hzero : r.bound = 0) (hrect : t.Rectangular)
    (hpivot : t.pivot i j = .ok t') : t'.objectiveValue = t.objectiveValue := by
  have hbound : t.entry i 0 = 0 := (Tableau.entry_of_getElem? hrow).trans hzero
  rw [Tableau.objectiveValue, Tableau.reducedCost_pivot hrect hpivot, hbound, zero_div, zero_smul, sub_zero]
  rfl

/-- Removing a row whose right-hand side is zero does not change it either. -/
theorem objectiveValue_removeRow (hrow : t.rows[i]? = some r) (hzero : r.bound = 0)
    (hremove : t.removeRow i = .ok t') : t'.objectiveValue = t.objectiveValue := by
  have hcost := Tableau.reducedCost_removeRow (j := 0) hremove hrow
  have hentry : r.entry 0 = 0 := hzero
  rwa [hentry, zero_smul, add_zero] at hcost

/-- A sweep leaves the right-hand sides of all rows that it does not remove, and the objective value. -/
theorem Represents.map_bound_sweeps (h : Represents q t) (hart : ¬ StillArtificial t)
    (hs : Sweeps (firstArtificial q) t moves t') :
    t'.rows.map (·.bound) = (moves.filterMap Move.dropped?).foldl List.eraseIdx (t.rows.map (·.bound)) ∧
      t'.objectiveValue = t.objectiveValue := by
  induction hs with
  | nil t => exact ⟨rfl, rfl⟩
  | expel hrow hartificial _ hpivot _ ih =>
    have hzero := not_stillArtificial_iff.mp hart _ _ hrow hartificial
    have hrect := h.wellFormed.rectangular
    obtain ⟨hbounds, hobjective⟩ :=
      ih (h.expel hrow hzero hpivot) (not_stillArtificial_expel hrow hzero hart hrect hpivot)
    rw [map_bound_pivot hrow hzero hrect hpivot] at hbounds
    exact ⟨hbounds, hobjective.trans (objectiveValue_pivot hrow hzero hrect hpivot)⟩
  | drop hrow hartificial hnone hremove _ ih =>
    have hzero := not_stillArtificial_iff.mp hart _ _ hrow hartificial
    obtain ⟨hbounds, hobjective⟩ :=
      ih (h.drop hrow hzero hnone hremove) (not_stillArtificial_drop hart hremove)
    refine ⟨?_, hobjective.trans (objectiveValue_removeRow hrow hzero hremove)⟩
    obtain ⟨-, rfl⟩ := Tableau.removeRow_eq_ok_iff.mp hremove
    rw [hbounds, ← List.eraseIdx_map]
    rfl

end Simplex

end ExactSimplex
