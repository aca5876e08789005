import ExactSimplex.Proofs.Simplex.Record
import ExactSimplex.Proofs.Simplex.Replay

/-!
# The pivot element afterwards

A pivot makes its column the unit vector of its row. The tableau that the record shows next need not have that
row in the same place: redundant rows may have been removed in between, and the rows behind them have moved up.
The row of the pivot itself is removed only when an artificial variable had entered in it.
-/

namespace ExactSimplex.Simplex

variable {rule : Pricing} {first limit i : Nat} {p : Program} {start last t before next : Tableau}
  {steps : List Step} {pivot : Pivot} {d : Derivation}

/-- Between a step and what is shown behind it there are its pivot and the removal of redundant rows. -/
theorem Replays.exists_removes (h : Replays first start steps last)
    (hstep : steps[i]? = some ⟨some pivot, before⟩)
    (hnext : (steps.map (·.tableau.plain) ++ [last])[i + 1]? = some next) :
    ∃ after removed, before.pivot pivot.row pivot.column = .ok after ∧ Removes first after removed next := by
  induction h generalizing next with
  | start h => cases hstep
  | @pivot steps before' after last pivot' removed h hpivot hremoves ih =>
    rcases Nat.lt_trichotomy i steps.length with hlt | rfl | hlt
    · rw [List.getElem?_append_left hlt] at hstep
      rw [List.map_append, List.getElem?_append_left (by simpa using hlt)] at hnext
      exact ih hstep hnext
    · rw [List.getElem?_concat_length] at hstep
      cases hstep
      have hlength : (steps ++ [(⟨some pivot, before⟩ : Step)]).length = steps.length + 1 := List.length_append
      rw [← hlength, ← List.length_map (f := (·.tableau.plain)), List.getElem?_concat_length] at hnext
      cases hnext
      exact ⟨after, removed, hpivot, hremoves⟩
    · rw [List.getElem?_eq_none (by simpa using hlt)] at hstep
      cases hstep

/-- A pivot makes its column a unit vector. -/
theorem entry_pivot_column {i j : Nat} {t' : Tableau} (hrect : t.Rectangular) (hpivot : t.pivot i j = .ok t')
    (k : Nat) : t'.entry k j = if k = i then 1 else 0 := by
  obtain ⟨leaving, hrow, hpos, hlt, hne, rfl⟩ := Tableau.pivot_eq_ok_iff.mp hpivot
  rw [← Tableau.entry_of_getElem? hrow] at hne
  have hbasic := Tableau.basicIn_exchange_self hrect hrow hpos hlt hne
  split
  · rename_i hk
    rw [hk]
    exact hbasic.entry_self
  · rename_i hk
    by_cases hrows : k < (t.exchange i j leaving).rows.length
    · exact hbasic.entry_other k hrows hk
    · exact Tableau.entry_eq_zero_of_length_le (not_lt.mp hrows)

/-- The row of a pivot is headed by the entering variable, at its price. -/
theorem exists_row_pivot {i j : Nat} {t' : Tableau} (hpivot : t.pivot i j = .ok t') :
    ∃ values, t'.rows[i]? = some ⟨variableName j, t.price j, values⟩ ∧ j < t.columns.length := by
  obtain ⟨leaving, hrow, -, hlt, -, rfl⟩ := Tableau.pivot_eq_ok_iff.mp hpivot
  refine ⟨leaving.normalized j, ?_, hlt⟩
  rw [Tableau.getElem?_rows_exchange (List.getElem?_eq_some_iff.mp hrow).1, if_pos rfl]

/-- Only an artificial variable enters in a row that is redundant afterwards. -/
theorem Represents.firstArtificial_le_of_isRedundant {q : Program} {i j : Nat} {t' : Tableau} {r : Row}
    (h : Represents q t) (hpivot : t.pivot i j = .ok t') (hrow : t'.rows[i]? = some r)
    (hredundant : r.IsRedundant first) : firstArtificial q ≤ j := by
  obtain ⟨values, hentering, hlt⟩ := exists_row_pivot hpivot
  rw [hrow] at hentering
  cases hentering
  have hartificial : (t.price j).penalty ≠ 0 := hredundant.isArtificial
  rw [h.penalty_price hlt] at hartificial
  unfold firstArtificial
  by_contra hfront
  exact hartificial (if_neg (by omega))

/-- The removal of rows leaves a unit vector, or a column of zeros if the row of the one was removed. -/
theorem Removes.entry_column {removed : List Nat} {t' : Tableau} {i j : Nat} (h : Removes first t removed t')
    (hcolumn : ∀ k, t.entry k j = if k = i then 1 else 0) (l : Nat) :
    t'.entry l j = if placeAfter removed i = some l then 1 else 0 := by
  obtain ⟨k, hk⟩ := h.exists_place l
  have hsame : k = i ↔ placeAfter removed i = some l :=
    ⟨fun hki => hki ▸ hk, fun hi => placeAfter_injective hk hi⟩
  rw [Tableau.entry, h.getElem?_rows hk, ← Tableau.entry, hcolumn]
  simp only [hsame]

/-! What the record shows. -/

/-- A tableau of the run as it is shown: with the ratios recorded in it, or in the end without its artificial
columns. -/
def Shows (first : Nat) (t shown : Tableau) : Prop := shown.plain = t ∨ t.truncate first = .ok shown

namespace Shows

variable {shown : Tableau}

theorem length_rows (h : Shows first t shown) : shown.rows.length = t.rows.length := by
  rcases h with rfl | htruncate
  · rfl
  · exact Tableau.length_rows_truncate htruncate

/-- The columns that are shown have the entries of the tableau. -/
theorem entry {k j : Nat} (h : Shows first t shown) (hj : j < shown.columns.length) :
    shown.entry k j = t.entry k j := by
  rcases h with rfl | htruncate
  · rfl
  · rw [Tableau.length_columns_truncate htruncate] at hj
    exact Tableau.entry_truncate htruncate hj

end Shows

/-- Of the tableaus between the pivots the record shows those of the steps, and the last one as the result. -/
theorem exists_shows (htruncate : last.truncate first = .ok t)
    (hnext : (steps.map (·.tableau) ++ [t])[i]? = some next) :
    ∃ u, (steps.map (·.tableau.plain) ++ [last])[i]? = some u ∧ Shows first u next := by
  rcases Nat.lt_trichotomy i steps.length with hlt | rfl | hlt
  · rw [List.getElem?_append_left (by simpa using hlt), List.getElem?_map] at hnext ⊢
    obtain ⟨s, hs, rfl⟩ := Option.map_eq_some_iff.mp hnext
    exact ⟨s.tableau.plain, by rw [hs]; rfl, .inl rfl⟩
  · rw [← List.length_map (f := (·.tableau)), List.getElem?_concat_length] at hnext
    cases hnext
    refine ⟨last, ?_, .inr htruncate⟩
    rw [← List.length_map (f := (·.tableau.plain)), List.getElem?_concat_length]
  · rw [List.getElem?_eq_none (by simpa using hlt)] at hnext
    cases hnext

/-- In what the record shows behind a step, the column of its pivot is the unit vector of the row of the pivot,
at the place where the row stands after redundant rows have been removed. In the column of an artificial variable
that row may have been removed itself, and then the column is zero. -/
theorem unitColumn_of_solved (hp : p.Accepted) (h : solve rule limit p = some (.ok d))
    (hending : d.ending = .solved t) (hstep : d.steps[i]? = some ⟨some pivot, before⟩)
    (hnext : (d.steps.map (·.tableau) ++ [t])[i + 1]? = some next) :
    ∃ after removed u, before.pivot pivot.row pivot.column = .ok after ∧
      Removes (firstArtificial d.form.augmented) after removed u ∧ Shows (firstArtificial d.form.augmented) u next ∧
      (pivot.column < next.columns.length →
        ∀ l, next.entry l pivot.column = if placeAfter removed pivot.row = some l then 1 else 0) ∧
      (∀ l, placeAfter removed pivot.row = some l → l < next.rows.length) ∧
      (placeAfter removed pivot.row = none → firstArtificial d.form.augmented ≤ pivot.column) ∧
      ((∀ k ∈ removed, pivot.row < k) → placeAfter removed pivot.row = some pivot.row) := by
  obtain ⟨_, start, replayed, last, -, -, -, hretraces, hends⟩ := exists_retraces_of_solve hp h
  have hform : d.form.augmented = p.augmented := by rw [form_of_solve hp h]
  rw [← hform] at hretraces
  have hbefore := represents_of_mem_steps hp h (List.mem_of_getElem? hstep)
  rw [← hform] at hbefore
  cases hends with
  | infeasible _ hending' => cases hending.symm.trans hending'
  | unbounded _ _ _ _ hending' => cases hending.symm.trans hending'
  | solved t' hsteps hending' htruncate =>
    cases hending.symm.trans hending'
    rw [hsteps] at hstep hnext
    obtain ⟨u, hu, hshows⟩ := exists_shows htruncate hnext
    obtain ⟨after, removed, hpivot, hremoves⟩ := hretraces.replays.exists_removes hstep hu
    have hcolumn := entry_pivot_column hbefore.wellFormed.rectangular hpivot
    refine ⟨after, removed, u, hpivot, hremoves, hshows, fun hlt l => ?_, fun l hl => ?_, fun hgone => ?_,
      placeAfter_of_lt⟩
    · rw [hshows.entry hlt, hremoves.entry_column hcolumn]
    · obtain ⟨values, hentering, -⟩ := exists_row_pivot hpivot
      rw [← hremoves.getElem?_rows hl] at hentering
      rw [hshows.length_rows]
      exact (List.getElem?_eq_some_iff.mp hentering).1
    · obtain ⟨r, hrow, hredundant⟩ := hremoves.isRedundant hgone
      exact hbefore.firstArtificial_le_of_isRedundant hpivot hrow hredundant

/-- Two equations that say the same of one variable, before a limit for the other. -/
def fixedAndLimited : Program :=
  ⟨.maximize, [1, 1], [], [], [⟨[1, 0], .eq, 2⟩, ⟨[2, 0], .eq, 4⟩, ⟨[0, 1], .le, 3⟩]⟩

/-- The second pivot is made in the third row. Of the three rows the result has two. -/
theorem exists_run_fixedAndLimited : ∃ d t before, solve .steepest 6 fixedAndLimited = some (.ok d) ∧
    d.ending = .solved t ∧ d.steps.length = 2 ∧ d.steps[1]? = some ⟨some ⟨2, 2⟩, before⟩ ∧
    2 < t.columns.length ∧ t.rows.length = 2 := by
  have hrun : (derivation? .steepest 6 fixedAndLimited).map (·.steps.map (·.pivot)) =
        some [some ⟨0, 1⟩, some ⟨2, 2⟩] ∧
      (result? .steepest 6 fixedAndLimited).any
        (fun t => decide (2 < t.columns.length ∧ t.rows.length = 2)) = true := by
    decide +kernel
  obtain ⟨d, hsome, hpivots⟩ := Option.map_eq_some_iff.mp hrun.1
  obtain ⟨t, hresult, hshape⟩ := (Option.any_eq_true _ _).mp hrun.2
  have hd := derivation?_eq_some_iff.mp hsome
  obtain ⟨d', hd', hending⟩ := outcome_eq_some_iff.mp (result?_eq_some_iff.mp hresult)
  rw [hd] at hd'
  cases hd'
  have hlength := congrArg List.length hpivots
  have hsecond : (d.steps.map (·.pivot))[1]? = some (some ⟨2, 2⟩) := by rw [hpivots]; rfl
  rw [List.length_map] at hlength
  rw [List.getElem?_map, Option.map_eq_some_iff] at hsecond
  obtain ⟨⟨pivot, before⟩, hstep, rfl⟩ := hsecond
  exact ⟨d, t, before, hd, hending, hlength, hstep, of_decide_eq_true hshape⟩

theorem unitColumn_fixedAndLimited : ∃ d t before after removed u,
    solve .steepest 6 fixedAndLimited = some (.ok d) ∧ d.ending = .solved t ∧
    d.steps[1]? = some ⟨some ⟨2, 2⟩, before⟩ ∧ before.pivot 2 2 = .ok after ∧
    Removes (firstArtificial d.form.augmented) after removed u ∧ Shows (firstArtificial d.form.augmented) u t ∧
    ∀ l, t.entry l 2 = if placeAfter removed 2 = some l then 1 else 0 := by
  obtain ⟨d, t, before, hd, hending, hlength, hstep, hcolumns, -⟩ := exists_run_fixedAndLimited
  have hnext : (d.steps.map (·.tableau) ++ [t])[1 + 1]? = some t := by
    rw [show 1 + 1 = d.steps.length from hlength.symm, ← List.length_map (f := (·.tableau)), List.getElem?_concat_length]
  obtain ⟨after, removed, u, hpivot, hremoves, hshows, hunit, -⟩ :=
    unitColumn_of_solved (p := fixedAndLimited) rfl hd hending hstep hnext
  exact ⟨d, t, before, after, removed, u, hd, hending, hstep, hpivot, hremoves, hshows, hunit hcolumns⟩

/-- The position of a pivot need not exist afterwards: in a solved run the last pivot was made in a column that
the result has, but in a row behind its last. -/
theorem exists_pivot_row_gone : ∃ d t before, fixedAndLimited.Accepted ∧
    solve .steepest 6 fixedAndLimited = some (.ok d) ∧ d.ending = .solved t ∧
    d.steps.getLast? = some ⟨some ⟨2, 2⟩, before⟩ ∧ 2 < t.columns.length ∧ t.rows.length ≤ 2 := by
  obtain ⟨d, t, before, hd, hending, hlength, hstep, hcolumns, hrows⟩ := exists_run_fixedAndLimited
  have hlast : d.steps.getLast? = some ⟨some ⟨2, 2⟩, before⟩ := by
    rw [List.getLast?_eq_getElem?, hlength]
    exact hstep
  exact ⟨d, t, before, rfl, hd, hending, hlast, hcolumns, hrows.le⟩

end ExactSimplex.Simplex
