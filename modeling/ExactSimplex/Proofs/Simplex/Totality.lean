import ExactSimplex.Proofs.Simplex.Result

/-!
# No precondition is broken

Every operation that the method performs is given what it is defined on: ratios fit their tableau, a pivot
element is positive or was searched for among those that are not zero, and a row that is removed exists. A run
that ends does so with a result or because the program is infeasible or unbounded.
-/

namespace ExactSimplex.Simplex

variable {rule : Pricing} {first limit count i j : Nat} {q p : Program} {t : Tableau} {r : Row}
  {moves : List Move} {ending : Ending Tableau} {d : Derivation}

/-- A pivot on an element that is not zero can be made. -/
theorem exists_pivot (hi : i < t.rows.length) (hpos : 0 < j) (hlt : j < t.columns.length)
    (hne : t.entry i j ≠ 0) : ∃ t', t.pivot i j = .ok t' := by
  have hrow := List.getElem?_eq_getElem hi
  rw [Tableau.entry_of_getElem? hrow] at hne
  exact ⟨_, Tableau.pivot_eq_ok_iff.mpr ⟨_, hrow, hpos, hlt, hne, rfl⟩⟩

/-- The variable of a column can enter, or nothing limits it. -/
theorem exists_enter (hpos : 0 < j) (hlt : j < t.columns.length) : ∃ e, enter t j = .ok e := by
  have hfits : t.Fits (.primal (t.limits j)) := List.length_map ..
  have hrecord := Tableau.record_eq_ok_iff.mpr ⟨hfits, rfl⟩
  cases hratio : leastRatio (t.limits j) with
  | none => exact ⟨_, enter_eq_unlimited_iff.mpr ⟨hrecord, hratio⟩⟩
  | some i =>
    obtain ⟨hentry, -⟩ := Tableau.leastRatio_limits hratio
    have hi : i < t.rows.length := by
      by_contra hout
      rw [Tableau.entry_eq_zero_of_length_le (not_lt.mp hout)] at hentry
      exact lt_irrefl 0 hentry
    obtain ⟨after, hpivot⟩ :=
      exists_pivot (t := { t with ratios := some (.primal (t.limits j)) }) hi hpos hlt hentry.ne'
    exact ⟨_, enter_eq_pivoted_iff.mpr ⟨hrecord, i, hratio, rfl, hpivot⟩⟩

/-- The column that was searched for in a row stands in front of the artificial ones, and the row is not zero
there. -/
theorem of_expellingColumn? (h : expellingColumn? first r = some j) :
    0 < j ∧ j < first ∧ r.entry j ≠ 0 := by
  unfold expellingColumn? at h
  have hmem := List.mem_of_find?_eq_some h
  have hne := List.find?_some h
  rw [List.mem_range'_1] at hmem
  exact ⟨by omega, by omega, by simpa using hne⟩

/-- A sweep can be finished. -/
theorem exists_sweep (hfirst : first ≤ t.columns.length) :
    ∃ moves t', sweep first count i t = (moves, .ok t') := by
  -- Neither a pivot nor the removal of a row changes the columns, so that the bound on `first` stays.
  induction count generalizing i t with
  | zero => exact ⟨[], t, rfl⟩
  | succ count ih =>
    cases hrow : t.rows[i]? with
    | none => exact ⟨[], t, by simp only [sweep, hrow]⟩
    | some r =>
      have hi := (List.getElem?_eq_some_iff.mp hrow).1
      by_cases hartificial : r.IsArtificial
      · cases hcolumn : expellingColumn? first r with
        | some j =>
          obtain ⟨hpos, hlt, hne⟩ := of_expellingColumn? hcolumn
          rw [← Tableau.entry_of_getElem? hrow] at hne
          obtain ⟨t', hpivot⟩ := exists_pivot hi hpos (hlt.trans_le hfirst) hne
          obtain ⟨moves, t'', hrest⟩ := ih (i := i + 1) (Tableau.columns_pivot hpivot ▸ hfirst)
          exact ⟨.expel ⟨i, j⟩ t t' :: moves, t'', by
            simp only [sweep, hrow, if_pos hartificial, hcolumn, hpivot, hrest]⟩
        | none =>
          obtain ⟨t', hremove⟩ : ∃ t', t.removeRow i = .ok t' :=
            ⟨_, Tableau.removeRow_eq_ok_iff.mpr ⟨hi, rfl⟩⟩
          obtain ⟨moves, t'', hrest⟩ := ih (i := i) (Tableau.columns_removeRow hremove ▸ hfirst)
          exact ⟨.drop i t t' :: moves, t'', by
            simp only [sweep, hrow, if_pos hartificial, hcolumn, hremove, hrest]⟩
      · obtain ⟨moves, t', hrest⟩ := ih (i := i + 1) hfirst
        exact ⟨moves, t', by simp only [sweep, hrow, if_neg hartificial, hrest]⟩

/-- The column of right-hand sides, the decision and the slack variables are columns of every tableau. -/
theorem Represents.firstArtificial_le (h : Represents q t) : firstArtificial q ≤ t.columns.length := by
  rw [h.length_columns, firstArtificial, Program.variableCount]
  omega

/-- The artificial columns can be cut off. -/
theorem Represents.exists_truncate (h : Represents q t) : ∃ t', t.truncate (firstArtificial q) = .ok t' :=
  ⟨_, Tableau.truncate_eq_ok_iff.mpr
    ⟨⟨show 0 < firstArtificial q by unfold firstArtificial; omega, h.firstArtificial_le⟩, rfl⟩⟩

/-- The last turn of a run ends it with a result, or because the program is infeasible or unbounded. -/
theorem Represents.ending_of_turn (h : Represents q t)
    (hturn : Simplex.turn rule (firstArtificial q) t = .done moves ending) :
    ending = .solved t ∨ ending = .failed .infeasible ∨ ∃ j, ending = .failed (.unbounded j) := by
  cases ends_of_turn hturn with
  | enterFault hselect hfault =>
    obtain ⟨hpos, hlt, -, -⟩ := Pricing.of_select hselect
    obtain ⟨e, henter⟩ := exists_enter hpos hlt
    cases hfault.symm.trans henter
  | unbounded => exact .inr (.inr ⟨_, rfl⟩)
  | notOptimal hselect hnot => exact absurd ((Pricing.select_eq_none_iff rule t).mp hselect) hnot
  | infeasible => exact .inr (.inl rfl)
  | sweepFault hfault =>
    obtain ⟨made, t', hsweep⟩ : ∃ made t', Simplex.sweep (firstArtificial q) t.rows.length 0 t = (made, .ok t') :=
      exists_sweep h.firstArtificial_le
    cases hfault.symm.trans hsweep
  | solved _ _ hsweep => exact .inl (congrArg Ending.solved (sweep_nil hsweep).1)

/-- A run of an accepted program tells a derivation, and ends with a result or because the program is infeasible
or unbounded. -/
theorem ending_of_solve {answer : Except Fault Derivation} (hp : p.Accepted)
    (h : solve rule limit p = some answer) :
    ∃ d, answer = .ok d ∧
      ((∃ t, d.ending = .solved t) ∨ d.ending = .failed .infeasible ∨
        ∃ j, d.ending = .failed (.unbounded j)) := by
  obtain ⟨d, rfl, -⟩ := exists_derivation_of_solve hp.artificials_eq h
  refine ⟨d, rfl, ?_⟩
  obtain ⟨t, front, last, ending, ht, hturn, -, hfinish⟩ := exists_last_turn_of_solve hp h
  rw [hfinish]
  rcases ht.ending_of_turn hturn with rfl | rfl | ⟨j, rfl⟩
  · obtain ⟨t', htruncate⟩ := ht.exists_truncate
    exact .inl ⟨t', finish_eq_solved_iff.mpr ⟨t, rfl, htruncate⟩⟩
  · exact .inr (.inl rfl)
  · exact .inr (.inr ⟨j, rfl⟩)

end ExactSimplex.Simplex
