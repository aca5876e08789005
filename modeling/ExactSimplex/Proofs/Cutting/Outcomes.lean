import ExactSimplex.Proofs.Cutting.Totality

/-!
# The outcomes of the cutting plane method

On a tableau with a negative right-hand side the method ends at once, and on one whose decision variables are whole
it has nothing to do. In both cases no cut is made, and in every other case the run is solved behind a cut or ends in
a row that shows that it cannot go on. On the last tableau of a solved run there is nothing left to do. All this
holds of any tableau, whether it is optimal or not.
-/

namespace ExactSimplex.Cutting

variable {decisions limit : Nat} {t result : Tableau} {d : Derivation} {j : Nat}

/-! Nothing to cut. -/

/-- In a feasible tableau a decision variable is no candidate for a cut exactly when its value is whole. -/
theorem candidate?_eq_none_iff (hfeasible : t.IsFeasible) : candidate? t j = none ↔ IsWhole (t.variableValue j) := by
  rw [candidate?, Tableau.variableValue]
  cases t.rowOf? (variableName j) with
  | none => exact iff_of_true rfl isWhole_zero
  | some i =>
    dsimp only
    split
    · rename_i hfraction
      refine iff_of_false (Option.some_ne_none _) fun hwhole => ?_
      rw [Source.fraction, truncate_of_isWhole hwhole, sub_self] at hfraction
      exact lt_irrefl 0 hfraction
    · rename_i hfraction
      exact iff_of_true rfl (isWhole_of_sub_truncate_nonpos (hfeasible.entry_nonneg i) (not_lt.mp hfraction))

/-- A feasible tableau has no source for a cut exactly when all decision variables are whole. -/
theorem source?_eq_none_iff (hfeasible : t.IsFeasible) :
    source? t decisions = none ↔ ∀ j, 0 < j → j ≤ decisions → IsWhole (t.variableValue j) := by
  rw [source?, Option.map_eq_none_iff, firstBest_eq_none_iff, List.forall_mem_map]
  apply forall_congr'
  intro j
  rw [List.mem_range'_1, candidate?_eq_none_iff hfeasible, and_imp, Nat.add_comm, Nat.lt_succ_iff]
  rfl

/-- On a tableau that is not feasible the method ends at once. -/
theorem solve_of_not_isFeasible (h : ¬ t.IsFeasible) (limit : Nat) :
    solve decisions (limit + 1) t = some ⟨[], .failed .infeasible⟩ := by
  have hturn : turn decisions ⟨t, 0⟩ = .done [] (.failed .infeasible) := by
    rw [turn, if_neg h]
    rfl
  rw [solve, run, hturn]
  rfl

/-- On a feasible tableau with whole decision variables it ends at once as well. -/
theorem solve_of_isWhole (hfeasible : t.IsFeasible)
    (hwhole : ∀ j, 0 < j → j ≤ decisions → IsWhole (t.variableValue j)) (limit : Nat) :
    solve decisions (limit + 1) t = some ⟨[], .failed .alreadyInteger⟩ := by
  have hturn : turn decisions ⟨t, 0⟩ = .done [] (.failed .alreadyInteger) := by
    rw [turn, if_pos hfeasible, (source?_eq_none_iff hfeasible).mpr hwhole]
    rfl
  rw [solve, run, hturn]
  rfl

/-! How a run ends. -/

/-- A run ends with the last turn from a state that its record tells of. -/
theorem exists_ends_of_solve (h : solve decisions limit t = some d) :
    ∃ front s last, Reaches (turn decisions) ⟨t, 0⟩ front s ∧ Recorded front s ∧
      Ends decisions s last d.ending ∧ d.moves = front ++ last := by
  obtain ⟨⟨moves, ending⟩, hrun, rfl⟩ := Option.map_eq_some_iff.mp h
  obtain ⟨front, last, s, hreach, hdone, rfl⟩ := exists_reaches_of_run hrun
  exact ⟨front, s, last, hreach, recorded_of_reaches hreach, ends_of_turn hdone, rfl⟩

/-- A run that ends took a turn. -/
theorem exists_limit_of_solve (h : solve decisions limit t = some d) : ∃ n, limit = n + 1 := by
  cases limit with
  | zero => cases h
  | succ n => exact ⟨n, rfl⟩

/-- On a tableau that is not feasible every run that ends is that of one turn. -/
theorem eq_of_not_isFeasible (h : solve decisions limit t = some d) (hnot : ¬ t.IsFeasible) :
    d = ⟨[], .failed .infeasible⟩ := by
  obtain ⟨n, rfl⟩ := exists_limit_of_solve h
  exact Option.some.inj (h.symm.trans (solve_of_not_isFeasible hnot n))

/-- So it is on a feasible one with whole decision variables. -/
theorem eq_of_isWhole (h : solve decisions limit t = some d) (hfeasible : t.IsFeasible)
    (hwhole : ∀ j, 0 < j → j ≤ decisions → IsWhole (t.variableValue j)) :
    d = ⟨[], .failed .alreadyInteger⟩ := by
  obtain ⟨n, rfl⟩ := exists_limit_of_solve h
  exact Option.some.inj (h.symm.trans (solve_of_isWhole hfeasible hwhole n))

/-- It was given no feasible tableau exactly when it tells so. -/
theorem ending_eq_infeasible_iff (h : solve decisions limit t = some d) :
    d.ending = .failed .infeasible ↔ ¬ t.IsFeasible := by
  constructor
  · intro hending
    obtain ⟨front, s, last, hreach, -, hends, -⟩ := exists_ends_of_solve h
    rw [hending] at hends
    -- Before the first cut the tableau is still the given one.
    cases hends with
    | infeasible hnot hcuts => rwa [tableau_eq_of_reaches hreach hcuts] at hnot
  · intro hnot
    rw [eq_of_not_isFeasible h hnot]

/-- It was given whole decision variables exactly when it tells so. -/
theorem ending_eq_alreadyInteger_iff (h : solve decisions limit t = some d) :
    d.ending = .failed .alreadyInteger ↔
      t.IsFeasible ∧ ∀ j, 0 < j → j ≤ decisions → IsWhole (t.variableValue j) := by
  constructor
  · intro hending
    obtain ⟨front, s, last, hreach, -, hends, -⟩ := exists_ends_of_solve h
    rw [hending] at hends
    cases hends with
    | alreadyInteger hfeasible hnone hcuts =>
      rw [tableau_eq_of_reaches hreach hcuts] at hfeasible hnone
      exact ⟨hfeasible, (source?_eq_none_iff hfeasible).mp hnone⟩
  · rintro ⟨hfeasible, hwhole⟩
    rw [eq_of_isWhole h hfeasible hwhole]

/-- A run that is solved made a cut, and its result is the last tableau of its record, a feasible one with whole
decision variables. -/
theorem last?_of_solve (h : solve decisions limit t = some d) (hending : d.ending = .solved result) :
    d.applications ≠ [] ∧ d.last? = some result ∧ result.IsFeasible ∧
      ∀ j, 0 < j → j ≤ decisions → IsWhole (result.variableValue j) := by
  obtain ⟨front, s, last, -, hrecorded, hends, hmoves⟩ := exists_ends_of_solve h
  rw [hending] at hends
  cases hends with
  | solved hfeasible hnone hcuts =>
    rw [List.append_nil] at hmoves
    -- The record lists as many cuts as were made, and a feasible tableau behind a cut was recorded last.
    refine ⟨fun hnil => hcuts ?_, ?_, hfeasible, (source?_eq_none_iff hfeasible).mp hnone⟩
    · rw [hrecorded.cuts, ← hmoves, ← map_cut_applications, List.length_map]
      exact List.length_eq_zero_iff.mpr hnil
    · rw [Derivation.last?, Derivation.applications, hmoves]
      exact (hrecorded.last.resolve_left hcuts).resolve_left (not_not.mpr hfeasible)

/-- A run that ends is infeasible exactly on a tableau with a negative right-hand side, and has nothing to do exactly
on one with none whose decision variables are whole. In both cases it makes no cut. Otherwise it is solved with at
least one cut, or finds a row with whole coefficients only or one in which no column may enter, if no precondition is
broken. When it is solved its record ends with the result, on which another run has nothing to do. -/
theorem outcome_of_solve (h : solve decisions limit t = some d) :
    (d.ending = .failed .infeasible ↔ ¬ t.IsFeasible) ∧
    (d.ending = .failed .alreadyInteger ↔
      t.IsFeasible ∧ ∀ j, 0 < j → j ≤ decisions → IsWhole (t.variableValue j)) ∧
    (d.ending = .failed .infeasible ∨ d.ending = .failed .alreadyInteger → d.applications = []) ∧
    ((∀ fault, d.ending ≠ .fault fault) → d.ending ≠ .failed .infeasible → d.ending ≠ .failed .alreadyInteger →
      (∃ result, d.ending = .solved result ∧ d.applications ≠ []) ∨
        (∃ i, d.ending = .failed (.noFractionalCoefficient i)) ∨ ∃ i, d.ending = .failed (.noPivotColumn i)) ∧
    ∀ result, d.ending = .solved result → d.last? = some result ∧
      ∀ limit', solve decisions (limit' + 1) result = some ⟨[], .failed .alreadyInteger⟩ := by
  refine ⟨ending_eq_infeasible_iff h, ending_eq_alreadyInteger_iff h, ?_, fun hfault hinfeasible hinteger => ?_,
    fun result hending => ?_⟩
  · rintro (hending | hending)
    · rw [eq_of_not_isFeasible h ((ending_eq_infeasible_iff h).mp hending)]
      rfl
    · obtain ⟨hfeasible, hwhole⟩ := (ending_eq_alreadyInteger_iff h).mp hending
      rw [eq_of_isWhole h hfeasible hwhole]
      rfl
  · obtain ⟨front, s, last, -, -, hends, -⟩ := exists_ends_of_solve h
    generalize hending : d.ending = ending at hends hfault hinfeasible hinteger
    cases hends with
    | alreadyInteger => exact absurd rfl hinteger
    | solved => exact .inl ⟨_, rfl, (last?_of_solve h hending).1⟩
    | wholeRow => exact .inr (.inl ⟨_, rfl⟩)
    | cutFault => exact absurd rfl (hfault _)
    | infeasible => exact absurd rfl hinfeasible
    | restoreFault => exact absurd rfl (hfault _)
    | blocked => exact .inr (.inr ⟨_, rfl⟩)
  · obtain ⟨-, hlast, hfeasible, hwhole⟩ := last?_of_solve h hending
    exact ⟨hlast, solve_of_isWhole hfeasible hwhole⟩

/-- A quantity of which one and a half units are left. -/
def ration : Program := ⟨.maximize, [1], [], [], [⟨[2], .le, 3⟩]⟩

theorem outcome_ration : ∃ t d result, ¬ IsWhole (t.variableValue 1) ∧ solve ration.decisions 3 t = some d ∧
    d.ending = .solved result ∧ IsWhole (result.variableValue 1) ∧ d.last? = some result ∧
    solve ration.decisions 1 result = some ⟨[], .failed .alreadyInteger⟩ := by
  have hrun : (integerRun? .steepest 2 3 ration).isSome = true := by decide +kernel
  obtain ⟨⟨moves, result⟩, hsome⟩ := Option.isSome_iff_exists.mp hrun
  obtain ⟨_, t, d, -, -, hd, -, hending⟩ := exists_of_integerRun? hsome
  obtain ⟨hinfeasible, hinteger, -, -, hsolved⟩ := outcome_of_solve hd
  obtain ⟨hlast, hagain⟩ := hsolved result hending
  rw [hending] at hinfeasible hinteger
  have hfeasible : t.IsFeasible := not_not.mp fun hnot => by cases hinfeasible.mpr hnot
  have hfraction : ¬ IsWhole (t.variableValue 1) := by
    intro hwhole
    have hall : ∀ j, 0 < j → j ≤ ration.decisions → IsWhole (t.variableValue j) := by
      intro j hpos hj
      rwa [Nat.le_antisymm hj hpos]
    cases hinteger.mpr ⟨hfeasible, hall⟩
  obtain ⟨-, hwhole⟩ := (outcome_of_solve (hagain 0)).2.1.mp rfl
  exact ⟨t, d, result, hfraction, hd, hending, hwhole 1 Nat.one_pos le_rfl, hlast, hagain 0⟩

end ExactSimplex.Cutting
