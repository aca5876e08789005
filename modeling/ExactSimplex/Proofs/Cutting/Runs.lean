import ExactSimplex.Proofs.Cutting.Record
import ExactSimplex.Proofs.Cutting.Relaxation
import ExactSimplex.Proofs.Reaches

/-!
# Runs of the cutting plane method

A turn makes a cut or restores a row. Every tableau that a run reaches is one of the relaxation with the
cuts made so far, and a run that is solved ends in the last tableau of its record.
-/

namespace ExactSimplex.Cutting

variable {p : Program} {decisions limit : Nat} {t : Tableau} {s s' : State} {source : Source}
  {moves : List Move} {d : Derivation} {j : Nat}

/-! One turn. -/

/-- The source of a cut is the row of a decision variable with a positive fraction. -/
theorem of_source? (h : source? t decisions = some source) :
    t.rowOf? (variableName source.column) = some source.row ∧ source.value = t.entry source.row 0 ∧
      0 < source.fraction := by
  obtain ⟨⟨k, source'⟩, hbest, heq⟩ := Option.map_eq_some_iff.mp h
  obtain rfl : source' = source := heq
  have hmem := List.mem_of_getElem? (getElem?_of_firstBest hbest)
  obtain ⟨j, -, hj⟩ := List.mem_map.mp hmem
  unfold candidate? at hj
  split at hj
  · cases hj
  · rename_i i hrow
    dsimp only at hj
    split at hj
    · rename_i hfraction
      cases hj
      exact ⟨hrow, rfl, hfraction⟩
    · cases hj

/-- Without a source no decision variable that is basic has a positive fraction. -/
theorem fraction_nonpos_of_source? (h : source? t decisions = none) (hpos : 0 < j) (hj : j ≤ decisions)
    {i : Nat} (hrow : t.rowOf? (variableName j) = some i) :
    t.entry i 0 - truncate (t.entry i 0) ≤ 0 := by
  rw [source?, Option.map_eq_none_iff, firstBest_eq_none_iff] at h
  have hmem : j ∈ List.range' 1 decisions := by
    rw [List.mem_range'_1]
    omega
  have hnone := h _ (List.mem_map_of_mem hmem)
  rw [candidate?, hrow] at hnone
  dsimp only at hnone
  split at hnone
  · cases hnone
  · rename_i hfraction
    exact not_lt.mp hfraction

/-- A row that has not whole coefficients only is there. -/
theorem exists_row_of_not_whole {i : Nat}
    (h : ¬ ∀ q ∈ ((t.rows[i]?.map (·.values)).getD []).tail, IsWhole q) : ∃ r, t.rows[i]? = some r := by
  cases hrow : t.rows[i]? with
  | some r => exact ⟨r, rfl⟩
  | none =>
    rw [hrow] at h
    exact absurd (fun q hq => by cases hq) h

/-- The run goes on after a cut from the source row. -/
theorem addCut_eq_next (h : addCut s source = .next moves s') :
    ∃ r after, s.tableau.rows[source.row]? = some r ∧
      s.tableau.appendRow (Cut.ofRow source.column r.values).row = .ok after ∧
      moves = [.cut source (Cut.ofRow source.column r.values) s.tableau after] ∧
      s' = ⟨after, s.cuts + 1⟩ := by
  unfold addCut at h
  dsimp only at h
  split at h
  · cases h
  · rename_i hfractional
    split at h
    · cases h
    · rename_i after hafter
      cases h
      obtain ⟨r, hrow⟩ := exists_row_of_not_whole hfractional
      rw [hrow] at hafter ⊢
      exact ⟨r, after, rfl, hafter, rfl, rfl⟩

/-- The run goes on after a pivot on a row that was restored, or without a change. -/
theorem restoreFeasibility_eq_next (h : restoreFeasibility s = .next moves s') :
    (∃ i r pivot before after, s.cuts ≠ 0 ∧ leavingRow? s.tableau = some (i, r) ∧
        restore s.tableau i r = .ok (.pivoted pivot before after) ∧
        moves = [.restore pivot before after] ∧ s' = { s with tableau := after }) ∨
      (moves = [] ∧ s' = s) := by
  unfold restoreFeasibility at h
  split at h
  · cases h
  · rename_i hcuts
    split at h
    · cases h
      exact .inr ⟨rfl, rfl⟩
    · rename_i i r hleaving
      split at h
      · cases h
      · cases h
      · rename_i pivot before after hrestore
        cases h
        exact .inl ⟨i, r, pivot, before, after, hcuts, hleaving, hrestore, rfl, rfl⟩

/-- A turn makes a cut on a feasible tableau, restores a row of one that is not, or changes nothing. -/
theorem turn_eq_next (h : turn decisions s = .next moves s') :
    (∃ source r after, s.tableau.IsFeasible ∧ source? s.tableau decisions = some source ∧
        s.tableau.rows[source.row]? = some r ∧
        s.tableau.appendRow (Cut.ofRow source.column r.values).row = .ok after ∧
        moves = [.cut source (Cut.ofRow source.column r.values) s.tableau after] ∧
        s' = ⟨after, s.cuts + 1⟩) ∨
      (∃ i r pivot before after, s.cuts ≠ 0 ∧ leavingRow? s.tableau = some (i, r) ∧
        restore s.tableau i r = .ok (.pivoted pivot before after) ∧
        moves = [.restore pivot before after] ∧ s' = { s with tableau := after }) ∨
      (moves = [] ∧ s' = s) := by
  unfold turn at h
  split at h
  · rename_i hfeasible
    split at h
    · rename_i source hsource
      obtain ⟨r, after, hrow, hafter, hmoves, hstate⟩ := addCut_eq_next h
      exact .inl ⟨source, r, after, hfeasible, hsource, hrow, hafter, hmoves, hstate⟩
    · split at h <;> cases h
  · exact .inr (restoreFeasibility_eq_next h)

/-- The ways in which a turn ends a run, with the moves that it still makes. -/
inductive Ends (decisions : Nat) (s : State) : List Move → Ending Tableau → Prop
  /-- All decision variables are whole before the first cut. -/
  | alreadyInteger : s.tableau.IsFeasible → source? s.tableau decisions = none → s.cuts = 0 →
      Ends decisions s [] (.failed .alreadyInteger)
  /-- All decision variables are whole behind a cut. -/
  | solved : s.tableau.IsFeasible → source? s.tableau decisions = none → s.cuts ≠ 0 →
      Ends decisions s [] (.solved s.tableau)
  /-- The row of the source has whole coefficients only. -/
  | wholeRow {source : Source} : s.tableau.IsFeasible → source? s.tableau decisions = some source →
      (∀ r, s.tableau.rows[source.row]? = some r → ∀ q ∈ r.values.tail, IsWhole q) →
      Ends decisions s [] (.failed (.noFractionalCoefficient source.row))
  /-- The cut does not fit the tableau. -/
  | cutFault {source : Source} {r : Row} {fault : Fault} : s.tableau.rows[source.row]? = some r →
      s.tableau.appendRow (Cut.ofRow source.column r.values).row = .error fault →
      Ends decisions s [] (.fault fault)
  /-- A right-hand side is negative before the first cut. -/
  | infeasible : ¬ s.tableau.IsFeasible → s.cuts = 0 → Ends decisions s [] (.failed .infeasible)
  /-- The ratios for a row cannot be computed, or the pivot cannot be made. -/
  | restoreFault {i : Nat} {r : Row} {fault : Fault} : leavingRow? s.tableau = some (i, r) →
      restore s.tableau i r = .error fault → Ends decisions s [] (.fault fault)
  /-- No column may enter in a row. -/
  | blocked {i : Nat} {r : Row} {before : Tableau} : leavingRow? s.tableau = some (i, r) →
      restore s.tableau i r = .ok (.blocked before) →
      Ends decisions s [.stuck before] (.failed (.noPivotColumn i))

theorem ends_of_addCut {ending : Ending Tableau} (hfeasible : s.tableau.IsFeasible)
    (hsource : source? s.tableau decisions = some source) (h : addCut s source = .done moves ending) :
    Ends decisions s moves ending := by
  unfold addCut at h
  dsimp only at h
  split at h
  · rename_i hwhole
    cases h
    refine .wholeRow hfeasible hsource fun r hr => ?_
    rwa [hr] at hwhole
  · rename_i hfractional
    obtain ⟨r, hrow⟩ := exists_row_of_not_whole hfractional
    rw [hrow] at h
    split at h
    · rename_i hfault
      cases h
      exact .cutFault hrow hfault
    · cases h

theorem ends_of_restoreFeasibility {ending : Ending Tableau} (hnot : ¬ s.tableau.IsFeasible)
    (h : restoreFeasibility s = .done moves ending) : Ends decisions s moves ending := by
  unfold restoreFeasibility at h
  split at h
  · rename_i hcuts
    cases h
    exact .infeasible hnot hcuts
  · split at h
    · cases h
    · rename_i hleaving
      split at h
      · rename_i hrestore
        cases h
        exact .restoreFault hleaving hrestore
      · rename_i hrestore
        cases h
        exact .blocked hleaving hrestore
      · cases h

/-- A turn ends a run in one of these ways. -/
theorem ends_of_turn {ending : Ending Tableau} (h : turn decisions s = .done moves ending) :
    Ends decisions s moves ending := by
  unfold turn at h
  split at h
  · rename_i hfeasible
    split at h
    · rename_i hsource
      exact ends_of_addCut hfeasible hsource h
    · rename_i hnone
      split at h
      · rename_i hcuts
        cases h
        exact .alreadyInteger hfeasible hnone hcuts
      · rename_i hcuts
        cases h
        exact .solved hfeasible hnone hcuts
  · rename_i hnot
    exact ends_of_restoreFeasibility hnot h

/-- The run is solved in a feasible tableau without a source, after a cut. -/
theorem turn_eq_solved (h : turn decisions s = .done moves (.solved t)) :
    moves = [] ∧ t = s.tableau ∧ t.IsFeasible ∧ source? t decisions = none ∧ s.cuts ≠ 0 := by
  cases ends_of_turn h with
  | solved hfeasible hnone hcuts => exact ⟨rfl, rfl, hfeasible, hnone, hcuts⟩

/-- The run fails for want of a fractional coefficient in the row that was to be the source of a cut. -/
theorem turn_eq_noFractionalCoefficient {i : Nat}
    (h : turn decisions s = .done moves (.failed (.noFractionalCoefficient i))) :
    ∃ source, source? s.tableau decisions = some source ∧ source.row = i ∧
      ∀ r, s.tableau.rows[i]? = some r → ∀ q ∈ r.values.tail, IsWhole q := by
  cases ends_of_turn h with
  | wholeRow _ hsource hwhole => exact ⟨_, hsource, rfl, hwhole⟩

/-! A whole run. -/

/-- What the record of the moves so far tells of the state they led to. -/
structure Recorded (moves : List Move) (s : State) : Prop where
  cuts : s.cuts = (cutsOf moves).length
  last : s.cuts = 0 ∨ ¬ s.tableau.IsFeasible ∨ lastTableau moves = some s.tableau

/-- What the moves so far tell of the state they led to. -/
structure Reflects (p : Program) (moves : List Move) (s : State) : Prop where
  relaxes : Relaxes p (cutsOf moves) s.tableau
  cuts : s.cuts = (cutsOf moves).length
  last : s.cuts = 0 ∨ ¬ s.tableau.IsFeasible ∨ lastTableau moves = some s.tableau

section AppendCut

variable {r : Row} {after : Tableau} (hfeasible : t.IsFeasible) (hsource : source? t decisions = some source)
  (hr : t.rows[source.row]? = some r) (ha : t.appendRow (Cut.ofRow source.column r.values).row = .ok after)

include hfeasible hsource hr ha

/-- The new row of a cut has a negative right-hand side. -/
theorem entry_appendCut_neg : after.entry t.rows.length 0 < 0 := by
  obtain ⟨-, hvalue, hfraction⟩ := of_source? hsource
  have hentry : t.entry source.row 0 = r.entry 0 := Tableau.entry_of_getElem? hr
  have hbound := Tableau.isFeasible_iff.mp hfeasible source.row (List.getElem?_eq_some_iff.mp hr).1
  rw [hentry] at hvalue hbound
  rw [Source.fraction, hvalue, ← wholePart_of_nonneg hbound] at hfraction
  have hlength : 0 ≠ r.values.length := by
    intro hnil
    have hzero : r.entry 0 = 0 := by
      rw [Row.entry, List.getElem?_eq_none hnil.ge]
      rfl
    rw [hzero, wholePart_of_isWhole isWhole_zero, sub_zero] at hfraction
    exact lt_irrefl 0 hfraction
  rw [Tableau.entry_appendRow_last ha, Cut.getElem?_row_ofRow, if_neg hlength]
  linarith

/-- Behind a cut the tableau is not feasible. -/
theorem not_isFeasible_appendCut : ¬ after.IsFeasible := by
  intro hafter
  have hlast := Tableau.isFeasible_iff.mp hafter t.rows.length
    (by rw [Tableau.length_rows_appendRow ha]; exact Nat.lt_succ_self _)
  exact absurd (entry_appendCut_neg hfeasible hsource hr ha) (not_lt.mpr hlast)

end AppendCut

/-- Every turn keeps what the record tells. -/
theorem Recorded.turn {front : List Move} (h : Recorded front s) (hturn : turn decisions s = .next moves s') :
    Recorded (front ++ moves) s' := by
  rcases turn_eq_next hturn with ⟨source, r, after, hfeasible, hsource, hr, ha, rfl, rfl⟩ |
    ⟨i, r, pivot, before, after, hcuts, -, -, rfl, rfl⟩ | ⟨rfl, rfl⟩
  · refine ⟨?_, .inr (.inl (not_isFeasible_appendCut hfeasible hsource hr ha))⟩
    rw [cutsOf_append, List.length_append, ← h.cuts]
    rfl
  · refine ⟨?_, .inr (.inr (lastTableau_append_restore ?_))⟩
    · rw [cutsOf_append, List.length_append, ← h.cuts]
      rfl
    · intro hnil
      rw [h.cuts, hnil] at hcuts
      exact hcuts rfl
  · rwa [List.append_nil]

/-- The record tells the number of cuts of every state that is reached, and the last tableau. -/
theorem recorded_of_reaches (h : Reaches (Cutting.turn decisions) ⟨t, 0⟩ moves s) : Recorded moves s :=
  h.invariant (fun _ _ _ _ hs hturn => hs.turn hturn) ⟨rfl, .inl rfl⟩

/-- Every turn keeps what the moves tell. -/
theorem Reflects.turn {front : List Move} (h : Reflects p front s)
    (hturn : turn decisions s = .next moves s') : Reflects p (front ++ moves) s' := by
  have hrecorded : Recorded (front ++ moves) s' := Recorded.turn ⟨h.cuts, h.last⟩ hturn
  refine ⟨?_, hrecorded.cuts, hrecorded.last⟩
  rw [cutsOf_append]
  rcases turn_eq_next hturn with ⟨source, r, after, -, -, hr, ha, rfl, rfl⟩ |
    ⟨i, r, pivot, before, after, -, hleaving, hrestore, rfl, rfl⟩ | ⟨rfl, rfl⟩
  · exact h.relaxes.appendCut hr ha
  · rw [cutsOf_restore, cutsOf_nil, List.append_nil]
    exact h.relaxes.restore (of_leavingRow? hleaving).1 hrestore
  · rw [cutsOf_nil, List.append_nil]
    exact h.relaxes

/-- A run that is solved has reached the tableau that its record ends with. -/
theorem exists_reaches_of_solve (ht : Relaxes p [] t) {result : Tableau}
    (h : solve decisions limit t = some d) (hending : d.ending = .solved result) :
    ∃ s, Reaches (turn decisions) ⟨t, 0⟩ d.moves s ∧ s.tableau = result ∧
      Relaxes p (cutsOf d.moves) result ∧ result.IsFeasible ∧ source? result decisions = none ∧
      d.last? = some result := by
  obtain ⟨⟨moves, ending⟩, hrun, rfl⟩ := Option.map_eq_some_iff.mp h
  obtain rfl : ending = .solved result := hending
  obtain ⟨front, last, s, hreach, hdone, rfl⟩ := exists_reaches_of_run hrun
  obtain ⟨rfl, rfl, hfeasible, hsource, hcuts⟩ := turn_eq_solved hdone
  have hstart : Reflects p [] ⟨t, 0⟩ := ⟨ht, rfl, .inl rfl⟩
  have hstep : ∀ moves s made s', Reflects p moves s → turn decisions s = .next made s' →
      Reflects p (moves ++ made) s' := fun _ _ _ _ hs hturn => hs.turn hturn
  have hs := hreach.invariant hstep hstart
  have hlast := (hs.last.resolve_left hcuts).resolve_left (not_not.mpr hfeasible)
  rw [List.append_nil]
  exact ⟨s, hreach, rfl, hs.relaxes, hfeasible, hsource, hlast⟩

/-- The cuts recorded within a number of turns, whether the run ends within them or not. -/
def applicationsWithin (decisions limit : Nat) (t : Tableau) : List Application :=
  applications (movesWithin (turn decisions) limit ⟨t, 0⟩)

/-- A run that has ended has recorded all cuts there are. -/
theorem applications_eq_applicationsWithin (h : solve decisions limit t = some d) :
    d.applications = applicationsWithin decisions limit t := by
  obtain ⟨⟨moves, ending⟩, hrun, rfl⟩ := Option.map_eq_some_iff.mp h
  rw [Derivation.applications, applicationsWithin, movesWithin_of_run hrun]

/-- The derivation of the method on the optimal tableau of a program, if the first run was solved and both
ended within their numbers of turns. -/
def derivation? (rule : Pricing) (limit limit' : Nat) (p : Program) : Option Derivation :=
  (Simplex.result? rule limit p).bind (solve p.decisions limit')

/-- There is a derivation when the first run was solved and the second one ended. -/
theorem derivation?_eq_some_iff {rule : Pricing} {limit' : Nat} : derivation? rule limit limit' p = some d ↔
    ∃ e t, Simplex.solve rule limit p = some (.ok e) ∧ e.ending = .solved t ∧
      solve p.decisions limit' t = some d := by
  rw [derivation?, Option.bind_eq_some_iff]
  simp only [Simplex.result?_eq_some_iff, Simplex.outcome_eq_some_iff]
  constructor
  · rintro ⟨t, ⟨e, he, hending⟩, hd⟩
    exact ⟨e, t, he, hending, hd⟩
  · rintro ⟨e, t, he, hending, hd⟩
    exact ⟨t, ⟨e, he, hending⟩, hd⟩

/-- The moves and the result of the method on the optimal tableau of a program, if both runs were solved
within their numbers of turns. -/
def integerRun? (rule : Pricing) (limit limit' : Nat) (p : Program) : Option (List Move × Tableau) :=
  match Simplex.result? rule limit p with
  | none => none
  | some t =>
    match solve p.decisions limit' t with
    | some ⟨moves, .solved result⟩ => some (moves, result)
    | _ => none

/-- Both runs were solved when there are moves and a result. -/
theorem exists_of_integerRun? {rule : Pricing} {limit' : Nat} {result : Tableau}
    (h : integerRun? rule limit limit' p = some (moves, result)) :
    ∃ d t c, Simplex.solve rule limit p = some (.ok d) ∧ d.ending = .solved t ∧
      solve p.decisions limit' t = some c ∧ c.moves = moves ∧ c.ending = .solved result := by
  unfold integerRun? at h
  split at h
  · cases h
  · rename_i t hresult
    obtain ⟨d, hd, hending⟩ := Simplex.outcome_eq_some_iff.mp (Simplex.result?_eq_some_iff.mp hresult)
    split at h
    · rename_i moves' result' hcutting
      cases h
      exact ⟨d, t, _, hd, hending, hcutting, rfl, rfl⟩
    · cases h

end ExactSimplex.Cutting
