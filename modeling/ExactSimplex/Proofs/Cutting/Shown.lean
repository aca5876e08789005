import ExactSimplex.Proofs.Cutting.Runs

/-!
# The tableaus that the record shows

Each step of the record shows a tableau, which belongs to the cuts made so far. What holds at the start and
is kept by appending a cut, recording ratios and restoring a row holds of every tableau that a run shows,
however the run ended.
-/

namespace ExactSimplex.Cutting

variable {p : Program} {decisions limit : Nat} {t : Tableau} {s s' : State} {moves : List Move}
  {ending : Ending Tableau} {cuts : List Cut} {d : Derivation} {a : Application} {step : Step}

/-! Tableaus with the cuts made so far. -/

/-- The tableaus of all steps behind some cuts, each with the cuts that led to it. -/
def shown : (cuts : List Cut) → List Move → List (List Cut × Tableau)
  | _, [] => []
  | cuts, .cut _ cut _ _ :: moves => shown (cuts ++ [cut]) moves
  | cuts, .restore _ before after :: moves => (cuts, before) :: (cuts, after) :: shown cuts moves
  | cuts, .stuck tableau :: moves => (cuts, tableau) :: shown cuts moves

theorem shown_append (cuts : List Cut) (front back : List Move) :
    shown cuts (front ++ back) = shown cuts front ++ shown (cuts ++ cutsOf front) back := by
  induction front generalizing cuts with
  | nil => simp [shown]
  | cons move front ih =>
    cases move with
    | cut source cut before after => simp [shown, ih]
    | restore pivot before after => simp [shown, ih]
    | stuck tableau => simp [shown, ih]

/-- The tableaus of the record, by cut. -/
def shownBy : (cuts : List Cut) → List Application → List (List Cut × Tableau)
  | _, [] => []
  | cuts, a :: as =>
    a.steps.map (fun step => (cuts ++ [a.cut], step.tableau)) ++ shownBy (cuts ++ [a.cut]) as

/-- The record shows the tableaus of all steps, those in front of the first cut aside. -/
theorem shown_eq_shownBy (cuts : List Cut) (moves : List Move) :
    shown cuts moves =
      (grouped moves).1.map (fun step => (cuts, step.tableau)) ++ shownBy cuts (applications moves) := by
  induction moves generalizing cuts with
  | nil => rfl
  | cons move moves ih =>
    rw [applications] at ih ⊢
    cases move with
    | cut source cut before after => simp [shown, grouped, shownBy, ih]
    | restore pivot before after => simp [shown, grouped, ih]
    | stuck tableau => simp [shown, grouped, ih]

/-- A step that applies a cut shows a tableau with this cut and those of the applications in front. -/
theorem mem_shownBy (cuts : List Cut) {front back : List Application} (hstep : step ∈ a.steps) :
    (cuts ++ front.map (·.cut) ++ [a.cut], step.tableau) ∈ shownBy cuts (front ++ a :: back) := by
  induction front generalizing cuts with
  | nil => exact List.mem_append_left _ (List.mem_map.mpr ⟨step, hstep, by simp⟩)
  | cons b front ih =>
    apply List.mem_append_right
    simpa using ih (cuts ++ [b.cut])

theorem mem_shown_of_applications {front back : List Application}
    (h : applications moves = front ++ a :: back) (hstep : step ∈ a.steps) :
    (front.map (·.cut) ++ [a.cut], step.tableau) ∈ shown [] moves := by
  rw [shown_eq_shownBy, h]
  exact List.mem_append_right _ (mem_shownBy [] hstep)

/-- All tableaus of the record, in order. -/
def Derivation.tableaus (d : Derivation) : List Tableau :=
  d.applications.flatMap fun a => a.steps.map (·.tableau)

theorem map_shownBy (cuts : List Cut) (as : List Application) :
    (shownBy cuts as).map (·.2) = as.flatMap fun a => a.steps.map (·.tableau) := by
  induction as generalizing cuts with
  | nil => rfl
  | cons a as ih => simp [shownBy, ih]

/-- The tableaus of the record are all shown, in the same order. -/
theorem Derivation.tableaus_sublist (d : Derivation) :
    d.tableaus.Sublist ((shown [] d.moves).map (·.2)) := by
  rw [shown_eq_shownBy, List.map_append, map_shownBy]
  exact List.sublist_append_right ..

/-! The last turn. -/

/-- The last turn shows nothing, or the tableau with the ratios of a row in which no variable may enter. -/
theorem turn_eq_done (h : turn decisions s = .done moves ending) :
    moves = [] ∨ ∃ ratios before, s.tableau.record ratios = .ok before ∧ moves = [.stuck before] := by
  cases ends_of_turn h with
  | blocked _ hrestore =>
    obtain ⟨ratios, -, hrecord, -⟩ := restore_eq_blocked_iff.mp hrestore
    exact .inr ⟨_, _, hrecord, rfl⟩
  | _ => exact .inl rfl

/-! What every turn keeps. -/

/-- The property is kept by the operations of the method: a cut of a row is appended, ratios are recorded, a
row is restored. -/
structure Kept (Q : List Cut → Tableau → Prop) : Prop where
  appendCut : ∀ {cuts : List Cut} {t after : Tableau} {r : Row} {i v : Nat}, Q cuts t →
    t.rows[i]? = some r → t.appendRow (Cut.ofRow v r.values).row = .ok after →
    Q (cuts ++ [Cut.ofRow v r.values]) after
  record : ∀ {cuts : List Cut} {t before : Tableau} {ratios : Ratios}, Q cuts t →
    t.record ratios = .ok before → Q cuts before
  restore : ∀ {cuts : List Cut} {t before after : Tableau} {r : Row} {i : Nat} {pivot : Pivot}, Q cuts t →
    leavingRow? t = some (i, r) → restore t i r = .ok (.pivoted pivot before after) → Q cuts after

namespace Kept

variable {Q : List Cut → Tableau → Prop}

/-- A turn keeps the property, and shows tableaus that have it. -/
theorem turn (hQ : Kept Q) (hs : Q cuts s.tableau) (hturn : Cutting.turn decisions s = .next moves s') :
    Q (cuts ++ cutsOf moves) s'.tableau ∧ ∀ e ∈ shown cuts moves, Q e.1 e.2 := by
  rcases turn_eq_next hturn with ⟨source, r, after, -, -, hr, ha, rfl, rfl⟩ |
    ⟨i, r, pivot, before, after, -, hleaving, hrestore, rfl, rfl⟩ | ⟨rfl, rfl⟩
  · refine ⟨hQ.appendCut hs hr ha, fun e he => ?_⟩
    cases he
  · obtain ⟨ratios, -, hrecord, -⟩ := restore_eq_pivoted_iff.mp hrestore
    have hbefore := hQ.record hs hrecord
    have hafter := hQ.restore hs hleaving hrestore
    simp [shown, hbefore, hafter]
  · simpa [shown] using hs

/-- All states that are reached have the property, and so has all that was shown on the way. -/
theorem reaches (hQ : Kept Q) (ht : Q [] t) (h : Reaches (Cutting.turn decisions) ⟨t, 0⟩ moves s) :
    Q (cutsOf moves) s.tableau ∧ ∀ e ∈ shown [] moves, Q e.1 e.2 := by
  induction h with
  | start => exact ⟨ht, fun e he => by cases he⟩
  | snoc _ hturn ih =>
    obtain ⟨hstate, hmade⟩ := hQ.turn ih.1 hturn
    rw [cutsOf_append, shown_append]
    exact ⟨hstate, List.forall_mem_append.mpr ⟨ih.2, hmade⟩⟩

/-- All that is shown within a number of turns has the property, whether the run ends within them or not. -/
theorem movesWithin (hQ : Kept Q) (ht : Q [] t) (decisions limit : Nat) :
    ∀ e ∈ shown [] (ExactSimplex.movesWithin (Cutting.turn decisions) limit ⟨t, 0⟩), Q e.1 e.2 := by
  obtain ⟨front, s, hreach, hmoves⟩ := exists_reaches_of_movesWithin (Cutting.turn decisions) limit ⟨t, 0⟩
  obtain ⟨hs, hfront⟩ := hQ.reaches ht hreach
  rcases hmoves with hmoves | ⟨last, ending, hdone, hmoves⟩
  · rw [hmoves]
    exact hfront
  · rw [hmoves, shown_append]
    refine List.forall_mem_append.mpr ⟨hfront, ?_⟩
    rcases turn_eq_done hdone with rfl | ⟨ratios, before, hrecord, rfl⟩
    · intro e he
      cases he
    · simpa [shown] using hQ.record hs hrecord

/-- Every tableau of the record of a run has the property. -/
theorem solve (hQ : Kept Q) (ht : Q [] t) (h : Cutting.solve decisions limit t = some d) :
    ∀ e ∈ shown [] d.moves, Q e.1 e.2 := by
  obtain ⟨⟨moves, ending⟩, hrun, rfl⟩ := Option.map_eq_some_iff.mp h
  have hmoves := hQ.movesWithin ht decisions limit
  rwa [movesWithin_of_run hrun] at hmoves

end Kept

/-- The operations of the method keep to the relaxation. -/
theorem kept_relaxes (p : Program) : Kept (Relaxes p) where
  appendCut h hr ha := h.appendCut hr ha
  record h hrecord := h.record hrecord
  restore h hleaving hrestore := h.restore (of_leavingRow? hleaving).1 hrestore

end ExactSimplex.Cutting
