import ExactSimplex.Proofs.Cutting.CutRow
import ExactSimplex.Proofs.Cutting.DualRatio
import ExactSimplex.Proofs.Simplex.Optimality
import ExactSimplex.Proofs.Simplex.Result

/-!
# Tableaus of the relaxation

All tableaus of the cutting plane method are optimal for the program with the cuts made so far: their
solutions are those of the slacked equations that satisfy the equation of every cut. A cut adds its equation,
and a dual pivot changes no solution.
-/

namespace ExactSimplex.Cutting

open Finset

variable {p : Program} {cuts : List Cut} {t t' before after : Tableau} {r : Row} {i j v : Nat}
  {pivot : Pivot} {x : Assignment}

/-- An optimal tableau with the solutions of a program that satisfy some cuts. The variables behind the
decision variables cost nothing. -/
structure Relaxes (p : Program) (cuts : List Cut) (t : Tableau) : Prop where
  sense : t.sense = p.sense
  wellFormed : t.WellFormed
  optimal : t.IsOptimal
  decisions : p.decisions < t.columns.length
  price : ∀ j, 0 < j → j < t.columns.length → t.price j = Cost.ofRat (p.objective[j - 1]?.getD 0)
  holds_iff : ∀ x, t.Holds x ↔ p.slacked.Tight x ∧ ∀ c ∈ cuts, c.Holds x

/-! The tableau that the Simplex method leaves. -/

/-- The optimal tableau of a program is one of its relaxation without cuts. -/
theorem relaxes_truncate (ht : Simplex.Represents p.augmented t) (hfinite : ∀ r ∈ t.rows, ¬ r.IsArtificial)
    (htruncate : t.truncate (Simplex.firstArtificial p.augmented) = .ok t') (hp : p.Accepted)
    (hopt : t.IsOptimal) : Relaxes p [] t' := by
  have hwell := Simplex.wellFormed_truncate_firstArtificial ht hfinite htruncate
  have hlength := Tableau.length_columns_truncate htruncate
  have hsense : t'.sense = t.sense := by
    obtain ⟨-, rfl⟩ := Tableau.truncate_eq_ok_iff.mp htruncate
    rfl
  refine ⟨hsense.trans ht.sense, hwell, hopt.truncate htruncate, ?_, ?_, ?_⟩
  · rw [hlength, Simplex.firstArtificial, Program.decisions_augmented]
    omega
  · exact fun j => Simplex.price_truncate_firstArtificial ht htruncate
  · intro x
    rw [Simplex.holds_truncate_firstArtificial ht htruncate hp hwell]
    simp

/-- The result of the Simplex method is a tableau of the relaxation without cuts. -/
theorem relaxes_of_solved {rule : Pricing} {limit : Nat} {d : Simplex.Derivation} (hp : p.Accepted)
    (h : Simplex.solve rule limit p = some (.ok d)) (hending : d.ending = .solved t) : Relaxes p [] t := by
  obtain ⟨t', ht', hopt, hfinite, htruncate⟩ := Simplex.exists_of_solve_solved hp h hending
  exact relaxes_truncate ht' hfinite htruncate hp hopt

namespace Relaxes

variable (h : Relaxes p cuts t)

include h

/-! What a tableau of the relaxation tells. -/

/-- The finite part of the costs is the objective of the program. -/
theorem finite_costAt : (t.costAt x).finite = p.objectiveAt x := by
  apply Tableau.finite_costAt_eq_weigh h.decisions
  intro j hpos hlt
  rw [h.price j hpos hlt, Cost.finite_ofRat]

/-- No cost contains `M`. -/
theorem penalty_price (hlt : j < t.columns.length) : (t.price j).penalty = 0 := by
  rcases Nat.eq_zero_or_pos j with rfl | hpos
  · rw [h.wellFormed.price_zero, Cost.penalty_zero]
  · rw [h.price j hpos hlt, Cost.penalty_ofRat]

/-- No reduced cost contains `M`. -/
theorem penalty_reducedCost (hlt : j < t.columns.length) : (t.reducedCost j).penalty = 0 := by
  refine Tableau.penalty_reducedCost_eq_zero (fun i hi => ?_) (h.penalty_price hlt)
  obtain ⟨k, hk⟩ := h.wellFormed.basic i hi
  rw [hk.basicCost_eq]
  exact h.penalty_price hk.lt

/-- The objective value does not contain `M`. -/
theorem isFinite_objectiveValue : t.objectiveValue.IsFinite := h.penalty_reducedCost h.wellFormed.nonempty

/-- The objective value is that of the basic solution. -/
theorem objectiveAt_variableValue : p.objectiveAt t.variableValue = t.objectiveValue.finite := by
  rw [← h.finite_costAt, h.wellFormed.costAt_variableValue]

/-- No nonnegative solution has a better objective than the basic one. -/
theorem objectiveAt_le (hx : ∀ j, 0 < j → j < t.columns.length → 0 ≤ x j) (htight : p.slacked.Tight x)
    (hcuts : ∀ c ∈ cuts, c.Holds x) :
    p.sense.sign * p.objectiveAt x ≤ p.sense.sign * t.objectiveValue.finite := by
  have hholds := (h.holds_iff x).mpr ⟨htight, hcuts⟩
  rw [← h.finite_costAt]
  refine h.wellFormed.finite_costAt_le hholds fun j hpos hlt => .inr ⟨hx j hpos hlt, ?_⟩
  have hreduced := (Tableau.isOptimal_iff t).mp h.optimal j hpos hlt
  rw [h.sense] at hreduced
  exact Sense.finite_nonneg_of_not_improving hreduced (h.penalty_reducedCost hlt)

/-! The operations of the method. -/

/-- A cut is zero in the columns of the basic variables, whose entries are whole. -/
theorem cut_eq_zero_of_basicIn (hr : t.rows[i]? = some r) {l m : Nat} (hb : t.BasicIn l m) :
    (Cut.ofRow v r.values).row[m]?.getD 0 = 0 := by
  have hlength := h.wellFormed.rectangular r (List.mem_of_getElem? hr)
  have hwhole : IsWhole (r.entry m) := by
    rw [← Tableau.entry_of_getElem? hr]
    by_cases hil : i = l
    · rw [hil, hb.entry_self]
      exact isWhole_iff.mpr ⟨1, rfl⟩
    · rw [hb.entry_other i (List.getElem?_eq_some_iff.mp hr).1 hil]
      exact isWhole_zero
  have hm := hb.lt
  rw [Cut.getElem?_row_ofRow, if_neg (by omega), wholePart_of_isWhole hwhole, sub_self, neg_zero]

/-- A cut adds its equation. -/
theorem appendCut (hr : t.rows[i]? = some r)
    (ha : t.appendRow (Cut.ofRow v r.values).row = .ok after) :
    Relaxes p (cuts ++ [Cut.ofRow v r.values]) after := by
  have hrect := h.wellFormed.rectangular
  have hlength := hrect r (List.mem_of_getElem? hr)
  have hlast : (Cut.ofRow v r.values).row[t.columns.length]? = some 1 := by
    rw [Cut.row_ofRow, ← hlength]
    simp
  have hwell := h.wellFormed.appendRow ha (fun l m hb => h.cut_eq_zero_of_basicIn hr hb) hlast
  have hcolumns := Tableau.length_columns_appendRow ha
  have hsense : after.sense = t.sense := by
    obtain ⟨-, rfl⟩ := Tableau.appendRow_eq_ok_iff.mp ha
    rfl
  have hdecisions := h.decisions
  refine ⟨hsense.trans h.sense, hwell, h.optimal.appendRow hrect ha, by omega, ?_, ?_⟩
  · intro j hpos hlt
    rw [hcolumns] at hlt
    rcases Nat.lt_succ_iff_lt_or_eq.mp hlt with hlt | rfl
    · rw [Tableau.price_appendRow_of_lt ha hlt, h.price j hpos hlt]
    · have hnone : p.objective[t.columns.length - 1]? = none := by
        unfold Program.decisions at hdecisions
        exact List.getElem?_eq_none (by omega)
      rw [Tableau.price_appendRow_last ha, hnone]
      rfl
  · intro x
    rw [Tableau.holds_appendRow hrect hwell.rectangular ha, h.holds_iff, List.forall_mem_append,
      and_assoc, List.forall_mem_singleton, Cut.Holds]

/-- The solutions behind a cut are those in front of it, with the surplus of the cut for its variable. -/
theorem holds_appendCut_iff (hr : t.rows[i]? = some r)
    (ha : t.appendRow (Cut.ofRow v r.values).row = .ok after) (x : Assignment) :
    after.Holds x ↔ t.Holds x ∧ x t.columns.length = Cut.surplus r x := by
  have hlength := h.wellFormed.rectangular r (List.mem_of_getElem? hr)
  have hpos : 0 < r.values.length := hlength ▸ h.wellFormed.nonempty
  have hcut := Cut.holds_ofRow_iff (x := x) v hpos
  rw [hlength] at hcut
  exact (Tableau.holds_appendRow h.wellFormed.rectangular (h.appendCut hr ha).wellFormed.rectangular ha x).trans
    (and_congr_right fun _ => hcut)

/-- A solution goes on beyond a cut by the surplus of the cut. -/
theorem holds_update_surplus (hr : t.rows[i]? = some r)
    (ha : t.appendRow (Cut.ofRow v r.values).row = .ok after) (hx : t.Holds x) :
    after.Holds (Function.update x t.columns.length (Cut.surplus r x)) := by
  have hlength := h.wellFormed.rectangular r (List.mem_of_getElem? hr)
  have hsame : ∀ j, j < t.columns.length →
      Function.update x t.columns.length (Cut.surplus r x) j = x j := fun j hj =>
    Function.update_of_ne hj.ne _ _
  rw [h.holds_appendCut_iff hr ha, Function.update_self]
  constructor
  · exact (Tableau.holds_congr h.wellFormed.rectangular fun j _ hj => hsame j hj).mpr hx
  · exact Cut.surplus_congr fun j _ hj => (hsame j (hlength ▸ hj)).symm

/-- Recording ratios changes nothing that matters. -/
theorem record {ratios : Ratios} (hrecord : t.record ratios = .ok before) : Relaxes p cuts before := by
  have hwell := h.wellFormed.record hrecord
  obtain ⟨-, rfl⟩ := Tableau.record_eq_ok_iff.mp hrecord
  exact ⟨h.sense, hwell, h.optimal, h.decisions, h.price, h.holds_iff⟩

/-- Restoring a row changes no solution. -/
theorem restore (hr : t.rows[i]? = some r) (hrestore : restore t i r = .ok (.pivoted pivot before after)) :
    Relaxes p cuts after := by
  have hrect := h.wellFormed.rectangular
  have hoptimal := isOptimal_restore hrect h.optimal hr hrestore
  obtain ⟨ratios, -, hrecord, j, -, -, hpivot⟩ := restore_eq_pivoted_iff.mp hrestore
  have hbefore := h.wellFormed.record hrecord
  have hwell := hbefore.pivot hpivot
  have hholds : ∀ x, after.Holds x ↔ t.Holds x := fun x =>
    (Tableau.holds_pivot hbefore.rectangular hpivot x).trans (Tableau.holds_record hrecord x)
  obtain ⟨-, rfl⟩ := Tableau.record_eq_ok_iff.mp hrecord
  obtain ⟨leaving, -, -, -, -, rfl⟩ := Tableau.pivot_eq_ok_iff.mp hpivot
  exact ⟨h.sense, hwell, hoptimal, h.decisions, h.price, fun x => (hholds x).trans (h.holds_iff x)⟩

end Relaxes

end ExactSimplex.Cutting
