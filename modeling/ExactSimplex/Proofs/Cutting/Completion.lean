import ExactSimplex.Proofs.Cutting.Shown
import ExactSimplex.Proofs.Program.Integral

/-!
# Integer points through a run

The decision variables determine the slack variables, and these the variable of every cut: it is the surplus
of the cut, which is whole on whole solutions of the source row. So an integer point has one completion to a
solution of each tableau, and the completion is whole, also where a cut makes its own variable negative. A
row with whole coefficients and a fractional right-hand side leaves no integer point.
-/

namespace ExactSimplex.Cutting

variable {p : Program} {cuts : List Cut} {decisions limit : Nat} {t t' before after : Tableau} {s : State}
  {moves : List Move} {r : Row} {i v : Nat} {pivot : Pivot} {x y z : Assignment}

/-- The second assignment solves the tableau with whole values, and gives the decision variables the values
of the first. -/
structure Completes (decisions : Nat) (t : Tableau) (x z : Assignment) : Prop where
  agrees : ∀ j, 0 < j → j ≤ decisions → z j = x j
  whole : ∀ j, 0 < j → j < t.columns.length → IsWhole (z j)
  holds : t.Holds z

/-- The decision variables determine a solution of the tableau. -/
def Determined (decisions : Nat) (t : Tableau) : Prop :=
  ∀ y z, t.Holds y → t.Holds z → (∀ j, 0 < j → j ≤ decisions → y j = z j) →
    ∀ j, 0 < j → j < t.columns.length → y j = z j

/-- There is one completion, also among the solutions of the tableau that are not whole. -/
def CompletesUniquely (decisions : Nat) (t : Tableau) (x : Assignment) : Prop :=
  ∃ z, Completes decisions t x z ∧ ∀ y, t.Holds y → (∀ j, 0 < j → j ≤ decisions → y j = x j) →
    ∀ j, 0 < j → j < t.columns.length → y j = z j

/-- Where solutions are determined, a completion is the only one. -/
theorem Completes.unique (hz : Completes decisions t x z) (ht : Determined decisions t) :
    CompletesUniquely decisions t x :=
  ⟨z, hz, fun y hy hagrees => ht y z hy hz.holds fun j hpos hj => (hagrees j hpos hj).trans
    (hz.agrees j hpos hj).symm⟩

/-- A tableau over the variables of the slacked program and of some cuts, whose solutions the decision
variables determine, and to which every integer point extends. -/
structure Extensible (p : Program) (cuts : List Cut) (t : Tableau) : Prop where
  relaxes : Relaxes p cuts t
  columns : t.columns.length = p.slacked.variableCount + 1 + cuts.length
  determined : Determined p.decisions t
  completes : ∀ x, p.IntegerFeasible x → ∃ z, Completes p.decisions t x z

/-! What the method starts with. -/

/-- The tableau of the relaxation without cuts is completed by slack values, if those are whole. -/
theorem extensible_of_hasWholeSlacks (hp : p.Accepted) (hslacks : p.HasWholeSlacks) (h : Relaxes p [] t)
    (hcolumns : t.columns.length = p.slacked.variableCount + 1) : Extensible p [] t := by
  have hcount := hp.variableCount_slacked
  refine ⟨h, hcolumns, fun y z hy hz hagrees j hpos hj => ?_, fun x hx => ⟨p.withSlacks x, ?_, ?_, ?_⟩⟩
  · have hytight := ((h.holds_iff y).mp hy).1
    have hztight := ((h.holds_iff z).mp hz).1
    exact hp.eq_of_tight_slacked hytight hztight hagrees hpos (by omega)
  · exact fun _ _ hj => Program.withSlacks_of_le hj
  · exact fun _ hpos _ => hslacks x hx _ hpos
  · exact (h.holds_iff _).mpr ⟨hp.tight_withSlacks hx.1, fun _ hc => by cases hc⟩

/-- In particular that of an integral program. -/
theorem extensible_start (hp : p.Accepted) (hintegral : p.IsIntegral) (h : Relaxes p [] t)
    (hcolumns : t.columns.length = p.slacked.variableCount + 1) : Extensible p [] t :=
  extensible_of_hasWholeSlacks hp (hp.hasWholeSlacks hintegral) h hcolumns

/-! The operations of the method. -/

/-- A completion goes on beyond a cut by the surplus of the cut. -/
theorem Completes.appendCut (hz : Completes p.decisions t x z) (h : Relaxes p cuts t)
    (hr : t.rows[i]? = some r) (ha : t.appendRow (Cut.ofRow v r.values).row = .ok after) :
    Completes p.decisions after x (Function.update z t.columns.length (Cut.surplus r z)) := by
  have hmem := List.mem_of_getElem? hr
  have hlength := h.wellFormed.rectangular r hmem
  refine ⟨fun j hpos hj => ?_, fun j hpos hj => ?_, h.holds_update_surplus hr ha hz.holds⟩
  · rw [Function.update_of_ne (hj.trans_lt h.decisions).ne]
    exact hz.agrees j hpos hj
  · rw [Tableau.length_columns_appendRow ha] at hj
    rcases Nat.lt_succ_iff_lt_or_eq.mp hj with hlt | rfl
    · rw [Function.update_of_ne hlt.ne]
      exact hz.whole j hpos hlt
    · rw [Function.update_self]
      exact Cut.isWhole_surplus (hz.holds r hmem) fun j hpos hj => hz.whole j hpos (hlength ▸ hj)

/-- Behind a cut the surplus determines its variable. -/
theorem Determined.appendCut (ht : Determined p.decisions t) (h : Relaxes p cuts t)
    (hr : t.rows[i]? = some r) (ha : t.appendRow (Cut.ofRow v r.values).row = .ok after) :
    Determined p.decisions after := by
  intro y z hy hz hagrees j hpos hj
  obtain ⟨hyfront, hysurplus⟩ := (h.holds_appendCut_iff hr ha y).mp hy
  obtain ⟨hzfront, hzsurplus⟩ := (h.holds_appendCut_iff hr ha z).mp hz
  have hfront := ht y z hyfront hzfront hagrees
  have hlength := h.wellFormed.rectangular r (List.mem_of_getElem? hr)
  rw [Tableau.length_columns_appendRow ha] at hj
  rcases Nat.lt_succ_iff_lt_or_eq.mp hj with hlt | rfl
  · exact hfront j hpos hlt
  · rw [hysurplus, hzsurplus]
    exact Cut.surplus_congr fun j hpos hj => hfront j hpos (hlength ▸ hj)

/-- Tableaus of the same relaxation with as many columns are extensible together. -/
theorem Extensible.of_relaxes (h : Extensible p cuts t) (h' : Relaxes p cuts t')
    (hcolumns : t'.columns = t.columns) : Extensible p cuts t' := by
  have hholds : ∀ x, t'.Holds x ↔ t.Holds x := fun x => (h'.holds_iff x).trans (h.relaxes.holds_iff x).symm
  refine ⟨h', hcolumns ▸ h.columns, fun y z hy hz hagrees => ?_, fun x hx => ?_⟩
  · rw [hcolumns]
    exact h.determined y z ((hholds y).mp hy) ((hholds z).mp hz) hagrees
  · obtain ⟨z, hz⟩ := h.completes x hx
    exact ⟨z, hz.agrees, hcolumns ▸ hz.whole, (hholds z).mpr hz.holds⟩

/-- The operations of the method keep the completions. -/
theorem kept_extensible (p : Program) : Kept (Extensible p) where
  appendCut h hr ha := by
    refine ⟨h.relaxes.appendCut hr ha, ?_, h.determined.appendCut h.relaxes hr ha, fun x hx => ?_⟩
    · rw [Tableau.length_columns_appendRow ha, h.columns, List.length_append, List.length_singleton]
      rfl
    · obtain ⟨z, hz⟩ := h.completes x hx
      exact ⟨_, hz.appendCut h.relaxes hr ha⟩
  record h hrecord := by
    refine h.of_relaxes (h.relaxes.record hrecord) ?_
    obtain ⟨-, rfl⟩ := Tableau.record_eq_ok_iff.mp hrecord
    rfl
  restore h hleaving hrestore :=
    h.of_relaxes (h.relaxes.restore (of_leavingRow? hleaving).1 hrestore) (columns_restore hrestore).2

/-! The end of a run. -/

/-- A row with whole coefficients and a fractional right-hand side leaves no integer point. -/
theorem Extensible.not_integerFeasible {source : Source} (h : Extensible p cuts t)
    (hsource : source? t decisions = some source)
    (hwhole : ∀ r, t.rows[source.row]? = some r → ∀ q ∈ r.values.tail, IsWhole q) :
    ¬ ∃ x, p.IntegerFeasible x := by
  rintro ⟨x, hx⟩
  obtain ⟨z, hz⟩ := h.completes x hx
  have hwell := h.relaxes.wellFormed
  obtain ⟨hrow, hvalue, hfraction⟩ := of_source? hsource
  obtain ⟨r, hr, -⟩ := (hwell.rowOf?_variableName.mp hrow).exists_row
  have hmem := List.mem_of_getElem? hr
  have hlength : r.values.tail.length + 1 = t.columns.length := by
    rw [List.length_tail, hwell.rectangular r hmem, Nat.sub_add_cancel hwell.nonempty]
  have hleft : IsWhole (weigh z 1 r.values.tail) :=
    isWhole_weigh (fun j hpos hj => hz.whole j hpos (by omega)) (hwhole r hr)
  have hequation : weigh z 1 r.values.tail = r.bound := hz.holds r hmem
  rw [hequation, Row.bound, ← Tableau.entry_of_getElem? hr, ← hvalue] at hleft
  rw [Source.fraction, truncate_of_isWhole hleft, sub_self] at hfraction
  exact lt_irrefl 0 hfraction

/-- A run that finds no fractional coefficient on an extensible tableau shows that there is no integer point. -/
theorem Extensible.not_integerFeasible_of_solve {d : Derivation} (h : Extensible p [] t)
    (hsolve : solve p.decisions limit t = some d) (hending : d.ending = .failed (.noFractionalCoefficient i)) :
    ¬ ∃ x, p.IntegerFeasible x := by
  obtain ⟨⟨moves, ending⟩, hrun, rfl⟩ := Option.map_eq_some_iff.mp hsolve
  obtain rfl : ending = .failed (.noFractionalCoefficient i) := hending
  obtain ⟨front, last, s, hreach, hdone, -⟩ := exists_reaches_of_run hrun
  obtain ⟨source, hsource, rfl, hwhole⟩ := turn_eq_noFractionalCoefficient hdone
  exact ((kept_extensible p).reaches h hreach).1.not_integerFeasible hsource hwhole

/-- In the optimal tableau of an integral program, and in every tableau that any number of turns show behind some
cuts, each integer point has one completion over the decision, slack and cut variables, and it is whole. The
turns need not end; if they do, they have shown what the record holds, and if they end for want of a fractional
coefficient, there is no integer point. -/
theorem completesUniquely_of_solved {rule : Pricing} {d : Simplex.Derivation} (hp : p.Accepted)
    (hintegral : p.IsIntegral) (hsimplex : Simplex.solve rule limit p = some (.ok d))
    (hd : d.ending = .solved t) :
    (∀ x, p.IntegerFeasible x →
      (t.columns.length = d.form.slacked.variableCount + 1 ∧ CompletesUniquely p.decisions t x) ∧
      ∀ limit' front a back, applicationsWithin p.decisions limit' t = front ++ a :: back → ∀ step ∈ a.steps,
        step.tableau.columns.length = d.form.slacked.variableCount + 1 + (front.length + 1) ∧
          CompletesUniquely p.decisions step.tableau x) ∧
    ∀ limit' c, solve p.decisions limit' t = some c →
      c.applications = applicationsWithin p.decisions limit' t ∧
      ∀ i, c.ending = .failed (.noFractionalCoefficient i) → ¬ ∃ x, p.IntegerFeasible x := by
  obtain ⟨-, hcolumns, -⟩ := Simplex.wellFormed_of_solved hp hsimplex hd
  have hstart := extensible_start hp hintegral (relaxes_of_solved hp hsimplex hd) hcolumns
  rw [Simplex.form_of_solve hp hsimplex]
  refine ⟨fun x hx => ⟨⟨hcolumns, ?_⟩, fun limit' front a back happlications step hstep => ?_⟩,
    fun limit' c hc => ⟨applications_eq_applicationsWithin hc, fun i => hstart.not_integerFeasible_of_solve hc⟩⟩
  · obtain ⟨z, hz⟩ := hstart.completes x hx
    exact hz.unique hstart.determined
  · have hshown := (kept_extensible p).movesWithin hstart p.decisions limit'
    have h := hshown _ (mem_shown_of_applications happlications hstep)
    obtain ⟨z, hz⟩ := h.completes x hx
    refine ⟨?_, hz.unique h.determined⟩
    rw [h.columns, List.length_append, List.length_map, List.length_singleton]

/-- Twice a variable is at most three. -/
def halves : Program := ⟨.maximize, [1], [], [], [⟨[2], .le, 3⟩]⟩

theorem integerFeasible_halves : halves.IntegerFeasible fun _ => 1 := by
  refine ⟨⟨fun _ _ _ => by norm_num, fun c hc => ?_⟩, fun _ _ _ => rfl⟩
  rw [List.mem_singleton.mp hc]
  norm_num [Constraint.Holds, Relation.Holds, Constraint.left, weigh]

/-- A variable that a cut makes whole, beside one that is half of a whole number. -/
def uneven : Program := ⟨.maximize, [1, 0], [], [], [⟨[3, 0], .le, 2⟩, ⟨[0, 2], .eq, 1⟩]⟩

/-- A program on which cut after cut is made. -/
def narrow : Program := ⟨.minimize, [2, 0], [], [], [⟨[3, -4], .ge, 3⟩, ⟨[-2, -3], .le, -4⟩]⟩

/-- A whole point of it. -/
def narrowPoint : Assignment := fun j => if j = 1 then 3 else 1

theorem integerFeasible_narrow : narrow.IntegerFeasible narrowPoint := by
  refine ⟨⟨fun j _ _ => ?_, fun c hc => ?_⟩, fun j _ _ => ?_⟩
  · unfold narrowPoint
    split <;> norm_num
  · rcases List.mem_pair.mp hc with rfl | rfl <;>
      norm_num [Constraint.Holds, Relation.Holds, Constraint.left, weigh, narrowPoint]
  · unfold narrowPoint
    split <;> rfl

/-- The first run ends without a failure, the second one for want of a fractional coefficient, the third one has
not ended. -/
theorem completesUniquely_narrow :
    (∃ c, derivation? .steepest 2 4 halves = some c ∧ c.tableaus.length = 2 ∧
      ∀ a ∈ c.applications, ∀ step ∈ a.steps,
        CompletesUniquely halves.decisions step.tableau fun _ => 1) ∧
    (∃ c, derivation? .steepest 4 8 uneven = some c ∧ c.tableaus.length = 2 ∧
      c.ending = .failed (.noFractionalCoefficient 1) ∧ ¬ ∃ x, uneven.IntegerFeasible x) ∧
    ∃ t, Simplex.result? .steepest 8 narrow = some t ∧ (solve narrow.decisions 6 t).isNone ∧
      (applicationsWithin narrow.decisions 6 t).length = 3 ∧
      ∀ a ∈ applicationsWithin narrow.decisions 6 t, ∀ step ∈ a.steps,
        CompletesUniquely narrow.decisions step.tableau narrowPoint := by
  have hhalves : (derivation? .steepest 2 4 halves).any (fun c => decide (c.tableaus.length = 2)) = true := by
    decide +kernel
  have huneven : (derivation? .steepest 4 8 uneven).any (fun c => decide (c.tableaus.length = 2 ∧
      c.ending = .failed (.noFractionalCoefficient 1))) = true := by decide +kernel
  have hnarrow : (Simplex.result? .steepest 8 narrow).any (fun t => decide (
      (solve narrow.decisions 6 t).isNone ∧ (applicationsWithin narrow.decisions 6 t).length = 3)) = true := by
    decide +kernel
  obtain ⟨c, hc, hshown⟩ := (Option.any_eq_true _ _).mp hhalves
  obtain ⟨c', hc', hfailed⟩ := (Option.any_eq_true _ _).mp huneven
  obtain ⟨t, ht, hunended⟩ := (Option.any_eq_true _ _).mp hnarrow
  obtain ⟨hshown', hending'⟩ := of_decide_eq_true hfailed
  obtain ⟨hnone, hcuts⟩ := of_decide_eq_true hunended
  refine ⟨⟨c, hc, of_decide_eq_true hshown, fun a ha step hstep => ?_⟩, ⟨c', hc', hshown', hending', ?_⟩,
    t, ht, hnone, hcuts, fun a ha step hstep => ?_⟩
  · obtain ⟨d, t, hd, hending, hcutting⟩ := derivation?_eq_some_iff.mp hc
    obtain ⟨front, back, happlications⟩ := List.append_of_mem ha
    have hpoints := completesUniquely_of_solved (p := halves) rfl (by decide) hd hending
    rw [(hpoints.2 4 c hcutting).1] at happlications
    exact ((hpoints.1 _ integerFeasible_halves).2 4 front a back happlications step hstep).2
  · obtain ⟨d, t, hd, hending, hcutting⟩ := derivation?_eq_some_iff.mp hc'
    exact ((completesUniquely_of_solved (p := uneven) rfl (by decide) hd hending).2 8 c' hcutting).2 1 hending'
  · obtain ⟨d, hd, hending⟩ := Simplex.outcome_eq_some_iff.mp (Simplex.result?_eq_some_iff.mp ht)
    obtain ⟨front, back, happlications⟩ := List.append_of_mem ha
    have hpoints := completesUniquely_of_solved (p := narrow) rfl (by decide) hd hending
    exact ((hpoints.1 _ integerFeasible_narrow).2 6 front a back happlications step hstep).2

end ExactSimplex.Cutting
