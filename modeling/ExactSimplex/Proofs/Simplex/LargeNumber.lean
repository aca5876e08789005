import ExactSimplex.Proofs.Algebra.LargeNumber
import ExactSimplex.Proofs.Lockstep
import ExactSimplex.Proofs.Simplex.Record

/-!
# Sufficiently large numbers for the large constant

A tableau can be computed in numbers, with a number in place of `M`. The reduced costs are then the numbers
that the reduced costs become, for any number. From some number on, the optimality test and the pricing
rules answer as they do with the symbolic constant, as only the signs of finitely many costs and of their
differences matter.
-/

namespace ExactSimplex

open Filter

variable {t : Tableau} {m : Rat} {j k : Nat}

/-! Costs in numbers. -/

/-- The cost of an artificial variable when `m` is put for `M`. -/
def Sense.artificialCostAt (m : Rat) : Sense → Rat
  | .maximize => -m
  | .minimize => m

theorem Sense.valueAt_artificialCost (s : Sense) (m : Rat) :
    Cost.valueAt m s.artificialCost = s.artificialCostAt m := by
  rw [Cost.valueAt_apply]
  cases s <;> simp [artificialCost, artificialCostAt, Cost.large]

namespace Program

/-- The costs of all variables, in order, when `m` is put for `M`. -/
def costsAt (p : Program) (m : Rat) : List Rat :=
  p.objective ++ List.replicate p.slacks 0 ++ List.replicate p.artificials (p.sense.artificialCostAt m)

/-- Where the appended variables have the costs that belong to them, each cost becomes the cost in numbers. -/
theorem Priced.map_valueAt_costs {p : Program} (h : p.Priced) (m : Rat) :
    p.costs.map (Cost.valueAt m) = p.costsAt m := by
  have hfinite : (Cost.valueAt m) ∘ Cost.ofRat = id := funext fun q => Cost.valueAt_ofRat m q
  rw [costs, costsAt, List.map_append, List.map_append, List.map_map, List.map_map, hfinite, List.map_id,
    List.map_id, h.slackCosts_eq, h.artificialCosts_eq, List.map_replicate, Sense.valueAt_artificialCost]

end Program

/-! A tableau in numbers. -/

namespace Tableau

/-- What the basic variables together cost along column `j`, less the cost of its own variable, in numbers. -/
def reducedCostAt (m : Rat) (t : Tableau) (j : Nat) : Rat :=
  (t.rows.map fun r => r.entry j * Cost.valueAt m r.cost).sum - Cost.valueAt m (t.price j)

/-- The row of reduced costs in numbers. -/
def reducedCostsAt (m : Rat) (t : Tableau) : List Rat :=
  (List.range t.columns.length).map (t.reducedCostAt m)

/-- No variable promises a better objective in numbers. -/
def IsOptimalAt (m : Rat) (t : Tableau) : Prop := ∀ q ∈ (t.reducedCostsAt m).tail, ¬ t.sense.Steeper q 0

end Tableau

namespace Pricing

/-- A number is preferred to another that it is steeper than. -/
def prefersAt (rule : Pricing) (sense : Sense) (a b : Rat) : Bool :=
  match rule with
  | .steepest => decide (sense.Steeper a b)
  | .first => false

/-- The column of the entering variable with its reduced cost, chosen by the numbers. -/
def selectAt (rule : Pricing) (m : Rat) (t : Tableau) : Option (Nat × Rat) :=
  firstBest (rule.prefersAt t.sense)
    (none :: (t.reducedCostsAt m).tail.map fun q => if t.sense.Steeper q 0 then some q else none)

end Pricing

namespace Tableau

/-- The tableau answers in numbers as it does with the symbolic constant. -/
structure AgreesAt (m : Rat) (t : Tableau) : Prop where
  reducedCosts : t.reducedCostsAt m = t.reducedCosts.map (Cost.valueAt m)
  isOptimal : t.IsOptimalAt m ↔ t.IsOptimal
  select : ∀ rule : Pricing,
    rule.selectAt m t = (rule.select t).map fun best => (best.1, Cost.valueAt m best.2)

/-- In numbers the columns have the costs of the variables of a program in which artificial variables cost the
number, and so have the basic variables. -/
structure PricedAt (q : Program) (m : Rat) (t : Tableau) : Prop where
  columns : ∀ j, 0 < j → j < t.columns.length → Cost.valueAt m (t.price j) = (q.costsAt m)[j - 1]?.getD 0
  rows : ∀ i, i < t.rows.length → ∃ j, t.BasicIn i j ∧
    Cost.valueAt m (t.basicCost i) = (q.costsAt m)[j - 1]?.getD 0

/-! Reduced costs. -/

/-- The reduced cost in numbers is the number that the reduced cost becomes. -/
theorem reducedCostAt_eq (m : Rat) (t : Tableau) (j : Nat) :
    t.reducedCostAt m j = Cost.valueAt m (t.reducedCost j) := by
  have hterms : (t.rows.map fun r => r.entry j • r.cost).map (Cost.valueAt m) =
      t.rows.map fun r => r.entry j * Cost.valueAt m r.cost := by
    rw [List.map_map]
    exact List.map_congr_left fun r _ => map_smul (Cost.valueAt m) (r.entry j) r.cost
  rw [reducedCost, map_sub, map_list_sum, hterms, reducedCostAt]

theorem reducedCostsAt_eq (m : Rat) (t : Tableau) :
    t.reducedCostsAt m = t.reducedCosts.map (Cost.valueAt m) := by
  rw [reducedCostsAt, reducedCosts, List.map_map]
  exact List.map_congr_left fun j _ => reducedCostAt_eq m t j

/-! The signs that matter. -/

/-- The signs of the reduced costs and of their differences are those of the numbers. -/
structure SignsAgree (m : Rat) (t : Tableau) : Prop where
  single : ∀ c ∈ t.reducedCosts, (t.sense.Steeper (Cost.valueAt m c) 0 ↔ t.sense.Improving c)
  difference : ∀ a ∈ t.reducedCosts, ∀ b ∈ t.reducedCosts,
    (t.sense.Steeper (Cost.valueAt m a) (Cost.valueAt m b) ↔ t.sense.Improving (a - b))

/-- From some number on, the signs agree. -/
theorem eventually_signsAgree (t : Tableau) : ∀ᶠ m in atTop, t.SignsAgree m := by
  have hsingle : ∀ᶠ m in atTop, ∀ c ∈ {c | c ∈ t.reducedCosts},
      (t.sense.Steeper (Cost.valueAt m c) 0 ↔ t.sense.Improving c) :=
    (eventually_all_finite t.reducedCosts.finite_toSet).mpr fun c _ => t.sense.eventually_steeper_valueAt c
  have hdifference : ∀ᶠ m in atTop, ∀ a ∈ {c | c ∈ t.reducedCosts}, ∀ b ∈ {c | c ∈ t.reducedCosts},
      (t.sense.Steeper (Cost.valueAt m (a - b)) 0 ↔ t.sense.Improving (a - b)) :=
    (eventually_all_finite t.reducedCosts.finite_toSet).mpr fun a _ =>
      (eventually_all_finite t.reducedCosts.finite_toSet).mpr fun b _ =>
        t.sense.eventually_steeper_valueAt (a - b)
  filter_upwards [hsingle, hdifference] with m hm hm'
  refine ⟨hm, fun a ha b hb => ?_⟩
  rw [← hm' a ha b hb, map_sub, Sense.steeper_sub_iff]

namespace SignsAgree

variable (h : t.SignsAgree m)

include h

theorem isOptimalAt_iff : t.IsOptimalAt m ↔ t.IsOptimal := by
  rw [IsOptimalAt, reducedCostsAt_eq, ← List.map_tail, List.forall_mem_map]
  exact forall₂_congr fun c hc => not_congr (h.single c (List.mem_of_mem_tail hc))

/-- The candidates in numbers are those of the symbolic constant. -/
theorem improvements_eq :
    (none :: (t.reducedCostsAt m).tail.map fun q => if t.sense.Steeper q 0 then some q else none) =
      t.improvements.map (Option.map (Cost.valueAt m)) := by
  rw [improvements, List.map_cons, Option.map_none, reducedCostsAt_eq, ← List.map_tail, List.map_map,
    List.map_map]
  refine congrArg (none :: ·) (List.map_congr_left fun c hc => ?_)
  have hsign := h.single c (List.mem_of_mem_tail hc)
  simp only [Function.comp_apply, hsign]
  split <;> rfl

theorem selectAt_eq (rule : Pricing) :
    rule.selectAt m t = (rule.select t).map fun best => (best.1, Cost.valueAt m best.2) := by
  have hmem : ∀ {c}, some c ∈ t.improvements → c ∈ t.reducedCosts := by
    intro c hc
    obtain ⟨c', hc', heq⟩ := List.mem_map.mp ((List.mem_cons.mp hc).resolve_left (by simp))
    split at heq
    · cases heq
      exact List.mem_of_mem_tail hc'
    · cases heq
  rw [Pricing.selectAt, h.improvements_eq, Pricing.select]
  apply firstBest_map_of_mem
  intro a b ha hb
  cases rule with
  | steepest => exact decide_eq_decide.mpr (h.difference a (hmem ha) b (hmem hb))
  | first => rfl

end SignsAgree

/-- From some number on, a tableau answers as it does with the symbolic constant. -/
theorem eventually_agreesAt (t : Tableau) : ∀ᶠ m in atTop, t.AgreesAt m := by
  filter_upwards [t.eventually_signsAgree] with m h
  exact ⟨reducedCostsAt_eq m t, h.isOptimalAt_iff, h.selectAt_eq⟩

end Tableau

/-! The tableaus of a record. -/

namespace Simplex

variable {rule : Pricing} {limit : Nat} {q p : Program} {t' : Tableau} {d : Derivation}

/-- The tableaus of all steps, and the result if there is one. -/
def Derivation.tableaus (d : Derivation) : List Tableau :=
  d.steps.map (·.tableau) ++
    match d.ending with
    | .solved t => [t]
    | _ => []

/-- A tableau that represents a program has its costs. -/
theorem Represents.pricedAt (h : Represents q t) (m : Rat) : t.PricedAt q m := by
  have hprice : ∀ j, 0 < j → Cost.valueAt m (t.price j) = (q.costsAt m)[j - 1]?.getD 0 := by
    intro j hpos
    rw [Tableau.price_eq h.columns hpos, ← h.priced.map_valueAt_costs, List.getElem?_map]
    cases q.costs[j - 1]? <;> simp
  refine ⟨fun j hpos _ => hprice j hpos, fun i hi => ?_⟩
  obtain ⟨j, hj⟩ := h.wellFormed.basic i hi
  refine ⟨j, hj, ?_⟩
  rw [hj.basicCost_eq, hprice j hj.pos]

/-- So has the result. -/
theorem pricedAt_truncate (ht : Represents p.augmented t) (hfinite : ∀ r ∈ t.rows, ¬ r.IsArtificial)
    (htruncate : t.truncate (firstArtificial p.augmented) = .ok t') (m : Rat) : t'.PricedAt p.augmented m := by
  have hwell := wellFormed_truncate_firstArtificial ht hfinite htruncate
  have hprice : ∀ j, 0 < j → j < t'.columns.length →
      Cost.valueAt m (t'.price j) = (p.augmented.costsAt m)[j - 1]?.getD 0 := by
    intro j hpos hj
    rw [Tableau.length_columns_truncate htruncate] at hj
    rw [Tableau.price_truncate htruncate hj]
    exact (ht.pricedAt m).columns j hpos (hj.trans_le ht.firstArtificial_le)
  refine ⟨hprice, fun i hi => ?_⟩
  obtain ⟨j, hj⟩ := hwell.basic i hi
  refine ⟨j, hj, ?_⟩
  rw [hj.basicCost_eq, hprice j hj.pos hj.lt]

/-- From some number on, all tableaus of a record answer in numbers as they do with the symbolic constant, at the
costs of the augmented program with that number. -/
theorem exists_bound_agreesAt (hp : p.Accepted) (h : solve rule limit p = some (.ok d)) :
    ∃ bound : Rat, ∀ m, bound ≤ m → ∀ t ∈ d.tableaus,
      t.PricedAt d.form.augmented m ∧ t.AgreesAt m := by
  have hform : d.form.augmented = p.augmented := by rw [form_of_solve hp h]
  have hagrees : ∀ᶠ m in atTop, ∀ t ∈ {t | t ∈ d.tableaus}, t.AgreesAt m :=
    (eventually_all_finite d.tableaus.finite_toSet).mpr fun t _ => t.eventually_agreesAt
  obtain ⟨bound, hbound⟩ := eventually_atTop.mp hagrees
  refine ⟨bound, fun m hm t ht => ⟨?_, hbound m hm t ht⟩⟩
  rw [hform]
  rcases List.mem_append.mp ht with hstep | hresult
  · obtain ⟨s, hs, rfl⟩ := List.mem_map.mp hstep
    exact (represents_of_mem_steps hp h hs).pricedAt m
  · cases hending : d.ending with
    | solved t' =>
      rw [hending, List.mem_singleton] at hresult
      obtain ⟨t'', ht'', -, hfinite, htruncate⟩ := exists_of_solve_solved hp h hending
      rw [hresult]
      exact pricedAt_truncate ht'' hfinite htruncate m
    | failed failure =>
      rw [hending] at hresult
      cases hresult
    | fault reason =>
      rw [hending] at hresult
      cases hresult

/-- Two goods that together meet a demand; the row has an artificial variable at the start. -/
def demand : Program := ⟨.minimize, [2, 3], [], [], [⟨[1, 1], .ge, 4⟩]⟩

theorem agreesAt_demand : ∃ d, solve .steepest 2 demand = some (.ok d) ∧ d.tableaus.length = 2 ∧
    ∃ bound : Rat, ∀ m, bound ≤ m → ∀ t ∈ d.tableaus, t.PricedAt d.form.augmented m ∧ t.AgreesAt m := by
  have hrun : (derivation? .steepest 2 demand).any (fun d => decide (d.tableaus.length = 2)) = true := by
    decide +kernel
  obtain ⟨d, hsome, hlength⟩ := (Option.any_eq_true _ _).mp hrun
  have hd := derivation?_eq_some_iff.mp hsome
  exact ⟨d, hd, of_decide_eq_true hlength, exists_bound_agreesAt (p := demand) rfl hd⟩

end Simplex

end ExactSimplex
