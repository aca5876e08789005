import ExactSimplex.Proofs.Program.Homogeneous
import ExactSimplex.Proofs.Tableau.Rank
import Mathlib.Logic.Relation

/-!
# Ways to write a program down

The constraints of a program and its variables may be put into another order, and a constraint may be multiplied
by a positive number or have both sides negated. None of this changes which objective values feasible
assignments attain, nor which ones directions do.
-/

namespace ExactSimplex

open Matrix

variable {n : Nat}

/-- The coefficients of variables in another order: the new variable at place `j` is the one that was at place
`σ j`. -/
def reorder (σ : Equiv.Perm (Fin n)) (as : List Rat) : List Rat := List.ofFn fun j => as[(σ j : Nat)]?.getD 0

@[simp] theorem length_reorder (σ : Equiv.Perm (Fin n)) (as : List Rat) : (reorder σ as).length = n :=
  List.length_ofFn

/-- Coefficients and values in the same order give the same sum. -/
theorem weigh_reorder {σ : Equiv.Perm (Fin n)} {as : List Rat} {x y : Assignment} (hlength : as.length = n)
    (h : firstValues n x = firstValues n y ∘ σ) : weigh x 1 (reorder σ as) = weigh y 1 as := by
  have hcoefficients : (fun j : Fin n => (reorder σ as)[(j : Nat)]?.getD 0) =
      (fun j : Fin n => as[(j : Nat)]?.getD 0) ∘ σ := by
    funext j
    simp [reorder]
  rw [weigh_eq_dotProduct (length_reorder σ as), weigh_eq_dotProduct hlength, hcoefficients, h,
    comp_equiv_dotProduct_comp_equiv]

/-- Whether values are negative does not depend on their order. -/
theorem nonnegative_reorder {σ : Equiv.Perm (Fin n)} {x y : Assignment}
    (h : firstValues n x = firstValues n y ∘ σ) : Nonnegative n x ↔ Nonnegative n y := by
  have hvalues : ∀ z, Nonnegative n z ↔ ∀ i, 0 ≤ firstValues n z i := by
    intro z
    refine ⟨fun hz i => hz (i + 1) (Nat.succ_pos i) i.isLt, fun hz j hpos hj => ?_⟩
    obtain ⟨k, rfl⟩ := Nat.exists_eq_add_of_le' hpos
    exact hz ⟨k, hj⟩
  rw [hvalues, hvalues, h]
  exact (σ.surjective.forall (p := fun i => 0 ≤ firstValues n y i)).symm

namespace Constraint

variable {c : Constraint} {x : Assignment} {k : Rat}

/-- The constraint with both sides multiplied. -/
def scale (k : Rat) (c : Constraint) : Constraint := ⟨c.coefficients.map (k * ·), c.relation, k * c.bound⟩

/-- The constraint with its variables in another order. -/
def reorder (σ : Equiv.Perm (Fin n)) (c : Constraint) : Constraint :=
  { c with coefficients := ExactSimplex.reorder σ c.coefficients }

/-- Multiplying both sides by a positive number changes no solution. -/
theorem holds_scale (hk : 0 < k) : (c.scale k).Holds x ↔ c.Holds x := by
  have hleft : (c.scale k).left x = k * c.left x := weigh_map_mul x k 1 c.coefficients
  rw [Holds, Holds, hleft]
  change c.relation.Holds _ (k * c.bound) ↔ _
  cases c.relation with
  | le => exact mul_le_mul_iff_right₀ hk
  | ge => exact mul_le_mul_iff_right₀ hk
  | eq => exact mul_right_inj' hk.ne'

theorem homogeneous_scale (k : Rat) (c : Constraint) : (c.scale k).homogeneous = c.homogeneous.scale k := by
  simp [homogeneous, scale]

@[simp] theorem length_negate (c : Constraint) : c.negate.coefficients.length = c.coefficients.length :=
  List.length_map _

@[simp] theorem length_scale (k : Rat) (c : Constraint) :
    (c.scale k).coefficients.length = c.coefficients.length :=
  List.length_map _

end Constraint

namespace Program

variable {p p' : Program} {v : Rat}

/-- The program with its variables in another order. -/
def reorder (p : Program) (σ : Equiv.Perm (Fin p.decisions)) : Program :=
  { p with
    objective := ExactSimplex.reorder σ p.objective
    constraints := p.constraints.map (Constraint.reorder σ) }

/-- Some feasible assignment has the objective value. -/
def Attains (p : Program) (v : Rat) : Prop := ∃ x, p.Feasible x ∧ p.objectiveAt x = v

/-- Some direction makes the objective better. -/
def Improves (p : Program) : Prop := ∃ v, p.homogeneous.Attains v ∧ p.sense.Better v 0

theorem improves_iff : p.Improves ↔ ∃ d, p.IsImprovingDirection d := by
  constructor
  · rintro ⟨v, ⟨d, hd, rfl⟩, hbetter⟩
    exact ⟨d, hd, hbetter⟩
  · rintro ⟨d, hd, hbetter⟩
    exact ⟨_, ⟨d, hd, rfl⟩, hbetter⟩

/-- One change of the way in which a program is written down. -/
inductive Rewriting : Program → Program → Prop
  /-- The constraints are put into another order. -/
  | rows {p : Program} {cs : List Constraint} (h : p.constraints.Perm cs) :
      Rewriting p { p with constraints := cs }
  /-- The variables are put into another order. -/
  | columns (p : Program) (σ : Equiv.Perm (Fin p.decisions)) : Rewriting p (p.reorder σ)
  /-- Both sides of a constraint are multiplied by a positive number. -/
  | scale {p : Program} {front back : List Constraint} {c : Constraint} {k : Rat} (hk : 0 < k)
      (h : p.constraints = front ++ c :: back) :
      Rewriting p { p with constraints := front ++ c.scale k :: back }
  /-- Both sides of a constraint are negated, and the relation is flipped. -/
  | negate {p : Program} {front back : List Constraint} {c : Constraint}
      (h : p.constraints = front ++ c :: back) :
      Rewriting p { p with constraints := front ++ c.negate :: back }

/-! Other constraints with the same solutions. -/

/-- Constraints with the same solutions leave the same values to attain. -/
theorem attains_of_holds_iff {cs : List Constraint}
    (h : ∀ x, (∀ c ∈ cs, c.Holds x) ↔ ∀ c ∈ p.constraints, c.Holds x) :
    ({ p with constraints := cs } : Program).Attains v ↔ p.Attains v :=
  exists_congr fun x => and_congr_left fun _ => and_congr_right fun _ => h x

/-- A constraint may be replaced by one with the same solutions. -/
theorem attains_replace {front back : List Constraint} {c c' : Constraint}
    (hsplit : p.constraints = front ++ c :: back) (h : ∀ x, c'.Holds x ↔ c.Holds x) :
    ({ p with constraints := front ++ c' :: back } : Program).Attains v ↔ p.Attains v := by
  refine attains_of_holds_iff fun x => ?_
  rw [hsplit]
  simp only [List.forall_mem_append, List.forall_mem_cons, h x]

/-! Variables in another order. -/

section Reorder

variable (hp : p.Accepted) (σ : Equiv.Perm (Fin p.decisions))

include hp

/-- An assignment in the other order is feasible when the original one is, and has its objective value. -/
theorem feasible_reorder {x y : Assignment} (h : firstValues p.decisions x = firstValues p.decisions y ∘ σ) :
    ((p.reorder σ).Feasible x ↔ p.Feasible y) ∧ (p.reorder σ).objectiveAt x = p.objectiveAt y := by
  have hdecisions : (p.reorder σ).decisions = p.decisions := length_reorder σ p.objective
  have hcount : (p.reorder σ).variableCount = p.variableCount := by
    rw [variableCount, hdecisions]
    rfl
  refine ⟨and_congr ?_ ?_, weigh_reorder rfl h⟩
  · rw [hcount, hp.variableCount_eq]
    exact nonnegative_reorder h
  · rw [Holds, Holds, reorder, List.forall_mem_map]
    refine forall₂_congr fun c hc => ?_
    have hleft : (c.reorder σ).left x = c.left y := weigh_reorder (((accepted_iff p).mp hp).2.2.1 c hc) h
    rw [Constraint.Holds, hleft]
    exact Iff.rfl

/-- The order of the variables does not matter for the values that are attained. -/
theorem attains_reorder : (p.reorder σ).Attains v ↔ p.Attains v := by
  constructor
  · rintro ⟨x, hx, rfl⟩
    have hvalues : firstValues p.decisions x =
        firstValues p.decisions (ofFirstValues (firstValues p.decisions x ∘ σ.symm)) ∘ σ := by
      rw [firstValues_ofFirstValues, Function.comp_assoc, Equiv.symm_comp_self, Function.comp_id]
    obtain ⟨hfeasible, hobjective⟩ := feasible_reorder hp σ hvalues
    exact ⟨_, hfeasible.mp hx, hobjective.symm⟩
  · rintro ⟨y, hy, rfl⟩
    have hvalues : firstValues p.decisions (ofFirstValues (firstValues p.decisions y ∘ σ)) =
        firstValues p.decisions y ∘ σ := firstValues_ofFirstValues _
    obtain ⟨hfeasible, hobjective⟩ := feasible_reorder hp σ hvalues
    exact ⟨_, hfeasible.mpr hy, hobjective⟩

end Reorder

/-! What rewriting keeps. -/

theorem Accepted.homogeneous (hp : p.Accepted) : p.homogeneous.Accepted := by
  obtain ⟨hobjective, hconstraints, hlength, hslacks, hartificials⟩ := (accepted_iff p).mp hp
  refine (accepted_iff _).mpr ⟨hobjective, ?_, ?_, hslacks, hartificials⟩
  · simpa [Program.homogeneous] using hconstraints
  · exact List.forall_mem_map.mpr hlength

/-- A constraint may be replaced by one over the same variables. -/
theorem Accepted.replace {front back : List Constraint} {c c' : Constraint} (hp : p.Accepted)
    (hsplit : p.constraints = front ++ c :: back) (hlength : c'.coefficients.length = c.coefficients.length) :
    ({ p with constraints := front ++ c' :: back } : Program).Accepted := by
  obtain ⟨hobjective, -, hlengths, hslacks, hartificials⟩ := (accepted_iff p).mp hp
  refine (accepted_iff _).mpr ⟨hobjective, by simp, ?_, hslacks, hartificials⟩
  rw [hsplit, List.forall_mem_append, List.forall_mem_cons] at hlengths
  rw [List.forall_mem_append, List.forall_mem_cons, hlength]
  exact hlengths

theorem constraints_homogeneous {front back : List Constraint} {c : Constraint}
    (hsplit : p.constraints = front ++ c :: back) :
    p.homogeneous.constraints =
      front.map Constraint.homogeneous ++ c.homogeneous :: back.map Constraint.homogeneous := by
  rw [Program.homogeneous, hsplit, List.map_append, List.map_cons]

namespace Rewriting

theorem sense_eq (h : Rewriting p p') : p'.sense = p.sense := by
  cases h <;> rfl

theorem accepted (h : Rewriting p p') (hp : p.Accepted) : p'.Accepted := by
  obtain ⟨hobjective, hconstraints, hlength, hslacks, hartificials⟩ := (accepted_iff p).mp hp
  cases h with
  | rows hperm =>
    refine (accepted_iff _).mpr ⟨hobjective, ?_, fun c hc => hlength c (hperm.mem_iff.mpr hc), hslacks,
      hartificials⟩
    exact fun hnil => hconstraints (List.perm_nil.mp (hnil ▸ hperm))
  | columns σ =>
    refine (accepted_iff _).mpr ⟨?_, ?_, ?_, hslacks, hartificials⟩
    · intro hnil
      have hcount := congrArg List.length hnil
      rw [reorder, length_reorder] at hcount
      exact hobjective (List.length_eq_zero_iff.mp hcount)
    · simpa [reorder] using hconstraints
    · intro c hc
      obtain ⟨c', -, rfl⟩ := List.mem_map.mp hc
      rw [reorder, length_reorder]
      exact length_reorder σ c'.coefficients
  | scale hk hsplit => exact hp.replace hsplit (Constraint.length_scale _ _)
  | negate hsplit => exact hp.replace hsplit (Constraint.length_negate _)

/-- The same values are attained. -/
theorem attains_iff (h : Rewriting p p') (hp : p.Accepted) : p'.Attains v ↔ p.Attains v := by
  cases h with
  | rows hperm => exact attains_of_holds_iff fun x => forall_congr' fun c => by rw [hperm.mem_iff]
  | columns σ => exact attains_reorder hp σ
  | scale hk hsplit => exact attains_replace hsplit fun _ => Constraint.holds_scale hk
  | negate hsplit => exact attains_replace hsplit fun _ => Constraint.holds_negate

/-- The programs with right-hand sides zero arise from each other in the same way. -/
theorem homogeneous (h : Rewriting p p') : Rewriting p.homogeneous p'.homogeneous := by
  -- Each kind of change commutes with setting the right-hand sides to zero.
  cases h with
  | rows hperm => exact .rows (p := p.homogeneous) (hperm.map _)
  | columns σ =>
    have hreorder : (p.reorder σ).homogeneous = p.homogeneous.reorder σ := by
      simp only [Program.homogeneous, reorder, List.map_map]
      rfl
    rw [hreorder]
    exact .columns p.homogeneous σ
  | scale hk hsplit =>
    have hscale := Rewriting.scale hk (constraints_homogeneous hsplit)
    rw [← Constraint.homogeneous_scale, ← List.map_cons, ← List.map_append] at hscale
    exact hscale
  | negate hsplit =>
    have hnegate := Rewriting.negate (constraints_homogeneous hsplit)
    rw [← Constraint.homogeneous_negate, ← List.map_cons, ← List.map_append] at hnegate
    exact hnegate

/-- The same programs have improving directions. -/
theorem improves_iff (h : Rewriting p p') (hp : p.Accepted) : p'.Improves ↔ p.Improves := by
  rw [Improves, Improves, h.sense_eq]
  exact exists_congr fun v => and_congr_left fun _ => h.homogeneous.attains_iff hp.homogeneous

end Rewriting

/-- The second program arises from the first by any number of changes. -/
abbrev Rewritten : Program → Program → Prop := Relation.ReflTransGen Rewriting

end Program

end ExactSimplex
