import ExactSimplex.Proofs.Algebra.Cost
import ExactSimplex.Proofs.Program.StandardForm

/-!
# The directions of a program

A direction of a program is a feasible assignment of the program with right-hand sides zero. Every multiple
of a direction leads from a feasible assignment to another one. The standard form of the homogeneous program
is that of the program with right-hand sides zero, except that constraints may be negated.
-/

namespace ExactSimplex

namespace Constraint

variable {c : Constraint} {x d : Assignment} {s : Rat}

/-- The constraint with right-hand side zero. -/
def homogeneous (c : Constraint) : Constraint := { c with bound := 0 }

theorem left_add (c : Constraint) (x d : Assignment) : c.left (x + d) = c.left x + c.left d :=
  weigh_add x d 1 c.coefficients

theorem left_smul (c : Constraint) (s : Rat) (d : Assignment) : c.left (s • d) = s * c.left d :=
  weigh_smul s d 1 c.coefficients

/-- Any multiple of a direction may be added to a solution. -/
theorem Holds.add_smul (hx : c.Holds x) (hd : c.homogeneous.Holds d) (hs : 0 ≤ s) : c.Holds (x + s • d) := by
  change c.relation.Holds (c.left d) 0 at hd
  unfold Holds at hx ⊢
  rw [left_add, left_smul]
  cases hrel : c.relation <;> rw [hrel] at hx hd
  · exact (add_le_of_nonpos_right (mul_nonpos_of_nonneg_of_nonpos hs hd)).trans hx
  · exact hx.trans (le_add_of_nonneg_right (mul_nonneg hs hd))
  · have hzero : c.left d = 0 := hd
    have hbound : c.left x = c.bound := hx
    rw [Relation.Holds, hzero, mul_zero, add_zero, hbound]

/-- As an equation, a constraint leads from one solution to another along the solutions with right-hand side
zero. -/
theorem tight_add_iff (hx : c.Tight x) : c.Tight (x + d) ↔ c.homogeneous.Tight d := by
  unfold Tight at hx ⊢
  rw [left_add, hx, add_eq_left]
  exact Iff.rfl

theorem homogeneous_negate (c : Constraint) : c.negate.homogeneous = c.homogeneous.negate := by
  simp [homogeneous, negate]

/-- Negating both sides changes no direction. -/
theorem holds_homogeneous_canonical : c.canonical.homogeneous.Holds d ↔ c.homogeneous.Holds d := by
  unfold canonical
  split
  · rw [homogeneous_negate]
    exact holds_negate
  · exact Iff.rfl

/-- A right-hand side that is zero is canonical. -/
theorem canonical_homogeneous (c : Constraint) : c.homogeneous.canonical = c.homogeneous :=
  if_neg (lt_irrefl 0)

end Constraint

namespace Program

variable {p q : Program} {x d : Assignment} {s : Rat}

/-- The program with right-hand sides zero. -/
def homogeneous (p : Program) : Program := { p with constraints := p.constraints.map Constraint.homogeneous }

@[simp] theorem decisions_homogeneous (p : Program) : p.homogeneous.decisions = p.decisions := rfl

/-- Any multiple of a direction may be added to a feasible assignment. -/
theorem Feasible.add_smul (hx : p.Feasible x) (hd : p.homogeneous.Feasible d) (hs : 0 ≤ s) :
    p.Feasible (x + s • d) := by
  constructor
  · intro j hpos hj
    exact add_nonneg (hx.1 j hpos hj) (mul_nonneg hs (hd.1 j hpos hj))
  · intro c hc
    exact (hx.2 c hc).add_smul (hd.2 _ (List.mem_map_of_mem hc)) hs

/-- A direction changes the objective by a multiple of what it is worth. -/
theorem objectiveAt_add_smul (p : Program) (x d : Assignment) (s : Rat) :
    p.objectiveAt (x + s • d) = p.objectiveAt x + s * p.objectiveAt d := by
  rw [objectiveAt, weigh_add, weigh_smul, objectiveAt, objectiveAt]

/-- A direction along which the objective becomes better. -/
def IsImprovingDirection (p : Program) (d : Assignment) : Prop :=
  p.homogeneous.Feasible d ∧ p.sense.Better (p.objectiveAt d) 0

/-- Along an improving direction no feasible assignment is the best one. -/
theorem IsImprovingDirection.exists_better (hd : p.IsImprovingDirection d) (hx : p.Feasible x) :
    ∃ y, p.Feasible y ∧ p.sense.Better (p.objectiveAt y) (p.objectiveAt x) := by
  refine ⟨x + (1 : Rat) • d, hx.add_smul hd.1 zero_le_one, ?_⟩
  have hbetter := hd.2
  rw [Sense.better_iff, mul_zero] at hbetter
  rw [objectiveAt_add_smul, Sense.better_iff, mul_add, one_mul]
  exact lt_add_of_pos_right _ hbetter

/-- As equations, the constraints lead from one solution to another along the solutions with right-hand sides
zero. -/
theorem tight_add_iff (hx : q.Tight x) : q.Tight (x + d) ↔ q.homogeneous.Tight d := by
  rw [Tight, Tight, homogeneous, List.forall_mem_map]
  exact forall₂_congr fun c hc => Constraint.tight_add_iff (hx c hc)

/-! The standard form of the homogeneous program. -/

theorem map_homogeneous_appendColumns (entry : Relation → Option Rat) (count used : Nat)
    (cs : List Constraint) :
    (appendColumns entry count used cs).map Constraint.homogeneous =
      appendColumns entry count used (cs.map Constraint.homogeneous) := by
  induction cs generalizing used with
  | nil => rfl
  | cons c cs ih =>
    have hrelation : c.homogeneous.relation = c.relation := rfl
    simp only [List.map_cons, appendColumns, hrelation]
    cases entry c.relation with
    | none => exact congrArg (_ :: ·) (ih used)
    | some v => exact congrArg (_ :: ·) (ih (used + 1))

theorem columnsFor_homogeneous (entry : Relation → Option Rat) (p : Program) :
    p.homogeneous.columnsFor entry = p.columnsFor entry :=
  List.countP_map

/-- The canonical program with right-hand sides zero. -/
def directions (p : Program) : Program := p.canonicalize.homogeneous

theorem canonicalize_directions (p : Program) : p.directions.canonicalize = p.directions := by
  have hmap : p.directions.constraints.map Constraint.canonical = p.directions.constraints := by
    rw [directions, homogeneous, List.map_map]
    exact List.map_congr_left fun c _ => c.canonical_homogeneous
  rw [canonicalize, hmap]

/-- Slack variables are appended alike. -/
theorem slacked_directions (p : Program) : p.directions.slacked = p.slacked.homogeneous := by
  have hcount : p.directions.columnsFor Relation.slack? = p.canonicalize.columnsFor Relation.slack? :=
    columnsFor_homogeneous Relation.slack? p.canonicalize
  rw [slacked, canonicalize_directions, hcount, homogeneous, slacked, map_homogeneous_appendColumns]
  rfl

theorem slacks_directions (p : Program) : p.directions.slacked.slacks = p.slacked.slacks := by
  rw [slacked_directions]
  rfl

/-- Artificial variables are appended alike. -/
theorem augmented_directions (p : Program) : p.directions.augmented = p.augmented.homogeneous := by
  rw [augmented, slacked_directions, addArtificials, columnsFor_homogeneous, augmented, addArtificials,
    homogeneous, homogeneous, map_homogeneous_appendColumns]

/-- The canonical program has the same directions. -/
theorem feasible_directions : p.directions.Feasible d ↔ p.homogeneous.Feasible d := by
  refine and_congr Iff.rfl ?_
  rw [Holds, Holds, directions, homogeneous, homogeneous, canonicalize, List.map_map, List.forall_mem_map,
    List.forall_mem_map]
  exact forall₂_congr fun c _ => Constraint.holds_homogeneous_canonical

section Accepted

variable (hp : p.Accepted)

include hp

theorem Accepted.directions : p.directions.Accepted := by
  obtain ⟨hobjective, hconstraints, -, hslacks, hartificials⟩ := (accepted_iff p).mp hp
  refine (accepted_iff _).mpr ⟨hobjective, ?_, ?_, hslacks, hartificials⟩
  · simpa [Program.directions, homogeneous, canonicalize] using hconstraints
  · intro c hc
    obtain ⟨c', hc', rfl⟩ := List.mem_map.mp hc
    exact hp.length_canonicalize (c := c') hc'

/-- Nonnegative solutions of the augmented equations with right-hand sides zero are directions, if their
artificial variables are zero. -/
theorem Accepted.feasible_homogeneous_of_tight (hnonneg : ∀ j, 0 < j → 0 ≤ d j)
    (hzero : ∀ j, p.decisions + p.slacked.slacks < j → d j = 0) (htight : p.augmented.homogeneous.Tight d) :
    p.homogeneous.Feasible d := by
  rw [← augmented_directions] at htight
  have hslacks := p.slacks_directions
  have hslacked := (hp.directions.tight_augmented_iff fun j hj => hzero j (hslacks ▸ hj)).mp htight
  exact feasible_directions.mp (hp.directions.feasible_of_tight hnonneg hslacked)

/-- A direction extends by slack values to a nonnegative solution of the augmented equations with right-hand
sides zero. -/
theorem Accepted.exists_tight_homogeneous (hd : p.homogeneous.Feasible d) :
    ∃ z : Assignment, (∀ j, 0 < j → 0 ≤ z j) ∧ (∀ j, p.decisions + p.slacked.slacks < j → z j = 0) ∧
      p.augmented.homogeneous.Tight z ∧ p.objectiveAt z = p.objectiveAt d := by
  obtain ⟨z, hnonneg, hzero, htight, hvalue⟩ :=
    hp.directions.exists_tight_augmented (feasible_directions.mpr hd)
  rw [slacks_directions] at hzero
  rw [augmented_directions] at htight
  exact ⟨z, hnonneg, hzero, htight, hvalue⟩

end Accepted

end Program

end ExactSimplex
