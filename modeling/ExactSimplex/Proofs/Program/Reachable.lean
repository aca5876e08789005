import ExactSimplex.Proofs.Program.StandardForm

/-!
# Programs that transformations lead to

A transformation adds as many coefficients to every constraint as it adds variables to the program. However
transformations follow each other, every constraint therefore keeps one coefficient for each variable.
-/

namespace ExactSimplex.Program

variable {p p' : Program} {t : Transformation}

/-- There is a variable and a constraint, and every constraint has one coefficient for each variable. -/
def IsConsistent (p : Program) : Prop :=
  p.objective ≠ [] ∧ p.constraints ≠ [] ∧ ∀ c ∈ p.constraints, c.coefficients.length = p.variableCount

instance (p : Program) : Decidable p.IsConsistent :=
  inferInstanceAs (Decidable (p.objective ≠ [] ∧ p.constraints ≠ [] ∧
    ∀ c ∈ p.constraints, c.coefficients.length = p.variableCount))

/-- The dimensions of an accepted program agree. -/
theorem Accepted.isConsistent (hp : p.Accepted) : p.IsConsistent := by
  obtain ⟨hobjective, hconstraints, hlength, -⟩ := (accepted_iff p).mp hp
  exact ⟨hobjective, hconstraints, fun c hc => (hlength c hc).trans hp.variableCount_eq.symm⟩

/-! What a transformation keeps. -/

theorem IsConsistent.canonicalize (h : p.IsConsistent) : p.canonicalize.IsConsistent := by
  obtain ⟨hobjective, hconstraints, hlength⟩ := h
  refine ⟨hobjective, fun hnil => hconstraints (List.map_eq_nil_iff.mp hnil), fun c hc => ?_⟩
  obtain ⟨c₀, hc₀, rfl⟩ := List.mem_map.mp hc
  exact c₀.length_canonical.trans (hlength c₀ hc₀)

/-- The dimensions agree again when as many variables are counted as columns were appended. -/
theorem IsConsistent.appendColumns {entry : Relation → Option Rat} {count used : Nat} (h : p.IsConsistent)
    (hobjective : p'.objective = p.objective) (hcount : p'.variableCount = p.variableCount + count)
    (hconstraints : p'.constraints = Program.appendColumns entry count used p.constraints) : p'.IsConsistent := by
  refine ⟨hobjective ▸ h.1, ?_, fun c hc => ?_⟩
  · rw [hconstraints, ← List.length_pos_iff, length_appendColumns]
    exact List.length_pos_iff.mpr h.2.1
  · rw [hconstraints] at hc
    obtain ⟨c₀, hc₀, -, -, hlength⟩ := exists_of_mem_appendColumns hc
    rw [hlength, h.2.2 c₀ hc₀, hcount]

theorem IsConsistent.addSlacks {result : Program × Nat} (h : p.IsConsistent)
    (hresult : p.addSlacks = .ok result) : result.1.IsConsistent := by
  obtain ⟨-, rfl⟩ := addSlacks_eq_ok_iff.mp hresult
  refine h.appendColumns rfl ?_ rfl
  simp only [variableCount, decisions, slacks, artificials, List.length_append, List.length_replicate]
  omega

theorem IsConsistent.addArtificials (h : p.IsConsistent) : p.addArtificials.1.IsConsistent := by
  refine h.appendColumns rfl ?_ rfl
  simp only [variableCount, decisions, slacks, artificials, Program.addArtificials, List.length_append,
    List.length_replicate]
  omega

/-- Every transformation keeps the dimensions in agreement. -/
theorem IsConsistent.transform (h : p.IsConsistent) (hp' : p.transform t = .ok p') : p'.IsConsistent := by
  cases t with
  | canonicalize =>
    cases hp'
    exact h.canonicalize
  | addSlacks =>
    obtain ⟨count, hresult⟩ := transform_addSlacks_eq_ok_iff.mp hp'
    exact h.addSlacks hresult
  | addArtificials =>
    cases hp'
    exact h.addArtificials

/-- Every transformation gives the variables that it appends the costs that belong to them. -/
theorem Priced.transform (h : p.Priced) (hp' : p.transform t = .ok p') : p'.Priced := by
  cases t with
  | canonicalize =>
    cases hp'
    exact h.canonicalize
  | addSlacks =>
    obtain ⟨count, hresult⟩ := transform_addSlacks_eq_ok_iff.mp hp'
    exact h.addSlacks hresult
  | addArtificials =>
    cases hp'
    exact h.addArtificials

/-- The dimensions of every program that transformations lead to agree. -/
theorem Reachable.isConsistent (hp : p.Reachable) : p.IsConsistent := by
  induction hp with
  | accepted h => exact h.isConsistent
  | transform t _ h ih => exact ih.transform h

/-- The variables of every program that transformations lead to have the costs that belong to them. -/
theorem Reachable.priced (hp : p.Reachable) : p.Priced := by
  induction hp with
  | accepted h => exact h.priced
  | transform t _ h ih => exact ih.transform h

end ExactSimplex.Program
