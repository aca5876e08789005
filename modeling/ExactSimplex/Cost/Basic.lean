/-!
# Costs with a symbolic large constant

A cost `p M + f` stands for the number it becomes when `M` is larger than anything it is compared with.
Costs are added and scaled part by part, compared by their penalty `p` first, and have the sign of the
first part that is not zero.
-/

namespace ExactSimplex

/-- The value `penalty * M + finite`. -/
structure Cost where
  /-- How many times `M` is contained in the cost. -/
  penalty : Rat
  /-- What remains without the multiples of `M`. -/
  finite : Rat
  deriving DecidableEq, Repr

namespace Cost

/-- A cost without a multiple of `M`. -/
def ofRat (q : Rat) : Cost := ⟨0, q⟩

/-- The large constant `M` itself. -/
def large : Cost := ⟨1, 0⟩

instance : Zero Cost := ⟨⟨0, 0⟩⟩

instance : Add Cost := ⟨fun a b => ⟨a.penalty + b.penalty, a.finite + b.finite⟩⟩

instance : Sub Cost := ⟨fun a b => ⟨a.penalty - b.penalty, a.finite - b.finite⟩⟩

instance : Neg Cost := ⟨fun a => ⟨-a.penalty, -a.finite⟩⟩

instance : SMul Rat Cost := ⟨fun k a => ⟨k * a.penalty, k * a.finite⟩⟩

/-- A penalty decides first; between equal penalties the finite parts do. -/
instance : LT Cost := ⟨fun a b => a.penalty < b.penalty ∨ a.penalty = b.penalty ∧ a.finite < b.finite⟩

instance : LE Cost := ⟨fun a b => a.penalty < b.penalty ∨ a.penalty = b.penalty ∧ a.finite ≤ b.finite⟩

instance (a b : Cost) : Decidable (a < b) :=
  inferInstanceAs (Decidable (a.penalty < b.penalty ∨ a.penalty = b.penalty ∧ a.finite < b.finite))

instance (a b : Cost) : Decidable (a ≤ b) :=
  inferInstanceAs (Decidable (a.penalty < b.penalty ∨ a.penalty = b.penalty ∧ a.finite ≤ b.finite))

/-- A finite cost contains no multiple of `M`. -/
def IsFinite (a : Cost) : Prop := a.penalty = 0

/-- A negative cost is below zero for every sufficiently large `M`. -/
def IsNegative (a : Cost) : Prop := a.penalty < 0 ∨ a.penalty = 0 ∧ a.finite < 0

/-- A positive cost is above zero for every sufficiently large `M`. -/
def IsPositive (a : Cost) : Prop := 0 < a.penalty ∨ a.penalty = 0 ∧ 0 < a.finite

instance (a : Cost) : Decidable a.IsFinite := inferInstanceAs (Decidable (a.penalty = 0))

instance (a : Cost) : Decidable a.IsNegative :=
  inferInstanceAs (Decidable (a.penalty < 0 ∨ a.penalty = 0 ∧ a.finite < 0))

instance (a : Cost) : Decidable a.IsPositive :=
  inferInstanceAs (Decidable (0 < a.penalty ∨ a.penalty = 0 ∧ 0 < a.finite))

@[ext] theorem ext {a b : Cost} (hp : a.penalty = b.penalty) (hf : a.finite = b.finite) : a = b := by
  cases a
  cases b
  simp_all

@[simp] theorem penalty_zero : (0 : Cost).penalty = 0 := rfl

@[simp] theorem finite_zero : (0 : Cost).finite = 0 := rfl

@[simp] theorem penalty_ofRat (q : Rat) : (ofRat q).penalty = 0 := rfl

@[simp] theorem finite_ofRat (q : Rat) : (ofRat q).finite = q := rfl

@[simp] theorem penalty_add (a b : Cost) : (a + b).penalty = a.penalty + b.penalty := rfl

@[simp] theorem finite_add (a b : Cost) : (a + b).finite = a.finite + b.finite := rfl

@[simp] theorem penalty_sub (a b : Cost) : (a - b).penalty = a.penalty - b.penalty := rfl

@[simp] theorem finite_sub (a b : Cost) : (a - b).finite = a.finite - b.finite := rfl

@[simp] theorem penalty_neg (a : Cost) : (-a).penalty = -a.penalty := rfl

@[simp] theorem finite_neg (a : Cost) : (-a).finite = -a.finite := rfl

@[simp] theorem penalty_smul (k : Rat) (a : Cost) : (k • a).penalty = k * a.penalty := rfl

@[simp] theorem finite_smul (k : Rat) (a : Cost) : (k • a).finite = k * a.finite := rfl

end Cost

end ExactSimplex
