/-!
# Binary floating point as rational numbers

A binary64 pattern consists of a sign, an exponent of eleven bits and a fraction of fifty-two bits.
Every finite pattern denotes a rational number exactly. In the other direction, an integer is rounded to
the nearest number with fifty-three significant bits, a tie going to the even neighbour.
-/

namespace ExactSimplex

/-- The fields of a binary64 pattern. -/
structure Binary64 where
  /-- The sign bit. -/
  negative : Bool
  /-- The biased exponent, below `2 ^ 11`. -/
  exponent : Nat
  /-- The stored part of the significand, below `2 ^ 52`. -/
  fraction : Nat
  deriving DecidableEq, Repr

namespace Binary64

/-- The fields of a pattern of sixty-four bits. -/
def ofBits (bits : UInt64) : Binary64 where
  negative := bits >>> 63 = 1
  exponent := ((bits >>> 52) &&& 0x7FF).toNat
  fraction := (bits &&& 0xFFFFFFFFFFFFF).toNat

/-- The number that a pattern denotes. The largest exponent is that of infinities and of no number. -/
def value? (x : Binary64) : Option Rat :=
  if x.exponent = 2047 then none
  else
    let significand := if x.exponent = 0 then x.fraction else 0x10000000000000 + x.fraction
    let scale := max x.exponent 1
    let magnitude : Int := significand * Nat.pow 2 (scale - 1075)
    some (mkRat (if x.negative then -magnitude else magnitude) (Nat.pow 2 (1075 - scale)))

/-- The multiple of `unit` nearest to `n`; of two equally near ones the even multiple. -/
def nearestMultiple (n unit : Nat) : Nat :=
  let down := n / unit
  let rest := n % unit
  if unit < 2 * rest ∨ unit = 2 * rest ∧ down % 2 = 1 then (down + 1) * unit else down * unit

/-- No multiple of the unit is nearer than the one chosen. -/
theorem nearestMultiple_near {n unit : Nat} (h : 0 < unit) :
    2 * n ≤ 2 * nearestMultiple n unit + unit ∧ 2 * nearestMultiple n unit ≤ 2 * n + unit := by
  have hsplit := Nat.div_add_mod n unit
  have hrest := Nat.mod_lt n h
  simp only [nearestMultiple]
  split
  · rw [Nat.add_mul, Nat.one_mul, Nat.mul_comm (n / unit)]
    omega
  · rw [Nat.mul_comm (n / unit)]
    omega

/-- The integer nearest to `n` that has at most fifty-three significant bits. -/
def nearest (n : Int) : Int :=
  n.sign * nearestMultiple n.natAbs (Nat.pow 2 (n.natAbs.log2 - 52))

example : (ofBits 0x3FE0000000000000).value? = some (1 / 2) := by decide +kernel

example : nearestMultiple 5 2 = 4 ∧ nearestMultiple 7 2 = 8 := by decide

end Binary64

end ExactSimplex
