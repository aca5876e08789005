import ExactSimplex.Text.Blank
import ExactSimplex.Text.Split

/-!
# The written form of rational numbers

A number is read from an integer (`-3`), a fraction (`7/2`) or a finite decimal (`0.25`, `-.5`, `4.`),
each with at most one sign in front, and written in lowest terms, as an integer where possible.
Blanks are ignored at both ends of the text and on both sides of the fraction bar.
-/

namespace ExactSimplex

/-- Why a text is not the written form of a number. The text is given without the blanks at its ends. -/
inductive NumeralError
  /-- The text is no integer, fraction or decimal. -/
  | malformed (text : String)
  /-- The text is a fraction whose denominator is zero. -/
  | zeroDenominator (text : String)
  deriving DecidableEq, Repr

/-- The message quotes the text as it is. -/
def NumeralError.message : NumeralError → String
  | .malformed text => "\"" ++ text ++ "\" is not a number"
  | .zeroDenominator text => "\"" ++ text ++ "\" has a zero denominator"

namespace Numeral

open Text

/-- One or more decimal digits, as a number. -/
def natural? (cs : List Char) : Option Nat :=
  if cs ≠ [] ∧ cs.all Char.isDigit = true then some (Nat.ofDigitChars 10 cs 0) else none

/-- Takes at most one sign from the front: whether it was a minus, and what follows it. -/
def takeSign : List Char → Bool × List Char
  | '-' :: cs => (true, cs)
  | '+' :: cs => (false, cs)
  | cs => (false, cs)

/-- An optionally signed run of digits. -/
def integer? (cs : List Char) : Option Int :=
  let (negative, digits) := takeSign cs
  (natural? digits).map fun n : Nat => if negative then -(n : Int) else n

/-- There must be fewer digits than this behind a point. -/
def placeLimit : Nat := 0x100000000

/-- An optionally signed run of digits, among or around which one point may stand. -/
def decimal? (cs : List Char) : Option Rat :=
  let (negative, unsigned) := takeSign cs
  let (whole, fraction) := (splitOnce '.' unsigned).getD (unsigned, [])
  if fraction.length < placeLimit then
    (natural? (whole ++ fraction)).map fun n : Nat =>
      mkRat (if negative then -(n : Int) else n) (Nat.pow 10 fraction.length)
  else none

/-- Reads a number. A text with a fraction bar is a fraction of two integers, any other a decimal. -/
def read (text : String) : Except NumeralError Rat :=
  let cs := trim text.toList
  match splitOnce '/' cs with
  | none =>
    match decimal? cs with
    | some q => .ok q
    | none => .error (.malformed (String.ofList cs))
  | some (numerator, denominator) =>
    match integer? (trim numerator), integer? (trim denominator) with
    | some n, some d =>
      if d = 0 then .error (.zeroDenominator (String.ofList cs)) else .ok (Rat.divInt n d)
    | _, _ => .error (.malformed (String.ofList cs))

/-- Writes a number in lowest terms; the denominator is left out when it is one. -/
def write (q : Rat) : String :=
  if q.den = 1 then toString q.num else toString q.num ++ "/" ++ toString q.den

example : (read " -6/ 4 ").map write = .ok "-3/2" := by rfl

example : (read "+.50").map write = .ok "1/2" := by rfl

example : read "1/-0" = .error (.zeroDenominator "1/-0") := by rfl

end Numeral

end ExactSimplex
