import ExactSimplex.Cost.Text
import ExactSimplex.Proofs.Number.RoundTrip

/-!
# Written costs read back

The written form of a cost is split at the letter `M`. What stands in front tells the penalty: nothing at all stands
for one and a lone minus for minus one, an integer stands as it is and any other number in brackets. What follows tells
the finite part: nothing for zero, otherwise the absolute value behind its sign. A text without `M` is a finite cost.
-/

namespace ExactSimplex.Cost

open Numeral Text

/-! Reading. -/

/-- The number that a text is read as. -/
def number? (cs : List Char) : Option Rat := (Numeral.read (String.ofList cs)).toOption

/-- The penalty that the text in front of `M` tells. -/
def penalty? : List Char → Option Rat
  | [] => some 1
  | ['-'] => some (-1)
  | '(' :: cs => if cs.getLast? = some ')' then number? cs.dropLast else none
  | cs => (integer? cs).map fun n : Int => (n : Rat)

/-- The finite part that the text behind `M` tells. -/
def finite? : List Char → Option Rat
  | [] => some 0
  | ' ' :: '+' :: ' ' :: cs => number? cs
  | ' ' :: '-' :: ' ' :: cs => (number? cs).map fun f => -f
  | _ => none

/-- The cost that a text is read as. -/
def read? (text : String) : Option Cost :=
  match splitOnce 'M' text.toList with
  | none => (number? text.toList).map ofRat
  | some (front, back) => (penalty? front).bind fun penalty => (finite? back).map fun finite => ⟨penalty, finite⟩

/-! Written parts. -/

variable {cs : List Char} {c : Cost}

theorem number?_write (q : Rat) : number? (write q).toList = some q := by
  rw [number?, String.ofList_toList, read_write]
  rfl

/-- The letter `M` does not occur in a number. -/
theorem letter_not_mem_write (q : Rat) : 'M' ∉ (write q).toList := by
  intro h
  rcases of_mem_write h with hdigit | heq | heq
  · cases hdigit
  · cases heq
  · cases heq

/-- Digits and signs make up an integer, with a digit among them. -/
theorem of_isInteger {n : Int} (h : IsInteger cs n) :
    (∃ c ∈ cs, c.isDigit = true) ∧ ∀ c ∈ cs, c.isDigit = true ∨ c = '-' ∨ c = '+' := by
  obtain ⟨s, hne, hdigits⟩ := h
  constructor
  · obtain ⟨c, hc⟩ := List.exists_mem_of_ne_nil _ hne
    exact ⟨c, List.mem_append_right _ hc, hdigits c hc⟩
  · intro c hc
    rcases List.mem_append.mp hc with hc | hc
    · cases s <;> simp_all [Sign.text]
    · exact .inl (hdigits c hc)

/-- An integer in front of `M` is the penalty. -/
theorem penalty?_of_isInteger {n : Int} (h : IsInteger cs n) : penalty? cs = some (n : Rat) := by
  obtain ⟨⟨c, hc, hdigit⟩, hall⟩ := of_isInteger h
  unfold penalty?
  split
  · cases hc
  · cases List.mem_singleton.mp hc
    cases hdigit
  · rcases hall '(' List.mem_cons_self with hbracket | hbracket | hbracket
    all_goals cases hbracket
  · rw [integer?_eq_some_iff.mpr h, Option.map_some]

/-- The penalty stands in front of `M`. -/
theorem exists_penaltyText (p : Rat) :
    ∃ front, (penaltyText p).toList = front ++ ['M'] ∧ 'M' ∉ front ∧ penalty? front = some p := by
  unfold penaltyText
  split
  · rename_i hone
    exact ⟨[], rfl, List.not_mem_nil, hone ▸ rfl⟩
  · split
    · rename_i hminus
      exact ⟨['-'], rfl, by decide, hminus ▸ rfl⟩
    · split
      · rename_i hwhole
        have hinteger := isInteger_toString_int p.num
        rw [← write_of_isWhole hwhole] at hinteger
        refine ⟨(write p).toList, String.toList_append, letter_not_mem_write p, ?_⟩
        rw [penalty?_of_isInteger hinteger, Rat.coe_int_num_of_den_eq_one hwhole]
      · refine ⟨'(' :: ((write p).toList ++ [')']), ?_, ?_, ?_⟩
        · simp
        · simp [letter_not_mem_write]
        · simp [penalty?, number?_write]

/-- Behind `M` the finite part stands with its sign set apart. -/
theorem finite?_finiteText (f : Rat) : finite? (finiteText f).toList = some f := by
  unfold finiteText
  split
  · rw [String.toList_append]
    exact number?_write f
  · split
    · rw [String.toList_append]
      have hneg : finite? (" - ".toList ++ (write (-f)).toList) = (number? (write (-f)).toList).map fun f => -f := rfl
      rw [hneg, number?_write, Option.map_some, neg_neg]
    · rename_i hnonpos hnonneg
      rw [le_antisymm (not_lt.mp hnonpos) (not_lt.mp hnonneg)]
      rfl

/-- The letter `M` does not occur in the finite part. -/
theorem letter_not_mem_finiteText (f : Rat) : 'M' ∉ (finiteText f).toList := by
  unfold finiteText
  split
  · simp [letter_not_mem_write]
  · split
    · simp [letter_not_mem_write]
    · simp

theorem text_of_isFinite (hc : c.IsFinite) : c.text = write c.finite := if_pos hc

theorem text_of_not_isFinite (hc : ¬ c.IsFinite) : c.text = penaltyText c.penalty ++ finiteText c.finite := if_neg hc

/-- A cost with a multiple of `M` has its penalty in front of the letter and its finite part behind it. -/
theorem exists_text_of_not_isFinite (hc : ¬ c.IsFinite) : ∃ front back, c.text.toList = front ++ 'M' :: back ∧
    'M' ∉ front ∧ 'M' ∉ back ∧ penalty? front = some c.penalty ∧ finite? back = some c.finite := by
  obtain ⟨front, htext, hfront, hpenalty⟩ := exists_penaltyText c.penalty
  refine ⟨front, (finiteText c.finite).toList, ?_, hfront, letter_not_mem_finiteText _, hpenalty,
    finite?_finiteText _⟩
  rw [text_of_not_isFinite hc, String.toList_append, htext, List.append_assoc]
  rfl

/-- What is written for a cost is read as the cost. -/
theorem read?_text (c : Cost) : read? c.text = some c := by
  unfold read?
  by_cases hc : c.IsFinite
  · rw [text_of_isFinite hc, splitOnce_eq_none_iff.mpr (letter_not_mem_write _)]
    dsimp only
    rw [number?_write, Option.map_some]
    exact congrArg some (Cost.ext hc.symm rfl)
  · obtain ⟨front, back, htext, hfront, -, hpenalty, hfinite⟩ := exists_text_of_not_isFinite hc
    rw [splitOnce_eq_some_iff.mpr ⟨htext, hfront⟩]
    dsimp only
    rw [hpenalty, hfinite, Option.bind_some, Option.map_some]

/-- The written form of a cost is unambiguous: costs that are written alike are the same, and the cost is read back
from the text. The text of a finite cost is that of a number and has no `M`. In any other text the letter stands once;
what is in front of it tells the penalty, and what is behind it the finite part. -/
theorem text_unambiguous (a b : Cost) : (a.text = b.text → a = b) ∧ read? a.text = some a ∧
    (a.IsFinite → 'M' ∉ a.text.toList ∧ number? a.text.toList = some a.finite) ∧
    (¬ a.IsFinite → ∃ front back, a.text.toList = front ++ 'M' :: back ∧ 'M' ∉ front ∧ 'M' ∉ back ∧
      penalty? front = some a.penalty ∧ finite? back = some a.finite) := by
  refine ⟨fun h => ?_, read?_text a, fun hfinite => ?_, exists_text_of_not_isFinite⟩
  · have hread := read?_text a
    rw [h, read?_text b] at hread
    exact (Option.some.inj hread).symm
  · rw [text_of_isFinite hfinite]
    exact ⟨letter_not_mem_write _, number?_write _⟩

theorem text_unambiguous_halves : text ⟨-1 / 2, -5 / 2⟩ = "(-1/2)M - 5/2" ∧
    read? "(-1/2)M - 5/2" = some ⟨-1 / 2, -5 / 2⟩ ∧ ¬ (⟨-1 / 2, -5 / 2⟩ : Cost).IsFinite ∧
    ∃ front back, "(-1/2)M - 5/2".toList = front ++ 'M' :: back ∧ penalty? front = some (-1 / 2) ∧
      finite? back = some (-5 / 2) := by
  have htext : text ⟨-1 / 2, -5 / 2⟩ = "(-1/2)M - 5/2" := by decide +kernel
  have hnot : ¬ (⟨-1 / 2, -5 / 2⟩ : Cost).IsFinite := by decide +kernel
  obtain ⟨-, hread, -, hparts⟩ := text_unambiguous ⟨-1 / 2, -5 / 2⟩ 0
  obtain ⟨front, back, hsplit, -, -, hpenalty, hfinite⟩ := hparts hnot
  exact ⟨htext, htext ▸ hread, hnot, front, back, htext ▸ hsplit, hpenalty, hfinite⟩

end ExactSimplex.Cost
