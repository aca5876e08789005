import ExactSimplex.Proofs.Number.Grammar

/-!
# Written numbers read back

A number is written as an integer, or as a quotient of two integers with a fraction bar between them. The grammar
derives both and assigns the number to them again, so every number has one written form, and all texts that denote it
have that form in common.
-/

namespace ExactSimplex.Numeral

open Text

variable {c : Char} {q : Rat}

/-! Integers. -/

theorem digits_toDigits (n : Nat) : Digits (Nat.toDigits 10 n) :=
  fun _ hc => Nat.isDigit_of_mem_toDigits (by decide) (by decide) hc

/-- The digits of a number denote it. -/
theorem digitsValue_toDigits (n : Nat) : digitsValue (Nat.toDigits 10 n) = n := by
  rw [← ofDigitChars_eq_digitsValue, Nat.ofDigitChars_ten_toDigits]

theorem toList_toString_nat (n : Nat) : (toString n).toList = Nat.toDigits 10 n := Nat.toList_repr

/-- An integer is written as a sign, if it is negative, and the digits of its absolute value. -/
theorem toList_toString_int (n : Int) :
    (toString n).toList = (if n < 0 then Sign.minus else Sign.absent).text ++ Nat.toDigits 10 n.natAbs := by
  cases n with
  | ofNat n =>
    have hn : ¬ Int.ofNat n < 0 := not_lt.mpr (Int.natCast_nonneg n)
    rw [if_neg hn]
    exact Nat.toList_repr
  | negSucc n =>
    have htext : toString (Int.negSucc n) = "-" ++ (n + 1).repr := rfl
    rw [if_pos (Int.negSucc_lt_zero n), htext, String.toList_append, Nat.toList_repr]
    rfl

/-- A natural number is written as an integer. -/
theorem isInteger_toString_nat (n : Nat) : IsInteger (toString n).toList n := by
  have h := IsInteger.mk .absent Nat.toDigits_ne_nil (digits_toDigits n)
  rw [digitsValue_toDigits] at h
  rw [toList_toString_nat]
  simpa [Sign.text, Sign.factor] using h

/-- An integer is written as one. -/
theorem isInteger_toString_int (n : Int) : IsInteger (toString n).toList n := by
  have h := IsInteger.mk (if n < 0 then .minus else .absent) Nat.toDigits_ne_nil (digits_toDigits n.natAbs)
  have hvalue : (if n < 0 then Sign.minus else Sign.absent).factor * (n.natAbs : Int) = n := by
    split
    · rename_i hneg
      rw [Sign.factor, Int.ofNat_natAbs_of_nonpos hneg.le]
      ring
    · rename_i hneg
      rw [Sign.factor, Int.natAbs_of_nonneg (not_lt.mp hneg), one_mul]
  rw [digitsValue_toDigits, hvalue, ← toList_toString_int] at h
  exact h

/-- Integers are decimals without a point. -/
theorem IsInteger.isDecimal {cs : List Char} {n : Int} (h : IsInteger cs n) : IsDecimal cs n := by
  obtain ⟨s, hne, hdigits⟩ := h
  have hdecimal := IsDecimal.whole s hne hdigits
  rwa [← Int.cast_natCast, ← Int.cast_mul] at hdecimal

/-! The characters of a written number. -/

theorem of_mem_toString_int {n : Int} (h : c ∈ (toString n).toList) : c.isDigit = true ∨ c = '-' := by
  rw [toList_toString_int] at h
  rcases List.mem_append.mp h with h | h
  · right
    split at h
    · exact List.mem_singleton.mp h
    · cases h
  · exact .inl (digits_toDigits _ c h)

theorem of_mem_toString_nat {n : Nat} (h : c ∈ (toString n).toList) : c.isDigit = true :=
  digits_toDigits n c (toList_toString_nat n ▸ h)

/-- A text without any blanks is left as it is. -/
theorem isTrimmed_self {cs : List Char} (h : ∀ c ∈ cs, isBlank c = false) : IsTrimmed cs cs :=
  isTrimmed_iff.mpr (trim_eq_self (fun c hc => h c (List.mem_of_mem_head? hc))
    fun c hc => h c (List.mem_of_mem_getLast? hc))

theorem isBlank_of_mem_toString_int {n : Int} (h : c ∈ (toString n).toList) : isBlank c = false := by
  rcases of_mem_toString_int h with hdigit | rfl
  · exact isBlank_of_isDigit hdigit
  · decide

theorem isBlank_of_mem_toString_nat {n : Nat} (h : c ∈ (toString n).toList) : isBlank c = false :=
  isBlank_of_isDigit (of_mem_toString_nat h)

theorem bar_not_mem_toString_int (n : Int) : '/' ∉ (toString n).toList := by
  intro h
  rcases of_mem_toString_int h with hdigit | heq
  · cases hdigit
  · cases heq

/-! Written numbers. -/

theorem write_of_isWhole (h : q.den = 1) : (write q).toList = (toString q.num).toList := by
  rw [write, if_pos h]

theorem write_of_not_isWhole (h : q.den ≠ 1) :
    (write q).toList = (toString q.num).toList ++ '/' :: (toString q.den).toList := by
  rw [write, if_neg h, String.toList_append, String.toList_append, List.append_assoc]
  rfl

/-- Digits, minus signs and fraction bars are written. -/
theorem of_mem_write (h : c ∈ (write q).toList) : c.isDigit = true ∨ c = '-' ∨ c = '/' := by
  by_cases hwhole : q.den = 1
  · rw [write_of_isWhole hwhole] at h
    exact (of_mem_toString_int h).imp_right .inl
  · rw [write_of_not_isWhole hwhole] at h
    rcases List.mem_append.mp h with h | h
    · exact (of_mem_toString_int h).imp_right .inl
    · rcases List.mem_cons.mp h with rfl | h
      · exact .inr (.inr rfl)
      · exact .inl (of_mem_toString_nat h)

/-- No blank is written. -/
theorem isTrimmed_write (q : Rat) : IsTrimmed (write q).toList (write q).toList := by
  refine isTrimmed_self fun c hc => ?_
  rcases of_mem_write hc with hdigit | rfl | rfl
  · exact isBlank_of_isDigit hdigit
  · decide
  · decide

/-- The grammar assigns a number to what is written for it. -/
theorem reading_write (q : Rat) : Reading (write q).toList (.ok q) := by
  by_cases h : q.den = 1
  · have hq : (q.num : Rat) = q := Rat.coe_int_num_of_den_eq_one h
    have hdecimal := (isInteger_toString_int q.num).isDecimal
    rw [hq] at hdecimal
    rw [write_of_isWhole h]
    exact .decimal (bar_not_mem_toString_int q.num) hdecimal
  · have hne : (q.den : Int) ≠ 0 := Int.natCast_ne_zero.mpr q.den_nz
    have hquotient := Reading.quotient (write_of_not_isWhole h) (bar_not_mem_toString_int q.num)
      (isTrimmed_self fun _ => isBlank_of_mem_toString_int) (isTrimmed_self fun _ => isBlank_of_mem_toString_nat)
      (isInteger_toString_int q.num) (isInteger_toString_nat q.den) hne
    rwa [Int.cast_natCast, Rat.num_div_den] at hquotient

/-- What is written for a number is read as the number. -/
theorem read_write (q : Rat) : read (write q) = .ok q := by
  rw [read_eq, isTrimmed_iff.mp (isTrimmed_write q)]
  exact (reading_write q).readTrimmed_eq

/-- Different numbers are written differently. -/
theorem write_injective : Function.Injective write := by
  intro q q' h
  have hread := read_write q
  rw [h, read_write q'] at hread
  exact (Except.ok.inj hread).symm

/-! Texts of the same number. -/

/-- By the grammar, the text denotes the number. -/
def Denotes (text : String) (q : Rat) : Prop := ∃ t, IsTrimmed text.toList t ∧ Reading t (.ok q)

/-- The written form of the number that is read from a text. -/
def normalize (text : String) : Except NumeralError String := (read text).map write

theorem denotes_iff {text : String} : Denotes text q ↔ read text = .ok q := by
  rw [read_eq, readTrimmed_eq_iff]
  constructor
  · rintro ⟨t, ht, hreading⟩
    rwa [isTrimmed_iff.mp ht]
  · exact fun h => ⟨_, isTrimmed_trim _, h⟩

theorem normalize_of_denotes {text : String} (h : Denotes text q) : normalize text = .ok (write q) := by
  rw [normalize, denotes_iff.mp h]
  rfl

/-- The written form of a text is read like the text itself. -/
theorem read_of_normalize {text text' : String} (h : normalize text = .ok text') : read text' = read text := by
  unfold normalize at h
  cases hread : read text with
  | error e =>
    rw [hread] at h
    cases h
  | ok q =>
    rw [hread] at h
    cases h
    exact read_write q

/-- The written form is canonical. Every number is read back from it, whatever text it was read from before, and texts
that denote numbers have the same written form exactly when they denote the same number. -/
theorem canonical_write : (∀ q, read (write q) = .ok q) ∧
    (∀ text text', normalize text = .ok text' → read text' = read text) ∧
    ∀ text text' q q', Denotes text q → Denotes text' q' → (normalize text = normalize text' ↔ q = q') := by
  refine ⟨read_write, fun _ _ => read_of_normalize, fun text text' q q' h h' => ?_⟩
  rw [normalize_of_denotes h, normalize_of_denotes h', Except.ok.injEq]
  exact write_injective.eq_iff

theorem canonical_half : Denotes "+.50" (1 / 2) ∧ Denotes " -3/ -6" (1 / 2) ∧
    normalize "+.50" = .ok "1/2" ∧ normalize " -3/ -6" = normalize "+.50" ∧ read "1/2" = read " -3/ -6" := by
  have hdecimal : Denotes "+.50" (1 / 2) := denotes_iff.mpr (by decide +kernel)
  have hquotient : Denotes " -3/ -6" (1 / 2) := denotes_iff.mpr (by decide +kernel)
  have hwritten : normalize "+.50" = .ok "1/2" := by rfl
  obtain ⟨-, hread, hsame⟩ := canonical_write
  have hequal := (hsame _ _ _ _ hquotient hdecimal).mpr rfl
  exact ⟨hdecimal, hquotient, hwritten, hequal, hread _ _ (hequal.trans hwritten)⟩

end ExactSimplex.Numeral
