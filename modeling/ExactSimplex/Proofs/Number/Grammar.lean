import ExactSimplex.Number.Numeral
import Mathlib.Algebra.Order.Field.Rat
import Mathlib.Tactic.FieldSimp
import Mathlib.Tactic.Ring

/-!
# The grammar of numbers

A number is an optional sign and digits, among or around which a point may stand, or a quotient of two signed runs of
digits. Reading a text accepts exactly what the grammar derives, and gives the number that the grammar assigns to it; a
text that is refused is quoted in the error without the blanks at its ends.
-/

namespace ExactSimplex.Numeral

open Text

variable {cs t : List Char}

/-! Digits and signs. -/

/-- Nothing but decimal digits. -/
def Digits (cs : List Char) : Prop := ∀ c ∈ cs, c.isDigit = true

/-- The number that a run of digits denotes. A digit counts a power of ten for each digit behind it. -/
def digitsValue : List Char → Nat
  | [] => 0
  | c :: cs => (c.toNat - '0'.toNat) * 10 ^ cs.length + digitsValue cs

/-- Reading digit after digit gives the number that the run denotes. -/
theorem ofDigitChars_eq_digitsValue (cs : List Char) : Nat.ofDigitChars 10 cs 0 = digitsValue cs := by
  induction cs with
  | nil => rfl
  | cons c cs ih =>
    rw [Nat.ofDigitChars_cons, Nat.ofDigitChars_eq_ofDigitChars_zero, ih, digitsValue]
    ring

/-- Digits in front count as many more powers of ten as there are digits behind them. -/
theorem digitsValue_append (cs ds : List Char) :
    digitsValue (cs ++ ds) = digitsValue cs * 10 ^ ds.length + digitsValue ds := by
  induction cs with
  | nil => simp [digitsValue]
  | cons c cs ih =>
    rw [List.cons_append, digitsValue, digitsValue, ih, List.length_append]
    ring

theorem natural?_eq_some_iff {n : Nat} : natural? cs = some n ↔ cs ≠ [] ∧ Digits cs ∧ digitsValue cs = n := by
  unfold natural?
  split
  · rename_i h
    rw [Option.some.injEq, ofDigitChars_eq_digitsValue]
    exact ⟨fun hn => ⟨h.1, List.all_eq_true.mp h.2, hn⟩, fun hn => hn.2.2⟩
  · rename_i h
    exact iff_of_false nofun fun hn => h ⟨hn.1, List.all_eq_true.mpr hn.2.1⟩

/-- At most one sign. -/
inductive Sign
  | absent
  | plus
  | minus

namespace Sign

/-- How the sign is written. -/
def text : Sign → List Char
  | absent => []
  | plus => ['+']
  | minus => ['-']

/-- What the number behind the sign is multiplied by. -/
def factor : Sign → Int
  | absent => 1
  | plus => 1
  | minus => -1

end Sign

/-- The text begins with no sign. -/
def Unsigned (cs : List Char) : Prop := ∀ c ∈ cs.head?, c ≠ '-' ∧ c ≠ '+'

/-- Every text is a sign and what is left when the sign is taken. -/
theorem exists_sign_takeSign (cs : List Char) :
    ∃ s : Sign, cs = s.text ++ (takeSign cs).2 ∧
      ∀ n : Int, (if (takeSign cs).1 then -n else n) = s.factor * n := by
  unfold takeSign
  split
  · exact ⟨.minus, rfl, fun n => by simp [Sign.factor]⟩
  · exact ⟨.plus, rfl, fun n => by simp [Sign.factor]⟩
  · exact ⟨.absent, rfl, fun n => by simp [Sign.factor]⟩

/-- From a sign and an unsigned text the sign is taken. -/
theorem takeSign_text_append (s : Sign) (h : Unsigned cs) :
    (takeSign (s.text ++ cs)).2 = cs ∧
      ∀ n : Int, (if (takeSign (s.text ++ cs)).1 then -n else n) = s.factor * n := by
  cases s with
  | absent =>
    have htake : takeSign cs = (false, cs) := by
      unfold takeSign
      split
      · exact absurd rfl (h '-' rfl).1
      · exact absurd rfl (h '+' rfl).2
      · rfl
    rw [Sign.text, List.nil_append, htake]
    exact ⟨rfl, fun n => by simp [Sign.factor]⟩
  | plus => exact ⟨rfl, fun n => by simp [takeSign, Sign.text, Sign.factor]⟩
  | minus => exact ⟨rfl, fun n => by simp [takeSign, Sign.text, Sign.factor]⟩

theorem Digits.unsigned (h : Digits cs) : Unsigned cs := by
  intro c hc
  have hdigit := h c (List.mem_of_mem_head? hc)
  constructor
  · rintro rfl
    cases hdigit
  · rintro rfl
    cases hdigit

/-! Integers. -/

/-- An optional sign and one or more digits, with the integer that they denote. -/
inductive IsInteger : List Char → Int → Prop
  | mk (s : Sign) {ds : List Char} (hne : ds ≠ []) (hdigits : Digits ds) :
      IsInteger (s.text ++ ds) (s.factor * digitsValue ds)

theorem integer?_eq (cs : List Char) :
    integer? cs = (natural? (takeSign cs).2).map fun n : Nat => if (takeSign cs).1 then -(n : Int) else n := rfl

theorem integer?_eq_some_iff {n : Int} : integer? cs = some n ↔ IsInteger cs n := by
  constructor
  · intro h
    rw [integer?_eq, Option.map_eq_some_iff] at h
    obtain ⟨m, hm, hn⟩ := h
    obtain ⟨hne, hdigits, rfl⟩ := natural?_eq_some_iff.mp hm
    obtain ⟨s, hcs, hfactor⟩ := exists_sign_takeSign cs
    rw [hfactor] at hn
    rw [hcs, ← hn]
    exact .mk s hne hdigits
  · rintro ⟨s, hne, hdigits⟩
    obtain ⟨hrest, hfactor⟩ := takeSign_text_append s hdigits.unsigned
    rw [integer?_eq, hrest, natural?_eq_some_iff.mpr ⟨hne, hdigits, rfl⟩, Option.map_some, hfactor]

/-! Decimals. -/

/-- An optional sign and digits, among or around which a point may stand, with the number that they denote. There is a
digit, and the digits behind the point can be counted. -/
inductive IsDecimal : List Char → Rat → Prop
  | whole (s : Sign) {ds : List Char} (hne : ds ≠ []) (hdigits : Digits ds) :
      IsDecimal (s.text ++ ds) (s.factor * digitsValue ds)
  | point (s : Sign) {whole fraction : List Char} (hwhole : Digits whole) (hfraction : Digits fraction)
      (hne : whole ++ fraction ≠ []) (hlimit : fraction.length < placeLimit) :
      IsDecimal (s.text ++ whole ++ '.' :: fraction)
        (s.factor * (digitsValue whole + digitsValue fraction / 10 ^ fraction.length))

theorem decimal?_eq (cs : List Char) :
    decimal? cs =
      let parts := (splitOnce '.' (takeSign cs).2).getD ((takeSign cs).2, [])
      if parts.2.length < placeLimit then
        (natural? (parts.1 ++ parts.2)).map fun n : Nat =>
          mkRat (if (takeSign cs).1 then -(n : Int) else n) (Nat.pow 10 parts.2.length)
      else none := rfl

/-- The digits on both sides of the point, taken as one run, are divided by a power of ten. -/
theorem mkRat_digitsValue (s : Sign) (whole fraction : List Char) :
    mkRat (s.factor * digitsValue (whole ++ fraction)) (Nat.pow 10 fraction.length) =
      s.factor * (digitsValue whole + digitsValue fraction / 10 ^ fraction.length) := by
  have hpow : Nat.pow 10 fraction.length = 10 ^ fraction.length := rfl
  rw [hpow, Rat.mkRat_eq_div, digitsValue_append]
  push_cast
  field_simp

/-- Without a point there is nothing to divide. -/
theorem mkRat_digitsValue_nil (s : Sign) (ds : List Char) :
    mkRat (s.factor * digitsValue ds) (Nat.pow 10 0) = s.factor * digitsValue ds := by
  have hpow : Nat.pow 10 0 = 1 := rfl
  rw [hpow, Rat.mkRat_eq_div]
  push_cast
  exact div_one _

theorem Digits.point_not_mem (h : Digits cs) : '.' ∉ cs := by
  intro hmem
  cases h '.' hmem

/-- What is read as a decimal is one. -/
theorem isDecimal_of_decimal? {q : Rat} (h : decimal? cs = some q) : IsDecimal cs q := by
  obtain ⟨s, hcs, hfactor⟩ := exists_sign_takeSign cs
  simp only [decimal?_eq, hfactor] at h
  obtain ⟨hlimit, hmap⟩ := Option.ite_none_right_eq_some.mp h
  obtain ⟨n, hn, hq⟩ := Option.map_eq_some_iff.mp hmap
  obtain ⟨hne, hdigits, rfl⟩ := natural?_eq_some_iff.mp hn
  rw [hcs, ← hq]
  cases hsplit : splitOnce '.' (takeSign cs).2 with
  | none =>
    simp only [hsplit, Option.getD_none, List.append_nil] at hne hdigits ⊢
    rw [List.length_nil, mkRat_digitsValue_nil]
    exact .whole s hne hdigits
  | some parts =>
    simp only [hsplit, Option.getD_some] at hne hdigits hlimit ⊢
    obtain ⟨hwhole, hfraction⟩ := List.forall_mem_append.mp hdigits
    obtain ⟨hrest, -⟩ := splitOnce_eq_some_iff.mp hsplit
    rw [mkRat_digitsValue, hrest, ← List.append_assoc]
    exact .point s hwhole hfraction hne hlimit

/-- Every decimal is read. -/
theorem IsDecimal.decimal?_eq {q : Rat} (h : IsDecimal cs q) : decimal? cs = some q := by
  cases h with
  | @whole s ds hne hdigits =>
    obtain ⟨hrest, hfactor⟩ := takeSign_text_append s hdigits.unsigned
    have hsplit := splitOnce_eq_none_iff.mpr hdigits.point_not_mem
    have hnatural := natural?_eq_some_iff.mpr ⟨hne, hdigits, rfl⟩
    simp only [Numeral.decimal?_eq, hrest, hsplit, Option.getD_none, List.append_nil, hnatural, Option.map_some,
      hfactor, List.length_nil, mkRat_digitsValue_nil]
    rfl
  | @point s whole fraction hwhole hfraction hne hlimit =>
    have hunsigned : Unsigned (whole ++ '.' :: fraction) := by
      cases whole with
      | nil =>
        rintro c ⟨⟩
        decide
      | cons c whole => exact hwhole.unsigned
    obtain ⟨hrest, hfactor⟩ := takeSign_text_append s hunsigned
    have hsplit : splitOnce '.' (whole ++ '.' :: fraction) = some (whole, fraction) :=
      splitOnce_eq_some_iff.mpr ⟨rfl, hwhole.point_not_mem⟩
    have hnatural := natural?_eq_some_iff.mpr ⟨hne, List.forall_mem_append.mpr ⟨hwhole, hfraction⟩, rfl⟩
    rw [List.append_assoc]
    simp only [Numeral.decimal?_eq, hrest, hsplit, Option.getD_some, if_pos hlimit, hnatural, Option.map_some,
      hfactor, mkRat_digitsValue]

theorem decimal?_eq_some_iff {q : Rat} : decimal? cs = some q ↔ IsDecimal cs q :=
  ⟨isDecimal_of_decimal?, IsDecimal.decimal?_eq⟩

/-! Whole texts. -/

/-- What a text without blanks at its ends is read as. With a fraction bar it is the quotient of the two integers
around the first bar, unless the second one is zero; without a bar it is a decimal. Everything else is malformed. -/
inductive Reading (t : List Char) : Except NumeralError Rat → Prop
  | quotient {front back a b : List Char} {n d : Int} (ht : t = front ++ '/' :: back) (hfirst : '/' ∉ front)
      (ha : IsTrimmed front a) (hb : IsTrimmed back b) (hn : IsInteger a n) (hd : IsInteger b d) (hne : d ≠ 0) :
      Reading t (.ok (n / d))
  | zeroDenominator {front back a b : List Char} {n : Int} (ht : t = front ++ '/' :: back) (hfirst : '/' ∉ front)
      (ha : IsTrimmed front a) (hb : IsTrimmed back b) (hn : IsInteger a n) (hd : IsInteger b 0) :
      Reading t (.error (.zeroDenominator (String.ofList t)))
  | noQuotient {front back a b : List Char} (ht : t = front ++ '/' :: back) (hfirst : '/' ∉ front)
      (ha : IsTrimmed front a) (hb : IsTrimmed back b) (h : ¬ ((∃ n, IsInteger a n) ∧ ∃ d, IsInteger b d)) :
      Reading t (.error (.malformed (String.ofList t)))
  | decimal {q : Rat} (hbar : '/' ∉ t) (h : IsDecimal t q) : Reading t (.ok q)
  | noDecimal (hbar : '/' ∉ t) (h : ∀ q, ¬ IsDecimal t q) : Reading t (.error (.malformed (String.ofList t)))

/-- What is read from the text that blanks at both ends leave. -/
def readTrimmed (t : List Char) : Except NumeralError Rat :=
  match splitOnce '/' t with
  | none =>
    match decimal? t with
    | some q => .ok q
    | none => .error (.malformed (String.ofList t))
  | some (numerator, denominator) =>
    match integer? (trim numerator), integer? (trim denominator) with
    | some n, some d => if d = 0 then .error (.zeroDenominator (String.ofList t)) else .ok (Rat.divInt n d)
    | _, _ => .error (.malformed (String.ofList t))

theorem read_eq (text : String) : read text = readTrimmed (trim text.toList) := rfl

/-- Every text is read in one of these ways. -/
theorem reading_readTrimmed (t : List Char) : Reading t (readTrimmed t) := by
  unfold readTrimmed
  split
  · rename_i hsplit
    have hbar := splitOnce_eq_none_iff.mp hsplit
    split
    · rename_i q hq
      exact .decimal hbar (decimal?_eq_some_iff.mp hq)
    · rename_i hq
      exact .noDecimal hbar fun q h => by rw [decimal?_eq_some_iff.mpr h] at hq; cases hq
  · rename_i front back hsplit
    obtain ⟨ht, hfirst⟩ := splitOnce_eq_some_iff.mp hsplit
    have ha := isTrimmed_trim front
    have hb := isTrimmed_trim back
    split
    · rename_i n d hn hd
      rw [integer?_eq_some_iff] at hn hd
      split
      · rename_i hzero
        subst hzero
        exact .zeroDenominator ht hfirst ha hb hn hd
      · rename_i hne
        rw [Rat.divInt_eq_div]
        exact .quotient ht hfirst ha hb hn hd hne
    · rename_i hnone
      refine .noQuotient ht hfirst ha hb ?_
      rintro ⟨⟨n, hn⟩, d, hd⟩
      exact hnone n d (integer?_eq_some_iff.mpr hn) (integer?_eq_some_iff.mpr hd)

/-- There is only one way to read a text. -/
theorem Reading.readTrimmed_eq {r : Except NumeralError Rat} (h : Reading t r) : readTrimmed t = r := by
  cases h with
  | quotient ht hfirst ha hb hn hd hne =>
    have hsplit := splitOnce_eq_some_iff.mpr ⟨ht, hfirst⟩
    simp only [readTrimmed, hsplit, isTrimmed_iff.mp ha, isTrimmed_iff.mp hb, integer?_eq_some_iff.mpr hn,
      integer?_eq_some_iff.mpr hd, if_neg hne, Rat.divInt_eq_div]
  | zeroDenominator ht hfirst ha hb hn hd =>
    have hsplit := splitOnce_eq_some_iff.mpr ⟨ht, hfirst⟩
    simp only [readTrimmed, hsplit, isTrimmed_iff.mp ha, isTrimmed_iff.mp hb, integer?_eq_some_iff.mpr hn,
      integer?_eq_some_iff.mpr hd, if_pos]
  | @noQuotient front back a b ht hfirst ha hb h =>
    have hsplit := splitOnce_eq_some_iff.mpr ⟨ht, hfirst⟩
    simp only [readTrimmed, hsplit, isTrimmed_iff.mp ha, isTrimmed_iff.mp hb]
    split
    · rename_i n d hn hd
      exact absurd ⟨⟨n, integer?_eq_some_iff.mp hn⟩, d, integer?_eq_some_iff.mp hd⟩ h
    · rfl
  | decimal hbar h =>
    simp only [readTrimmed, splitOnce_eq_none_iff.mpr hbar, decimal?_eq_some_iff.mpr h]
  | noDecimal hbar h =>
    have hnone : decimal? t = none :=
      Option.eq_none_iff_forall_ne_some.mpr fun q hq => h q (decimal?_eq_some_iff.mp hq)
    simp only [readTrimmed, splitOnce_eq_none_iff.mpr hbar, hnone]

theorem readTrimmed_eq_iff {r : Except NumeralError Rat} : readTrimmed t = r ↔ Reading t r :=
  ⟨fun h => h ▸ reading_readTrimmed t, Reading.readTrimmed_eq⟩

/-- Reading follows the grammar. Exactly one text is left between the blanks at both ends; what is read is what the
grammar says of that text, and a number that is read is in lowest terms with a positive denominator. -/
theorem reads_grammar (text : String) : ∃ t, (∀ t', IsTrimmed text.toList t' ↔ t' = t) ∧
    (∀ r, read text = r ↔ Reading t r) ∧
    ∀ q, read text = .ok q → 0 < q.den ∧ q.num.natAbs.Coprime q.den := by
  refine ⟨trim text.toList, fun t' => isTrimmed_iff.trans eq_comm, fun r => ?_, fun q _ => ⟨q.den_pos, q.reduced⟩⟩
  rw [read_eq]
  exact readTrimmed_eq_iff

theorem reads_quotient : read " -06/\t+4 " = .ok (-3 / 2) := by
  obtain ⟨t, htrim, hread, -⟩ := reads_grammar " -06/\t+4 "
  have ht : ['-', '0', '6', '/', '\t', '+', '4'] = t :=
    (htrim _).mp (isTrimmed_iff.mpr (by decide +kernel))
  have hsix : Digits ['0', '6'] := List.all_eq_true.mp rfl
  have hfour : Digits ['4'] := List.all_eq_true.mp rfl
  have hn : IsInteger ['-', '0', '6'] (-6) := .mk .minus (List.cons_ne_nil _ _) hsix
  have hd : IsInteger ['+', '4'] 4 := .mk .plus (List.cons_ne_nil _ _) hfour
  have ha : IsTrimmed ['-', '0', '6'] ['-', '0', '6'] := isTrimmed_iff.mpr (by decide +kernel)
  have hb : IsTrimmed ['\t', '+', '4'] ['+', '4'] := isTrimmed_iff.mpr (by decide +kernel)
  have hquotient : Reading t (.ok ((-6 : Int) / (4 : Int))) :=
    ht ▸ .quotient rfl (by decide) ha hb hn hd (by decide)
  rw [(hread _).mpr hquotient]
  norm_num

end ExactSimplex.Numeral
