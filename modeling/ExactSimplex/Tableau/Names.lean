import Std.Data.ExtTreeMap

/-!
# Names of variables and columns

Variable `xj` belongs to column `Aj`; column `A0` holds the right-hand sides and belongs to no variable.
A name index tells in which row a name stands. It is a value of its own, since the rows of a tableau may
repeat a name and the index then knows only one of them.
-/

namespace ExactSimplex

/-- The name of the variable of column `j`. -/
def variableName (j : Nat) : String := "x" ++ toString j

/-- The name of column `j`. -/
def columnName (j : Nat) : String := "A" ++ toString j

/-- Different columns have differently named variables. -/
theorem variableName_injective {i j : Nat} (h : variableName i = variableName j) : i = j := by
  have hchars := congrArg String.toList h
  simp only [variableName, String.toList_append] at hchars
  have hdigits := congrArg (fun ds => Nat.ofDigitChars 10 ds 0) (List.append_cancel_left hchars)
  simpa [Nat.toString_eq_ofList_toDigits] using hdigits

/-- The row of each name. -/
abbrev NameIndex := Std.ExtTreeMap String Nat

namespace NameIndex

/-- The index of a list of names, counted from `start`. Of equal names the first one is found. -/
def ofNames (start : Nat) : List String → NameIndex
  | [] => ∅
  | name :: names => (ofNames (start + 1) names).insert name start

/-- Looking up a name finds the first place where it stands. -/
theorem getElem?_ofNames (start : Nat) (names : List String) (name : String) :
    (ofNames start names)[name]? = (names.findIdx? (· = name)).map (· + start) := by
  induction names generalizing start with
  | nil => simp [ofNames]
  | cons n names ih =>
    by_cases h : n = name
    · simp [ofNames, h, List.findIdx?_cons]
    · have hc : compare n name ≠ .eq := by simpa using h
      simp only [ofNames, Std.ExtTreeMap.getElem?_insert, if_neg hc, ih, List.findIdx?_cons, h,
        decide_false, Bool.false_eq_true, if_false, Option.map_map]
      congr 1
      funext i
      simp only [Function.comp_apply]
      omega

end NameIndex

end ExactSimplex
