/-!
# Splitting at a mark

A text is split at the first place where a mark stands. The main statement says that a split exists
exactly when the mark occurs, and that the part in front of it is free of the mark.
-/

namespace ExactSimplex.Text

/-- What stands before the first `mark` and what follows it, if the mark occurs at all. -/
def splitOnce (mark : Char) : List Char → Option (List Char × List Char)
  | [] => none
  | c :: cs =>
    if c = mark then some ([], cs)
    else (splitOnce mark cs).map fun parts => (c :: parts.1, parts.2)

/-- A split puts the text together again, and its first part does not contain the mark. -/
theorem splitOnce_eq_some_iff {mark : Char} {cs before after : List Char} :
    splitOnce mark cs = some (before, after) ↔ cs = before ++ mark :: after ∧ mark ∉ before := by
  induction cs generalizing before with
  | nil => simp [splitOnce]
  | cons c cs ih =>
    by_cases hc : c = mark
    · subst hc
      cases before with
      | nil => simp [splitOnce, eq_comm]
      | cons b before =>
        simp only [splitOnce, if_true, Option.some.injEq, Prod.mk.injEq, List.cons_append, List.cons.injEq,
          List.mem_cons, not_or]
        constructor
        · rintro ⟨h, -⟩
          cases h
        · rintro ⟨⟨h, -⟩, h', -⟩
          exact absurd h h'
    · cases before with
      | nil => simp [splitOnce, hc]
      | cons b before =>
        simp only [splitOnce, if_neg hc, Option.map_eq_some_iff, Prod.mk.injEq, List.cons.injEq,
          List.cons_append, List.mem_cons, not_or]
        constructor
        · rintro ⟨⟨first, second⟩, h, ⟨rfl, rfl⟩, rfl⟩
          obtain ⟨rfl, hm⟩ := ih.mp h
          exact ⟨⟨rfl, rfl⟩, fun h => hc h.symm, hm⟩
        · rintro ⟨⟨rfl, rfl⟩, -, hm⟩
          exact ⟨(before, after), ih.mpr ⟨rfl, hm⟩, ⟨rfl, rfl⟩, rfl⟩

/-- Without a mark there is no split. -/
theorem splitOnce_eq_none_iff {mark : Char} {cs : List Char} :
    splitOnce mark cs = none ↔ mark ∉ cs := by
  induction cs with
  | nil => simp [splitOnce]
  | cons c cs ih =>
    by_cases hc : c = mark
    · simp [splitOnce, hc]
    · simp only [splitOnce, if_neg hc, Option.map_eq_none_iff, ih, List.mem_cons, not_or]
      exact ⟨fun h => ⟨fun e => hc e.symm, h⟩, fun h => h.2⟩

end ExactSimplex.Text
