import ExactSimplex.Cutting.Solve

/-!
# Reading the record of cuts

The record of a run groups its moves by cuts. The cuts it lists are those of the moves, in order, and once
there is a cut, a move that restores a row leaves its tableau as the last one of the record.
-/

namespace ExactSimplex.Cutting

variable {moves : List Move} {pivot : Pivot} {before after : Tableau}

/-- The cut that a move made, if it made one. -/
def Move.cut? : Move → Option Cut
  | .cut _ c _ _ => some c
  | .restore _ _ _ => none
  | .stuck _ => none

/-- The cuts that were made, in order. -/
def cutsOf (moves : List Move) : List Cut := moves.filterMap Move.cut?

@[simp] theorem cutsOf_nil : cutsOf [] = [] := rfl

@[simp] theorem cutsOf_cut (source : Source) (cut : Cut) (before after : Tableau) (moves : List Move) :
    cutsOf (.cut source cut before after :: moves) = cut :: cutsOf moves := rfl

@[simp] theorem cutsOf_restore (pivot : Pivot) (before after : Tableau) (moves : List Move) :
    cutsOf (.restore pivot before after :: moves) = cutsOf moves := rfl

@[simp] theorem cutsOf_stuck (tableau : Tableau) (moves : List Move) :
    cutsOf (.stuck tableau :: moves) = cutsOf moves := rfl

theorem cutsOf_append (front back : List Move) : cutsOf (front ++ back) = cutsOf front ++ cutsOf back :=
  List.filterMap_append

/-- The record lists the cuts that were made. -/
theorem map_cut_applications (moves : List Move) : (applications moves).map (·.cut) = cutsOf moves := by
  induction moves with
  | nil => rfl
  | cons move moves ih =>
    cases move with
    | cut source cut t t' => exact congrArg (cut :: ·) ih
    | restore pivot t t' => exact ih
    | stuck t => exact ih

/-! Moves behind others. -/

/-- A cut with further steps that apply it. -/
def Application.extend (a : Application) (steps : List Step) : Application := { a with steps := a.steps ++ steps }

/-- Without a cut all steps stand in front of the groups that follow. -/
theorem grouped_append_of_nil {front back : List Move} (h : applications front = []) :
    grouped (front ++ back) = ((grouped front).1 ++ (grouped back).1, applications back) := by
  rw [applications] at h ⊢
  induction front with
  | nil => rfl
  | cons move front ih =>
    cases move with
    | cut source cut before after => cases h
    | restore pivot before after => simp [grouped, ih h]
    | stuck tableau => simp [grouped, ih h]

/-- Steps behind a cut belong to the last cut. -/
theorem grouped_append_of_concat {front back : List Move} {as : List Application} {a : Application}
    (h : applications front = as ++ [a]) :
    grouped (front ++ back) = ((grouped front).1, as ++ a.extend (grouped back).1 :: applications back) := by
  induction front generalizing as with
  | nil => simp [applications, grouped] at h
  | cons move front ih =>
    cases move with
    | cut source cut before after =>
      -- The move is the last cut itself, or the last cut is one of those that follow.
      have hcons : applications (.cut source cut before after :: front) =
          ⟨source, cut, (grouped front).1⟩ :: applications front := rfl
      rw [hcons] at h
      rcases List.eq_nil_or_concat (applications front) with hnil | ⟨as', b, hconcat⟩
      · rw [hnil] at h
        obtain ⟨rfl, heq⟩ := List.append_inj' (show [] ++ [_] = as ++ [a] from h) rfl
        cases heq
        simp [grouped, grouped_append_of_nil hnil, Application.extend]
      · rw [List.concat_eq_append] at hconcat
        rw [hconcat, ← List.cons_append] at h
        obtain ⟨rfl, heq⟩ := List.append_inj' h rfl
        cases heq
        simp [grouped, ih hconcat]
    | restore pivot before after => simp [grouped, ih (show applications front = as ++ [a] from h)]
    | stuck tableau => simp [grouped, ih (show applications front = as ++ [a] from h)]

/-- A cut begins a group. -/
theorem applications_append_cut (source : Source) (cut : Cut) :
    applications (moves ++ [.cut source cut before after]) = applications moves ++ [⟨source, cut, []⟩] := by
  rcases List.eq_nil_or_concat (applications moves) with hnil | ⟨as, a, hconcat⟩
  · rw [applications, grouped_append_of_nil hnil, hnil]
    rfl
  · rw [List.concat_eq_append] at hconcat
    rw [applications, grouped_append_of_concat hconcat, hconcat]
    simp [applications, grouped, Application.extend]

/-- Restoring a row adds two steps to the last group. -/
theorem applications_append_restore {as : List Application} {a : Application}
    (h : applications moves = as ++ [a]) :
    applications (moves ++ [.restore pivot before after]) =
      as ++ [a.extend [⟨some pivot, before⟩, ⟨none, after⟩]] :=
  congrArg Prod.snd (grouped_append_of_concat h)

/-- A row that cannot be restored adds one. -/
theorem applications_append_stuck {as : List Application} {a : Application} (h : applications moves = as ++ [a]) :
    applications (moves ++ [.stuck before]) = as ++ [a.extend [⟨none, before⟩]] :=
  congrArg Prod.snd (grouped_append_of_concat h)

/-- The tableau that the last step of the last cut left, if there was one. -/
def lastTableau (moves : List Move) : Option Tableau := (applications moves).getLast?.bind (·.last?)

/-- Once there is a cut, restoring a row leaves its tableau as the last one. -/
theorem lastTableau_append_restore (h : cutsOf moves ≠ []) :
    lastTableau (moves ++ [.restore pivot before after]) = some after := by
  rw [← map_cut_applications, ne_eq, List.map_eq_nil_iff] at h
  obtain ⟨as, a, hconcat⟩ := (List.eq_nil_or_concat (applications moves)).resolve_left h
  rw [List.concat_eq_append] at hconcat
  rw [lastTableau, applications_append_restore hconcat]
  simp [Application.extend, Application.last?]

end ExactSimplex.Cutting
