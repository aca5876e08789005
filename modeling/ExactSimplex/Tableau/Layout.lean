import ExactSimplex.Cost.Text
import ExactSimplex.Tableau.Basic

/-!
# The drawing of a tableau

A tableau is drawn as lines of right-aligned fields, each field as wide as its longest text: the column
names, the costs of the columns, a rule, the rows, a rule, the reduced costs. A bar stands after the name
and after the cost of a row. Recorded ratios of rows make a last field in each row, recorded ratios of
columns a last line.
-/

namespace ExactSimplex.Tableau

/-- A text moved to the right end of a field. -/
def alignRight (width : Nat) (text : String) : String :=
  String.ofList (List.replicate (width - text.length) ' ') ++ text

/-- What is written for a ratio; a position that was not compared has a dash. -/
def ratioText : Option Rat → String
  | some q => Numeral.write q
  | none => "-"

/-- The ratios of the rows, if those were recorded. -/
def rowRatios (t : Tableau) : Option (List (Option Rat)) :=
  match t.ratios with
  | some (.primal ratios) => some ratios
  | _ => none

/-- The names of all fields. -/
def header (t : Tableau) : List String :=
  ["basis", "cost"] ++ t.columns.map (·.name) ++ (if t.rowRatios.isSome then ["θ"] else [])

/-- The costs of the columns. -/
def costLine (t : Tableau) : List String :=
  ["", ""] ++ t.columns.map (fun c => (c.cost.map Cost.text).getD "") ++
    (if t.rowRatios.isSome then [""] else [])

/-- The fields of a row. -/
def rowLine (r : Row) : List String := [r.name, r.cost.text] ++ r.values.map Numeral.write

/-- The fields of all rows. -/
def rowLines (t : Tableau) : List (List String) :=
  match t.rowRatios with
  | none => t.rows.map rowLine
  | some ratios => List.zipWith (fun r ratio => rowLine r ++ [ratioText ratio]) t.rows ratios

/-- The reduced costs, and the ratios of the columns if those were recorded. -/
def footer (t : Tableau) : List (List String) :=
  let delta := ["Δ", ""] ++ t.reducedCosts.map Cost.text
  match t.ratios with
  | some (.dual ratios) => [delta, ["θ", ""] ++ ratios.map ratioText]
  | _ => [delta]

/-- The width of field `k`: that of its longest text. -/
def fieldWidth (lines : List (List String)) (k : Nat) : Nat :=
  lines.foldl (fun width fields => max width ((fields[k]?.map String.length).getD 0)) 0

/-- Writes one field behind the ones before it. -/
def fieldText (k width : Nat) (text : String) : String :=
  (if k = 1 ∨ k = 2 then " |" else "") ++ " " ++ alignRight width text

/-- Writes a line of fields. -/
def lineText (widths : List Nat) (fields : List String) : String :=
  String.join (List.zipWith (fun field width => fieldText field.2 width field.1) fields.zipIdx widths) ++ "\n"

/-- The drawing of a tableau. -/
def text (t : Tableau) : String :=
  let head := [t.header, t.costLine]
  let lines := head ++ t.rowLines ++ t.footer
  let widths := (List.range t.header.length).map (fieldWidth lines)
  let rule := String.ofList (List.replicate (widths.foldl (fun total width => total + width + 3) 0) '-') ++ "\n"
  String.join
    (head.map (lineText widths) ++ [rule] ++ t.rowLines.map (lineText widths) ++ [rule] ++
      t.footer.map (lineText widths))

end ExactSimplex.Tableau
