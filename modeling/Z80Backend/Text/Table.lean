import Z80Backend.Text.Numeral

/-! # Boxed tables

    A table has a title over the full width, a header row and body rows.
    Each column is as wide as its widest cell, and each cell has a blank on
    either side.  The rules above, between and below are drawn with `+` and
    `-`. -/

namespace Z80Backend.Text

/-- How the cells of a column are set. -/
inductive Alignment where
  | left
  | right
  deriving DecidableEq, Repr

/-- A column: its heading and the alignment of its cells. -/
structure Column where
  heading : String
  alignment : Alignment := .left

/-- A table whose rows give one cell for each column. -/
structure Table where
  title : String
  columns : List Column
  rows : List (List String)

namespace Table

/-- The `i`-th cell of a row; a short row ends in empty cells. -/
def cellAt (row : List String) (i : Nat) : String := row.getD i ""

/-- The width of the widest cell of a column, its heading included. -/
def columnWidth (t : Table) (i : Nat) (c : Column) : Nat :=
  t.rows.foldl (fun w row => max w (cellAt row i).length) c.heading.length

/-- All column widths, from left to right. -/
def widths (t : Table) : List Nat :=
  t.columns.zipIdx.map fun (c, i) => t.columnWidth i c

/-- A cell set in its column. -/
def setCell (a : Alignment) (width : Nat) (s : String) : String :=
  match a with
  | .left  => padRight width s
  | .right => String.ofList (s.toList.leftpad width ' ')

/-- One row of cells between bars. -/
def line (t : Table) (cells : List String) : String :=
  let set := (t.columns.zip t.widths).zipIdx.map fun ((c, w), i) =>
    " " ++ setCell c.alignment w (cellAt cells i) ++ " "
  "|" ++ "|".intercalate set ++ "|\n"

/-- A horizontal rule with the given joint between columns. -/
def rule (t : Table) (joint : String) : String :=
  let runs := t.widths.map fun w => String.ofList (List.replicate (w + 2) '-')
  "+" ++ joint.intercalate runs ++ "+\n"

/-- The number of characters between the outer bars. -/
def innerWidth (t : Table) : Nat :=
  (t.widths.map (· + 2)).foldl (· + ·) 0 + (t.columns.length - 1)

/-- The table as text. -/
def render (t : Table) : String :=
  t.rule "-" ++
  "| " ++ padRight (t.innerWidth - 2) t.title ++ " |\n" ++
  t.rule "+" ++
  t.line (t.columns.map (·.heading)) ++
  t.rule "+" ++
  String.join (t.rows.map t.line) ++
  t.rule "+"

end Table

end Z80Backend.Text
