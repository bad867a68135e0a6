import Metalanguage.Lines
import Metalanguage.DisplayWidth.Text

/-!
# Report/Table — tables with ruled lines

A table has columns with a heading and an alignment, and rows of cells; a cell may have several lines. A
column is as wide as its longest line, with a blank on either side.
-/

namespace Metalanguage

/-- How the lines of a column stand in it. -/
inductive Alignment
  | left
  | right
  deriving DecidableEq, Repr

/-- A column: its heading and its alignment. -/
structure Column where
  heading : String
  alignment : Alignment

/-- **A table.** Each row has a cell for every column. -/
structure Table where
  columns : List Column
  rows : List (List String)

namespace Table

/-- A cell by its lines. -/
def cellLines (cell : String) : List (List Char) := Lines.cut '\n' cell.toList

/-- The columns that the longest line of some cells takes. -/
def width (cells : List String) : Nat :=
  ((cells.flatMap cellLines).map DisplayWidth.ofText).foldl max 0

/-- The widths of the columns, over the headings and all rows. -/
def widths (t : Table) : List Nat :=
  t.columns.zipIdx.map fun (column, i) => width (column.heading :: t.rows.filterMap (·[i]?))

/-- A text made of one character. -/
def fill (c : Char) (n : Nat) : String := String.ofList (List.replicate n c)

/-- A line filled up to a width, with a blank on either side. -/
def pad (alignment : Alignment) (width : Nat) (line : List Char) : String :=
  let missing := fill ' ' (width - DisplayWidth.ofText line)
  match alignment with
  | .left => " " ++ String.ofList line ++ missing ++ " "
  | .right => " " ++ missing ++ String.ofList line ++ " "

/-- Pieces of a line between borders. -/
def border (left middle right : String) (pieces : List String) : String :=
  left ++ middle.intercalate pieces ++ right

/-- A ruled line across all columns. -/
def rule (left : String) (c : Char) (middle right : String) (widths : List Nat) : String :=
  border left middle right (widths.map fun width => fill c (width + 2))

/-- The lines of a row. -/
def rowLines (shapes : List (Alignment × Nat)) (cells : List String) : List String :=
  let cells := cells.map cellLines
  let height := (cells.map List.length).foldl max 0
  (List.range height).map fun i =>
    border "│" "┆" "│" ((shapes.zip cells).map fun ((alignment, width), lines) =>
      pad alignment width (lines.getD i []))

/-- The lines of a list of rows, with a ruled line between them. -/
def separated (separator : String) : List (List String) → List String
  | [] => []
  | [row] => row
  | row :: rest => row ++ separator :: separated separator rest

/-- **The lines of a table.** -/
def lines (t : Table) : List String :=
  let widths := t.widths
  let shapes := (t.columns.map (·.alignment)).zip widths
  [rule "┌" '─' "┬" "┐" widths] ++
    rowLines shapes (t.columns.map (·.heading)) ++
    [rule "╞" '═' "╪" "╡" widths] ++
    separated (rule "├" '╌' "┼" "┤" widths) (t.rows.map (rowLines shapes)) ++
    [rule "└" '─' "┴" "┘" widths]

end Table

end Metalanguage
