import FunctionIR.Text.Columns
import FunctionIR.Translation.Fragment

/-!
# The table of a run

Every translated function has a row that says where it is from and which
kinds of node are most frequent in it.  The table is drawn with box lines;
columns are as wide as their widest cell takes on a terminal, and a cell of
several lines makes its row as high.
-/

namespace FunctionIR.Command

/-- How many kinds of node a row names. -/
def topKinds : Nat := 5

/-- Counted tags, the most frequent first, equally frequent ones by name. -/
def rankKinds (counts : List (String × Nat)) : List (String × Nat) :=
  counts.mergeSort fun a b =>
    if a.2 = b.2 then decide (a.1 ≤ b.1) else decide (b.2 < a.2)

/-- The most frequent kinds in words. -/
def describeKinds (counts : List (String × Nat)) : String :=
  ", ".intercalate (((rankKinds counts).take topKinds).map fun (tag, n) =>
    tag ++ " x" ++ toString n)

/-- The titles of the columns. -/
def tableTitles : List String :=
  ["File", "Function", "Declared in", "Line", "Nodes", "Top kinds"]

/-- The cells of a function that was translated from a file. -/
def tableRow (file : String) (f : Function) : List String := [
  file,
  f.head.name,
  if f.head.qualifiedName = "" then "<top level>" else f.head.qualifiedName,
  toString f.head.line,
  toString f.nodeCount,
  describeKinds f.histogram]

/-- How many columns of a terminal a cell takes. -/
def cellWidth (cell : String) : Nat :=
  ((cell.splitOn "\n").map Text.width).foldl max 0

/-- The widths of the columns of some rows. -/
def columnWidths : List (List String) → List Nat
  | [] => []
  | [row] => row.map cellWidth
  | row :: rest => List.zipWith max (row.map cellWidth) (columnWidths rest)

/-- A text repeated. -/
def repeated (n : Nat) (text : String) : String :=
  String.join (List.replicate n text)

/-- A horizontal line of a table: its left end, its stroke, its crossing and
its right end. -/
def tableRule (left stroke crossing right : String) (widths : List Nat) : String :=
  left ++ crossing.intercalate (widths.map fun w => repeated (w + 2) stroke) ++ right

/-- A line of a cell, filled up to the width of its column. -/
def padCell (width : Nat) (line : String) : String :=
  " " ++ line ++ repeated (width - Text.width line) " " ++ " "

/-- The lines that a row of cells takes. -/
def tableLines (widths : List Nat) (row : List String) : List String :=
  let cells := row.map fun cell => cell.splitOn "\n"
  let height := (cells.map List.length).foldl max 1
  (List.range height).map fun i =>
    "│" ++ "┆".intercalate (List.zipWith (fun width lines =>
      padCell width (lines.getD i "")) widths cells) ++ "│"

/-- The table of some rows. -/
def drawTable (rows : List (List String)) : String :=
  let widths := columnWidths (tableTitles :: rows)
  let between := tableRule "├" "╌" "┼" "┤" widths
  "\n".intercalate (
    [tableRule "┌" "─" "┬" "┐" widths] ++
    tableLines widths tableTitles ++
    [tableRule "╞" "═" "╪" "╡" widths] ++
    List.flatten ((rows.map (tableLines widths)).intersperse [between]) ++
    [tableRule "└" "─" "┴" "┘" widths])

end FunctionIR.Command
