import MobileCode.Text.Blank
import MobileCode.Text.CodePoints

/-! # Tables

Columns are as wide as their widest cell, with two blanks between them and none at the end of a
line. A cell of several lines makes its row as high.
-/
namespace MobileCode.CommandLine

inductive Align
  | left
  | right
  deriving DecidableEq, Inhabited, Repr

/-- The cells that a character takes on a screen. -/
def charWidth (c : Char) : Nat :=
  if Text.extending.contains c then 0 else if Text.wide.contains c then 2 else 1

def width (text : String) : Nat := text.toList.foldl (fun n c => n + charWidth c) 0

def pad (align : Align) (size : Nat) (text : String) : String :=
  let blanks := String.ofList (List.replicate (size - width text) ' ')
  match align with
  | .left => text ++ blanks
  | .right => blanks ++ text

structure Table where
  columns : List (String × Align)
  rows : List (List String)
  deriving Inhabited

namespace Table

def cellLines (cell : String) : List String := Text.split '\n' cell

/-- Each row as the lines of its cells, the heading first. -/
def grid (t : Table) : List (List (List String)) :=
  (t.columns.map (·.1) :: t.rows).map fun row => row.map cellLines

def columnWidth (t : Table) (i : Nat) : Nat :=
  (t.grid.map fun row => (((row[i]?).getD []).map width).foldl max 0).foldl max 0

def lineOf (t : Table) (row : List (List String)) (k : Nat) : String :=
  let cells := (t.columns.zip row).zipIdx.map fun (((_, align), cell), i) =>
    pad align (t.columnWidth i) ((cell[k]?).getD "")
  String.ofList (Text.trimRight (String.intercalate "  " cells).toList)

def rowLines (t : Table) (row : List (List String)) : List String :=
  (List.range ((row.map (·.length)).foldl max 1)).map (t.lineOf row)

def lines (t : Table) : List String := t.grid.flatMap t.rowLines

end Table
end MobileCode.CommandLine
