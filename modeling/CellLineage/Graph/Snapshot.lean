import CellLineage.Graph.Basic

/-!
# Snapshots of matrices

A snapshot holds what is painted on a matrix, apart from the ids of its cells and their lineage. It
can be put back on a fresh matrix of another shape: the cells inside both shapes are painted as they
were, and all others are blank.
-/

namespace CellLineage

/-- What is painted at a position. -/
structure PaintedCell where
  row : Int
  col : Int
  value : Number
  color : Option Text
  colorIndex : Option Int
  isIdentity : Bool

/-- What is painted on a matrix. -/
structure Snapshot where
  name : Text
  rows : Nat
  cols : Nat
  cells : List PaintedCell

/-- What is painted on a cell. -/
def Cell.painted (c : Cell) : PaintedCell :=
  ⟨c.row, c.col, c.value, c.color, c.colorIndex, c.isIdentity⟩

namespace Graph

/-- What is painted on a matrix, if there is one of the name. -/
def snapshot? (g : Graph) (name : Text) : Option Snapshot :=
  g.matrices[name]?.map fun b => ⟨name, b.rows, b.cols, (g.cells name).map Cell.painted⟩

/-- Paints one cell of a snapshot, if it is inside the shape. -/
def restoreCell (g : Graph) (name : Text) (rows cols : Int) (c : PaintedCell) : Graph :=
  if c.row < rows ∧ c.col < cols then
    g.update name c.row c.col c.value c.color (some c.isIdentity) c.colorIndex
  else g

/-- The graph with a fresh matrix of the given shape that is painted as in the snapshot. -/
def restore (g : Graph) (s : Snapshot) (rows cols : Int) : Except Fault Graph := do
  let g ← g.initMatrix s.name rows cols
  return s.cells.foldl (fun g c => g.restoreCell s.name rows cols c) g

end Graph

end CellLineage
