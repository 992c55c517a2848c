import CellLineage.Datum.Table
import CellLineage.Number.Order
import CellLineage.Workspace.Basic

/-!
# Painting in a workspace

Painting changes the cells of a matrix and computes nothing. Two modes spread what is painted. In
the symmetric mode a single cell of a square matrix is painted together with the one across the
diagonal. In the mirror mode the right matrix of the fixed layout follows the left one: whatever is
written to the left is also written at the same position on the right, if there is one, and the
right matrix itself is locked.

## Main definitions

* `Workspace.write`: one cell, with its copy on the right.
* `Workspace.paint`, `Workspace.toggle`, `Workspace.fillDiagonal`, `Workspace.clearMatrix`,
  `Workspace.randomize`, `Workspace.loadTable`: the ways to paint.
* `Workspace.setMirror`, `Workspace.syncMirror`: the mirror mode.
-/

namespace CellLineage.Workspace

/-- The left matrix, which is followed. -/
abbrev mirrorSource : Text := Document.leftName

/-- The right matrix, which follows. -/
abbrev mirrorTarget : Text := Document.rightName

/-- The matrix cannot be painted, since it follows another one. -/
def isLocked (w : Workspace) (name : Text) : Bool :=
  w.mirror.isTruthy && name == mirrorTarget

/-- What is written to the matrix is also written to the one that follows it. -/
def isFollowed (w : Workspace) (name : Text) : Bool :=
  w.mirror.isTruthy && name == mirrorSource

/-- The cell of a matrix at a position, which has to be there. -/
def requireCell (name : Text) (row col : Int) : Run Cell := do
  match (← get).graph.cellAt? name row col with
  | some c => return c
  | none => throw (.noCell name row col)

/-- The shape of a matrix, which has to be there. -/
def requireShape (name : Text) : Run (Nat × Nat) := do
  match (← get).graph.shape? name with
  | some shape => return shape
  | none => throw (.noMatrix name)

/-- The workspace with one cell painted in the graph; unchanged if there is no such position. The
identity mark stays as it is if none is given. -/
def update (w : Workspace) (name : Text) (row col : Int) (value : Number)
    (color : Option Text) (isIdentity : Option Bool) : Workspace :=
  { w with graph := w.graph.update name row col value color isIdentity none }

/-- The workspace with one cell painted, and its copy on the right painted in the same way. -/
def write (w : Workspace) (name : Text) (row col : Int) (value : Number)
    (color : Option Text) (isIdentity : Option Bool) : Workspace :=
  let written := w.update name row col value color isIdentity
  if w.isFollowed name then written.update mirrorTarget row col value color isIdentity else written

/-! ## Single cells -/

/-- The positions that are painted with a position. -/
def spread (w : Workspace) (name : Text) (row col : Int) : List (Int × Int) :=
  match w.graph.shape? name with
  | some (rows, cols) =>
    if w.symmetric.isTruthy && rows == cols && row != col then [(row, col), (col, row)] else [(row, col)]
  | none => [(row, col)]

/-- Paints a cell. -/
def paint (name : Text) (row col : Int) (value : Number) (color : Option Text)
    (isIdentity : Option Bool) : Run Unit := do
  let _ ← requireCell name row col
  let w ← get
  if w.isLocked name then return
  set ((w.spread name row col).foldl
    (fun w p => w.write name p.1 p.2 value color isIdentity) w)

/-- Changes a cell from zero to one, or from anything else to zero without a colour; the value is
the new one, or the present one if the matrix is locked. -/
def toggle (name : Text) (row col : Int) (color : Option Text) : Run Number := do
  let c ← requireCell name row col
  if (← get).isLocked name then return c.value
  if c.value.isNonzero then
    paint name row col (.int 0) none (some false)
    return .int 0
  else
    paint name row col (.int 1) color (some false)
    return .int 1

/-! ## Whole matrices -/

/-- Paints the main diagonal with ones. -/
def fillDiagonal (name : Text) (color : Option Text) (isIdentity : Option Bool) : Run Unit := do
  let (rows, cols) ← requireShape name
  let w ← get
  if w.isLocked name then return
  set ((List.range (min rows cols)).foldl
    (fun w i => w.write name i i (.int 1) color isIdentity) w)

/-- Takes all paint off a matrix, and off the one that follows it. -/
def clearMatrix (name : Text) : Run Unit := do
  let w ← get
  if w.isLocked name then return
  modifyGraph (·.wipe name)
  if w.isFollowed name then modifyGraph (·.wipe mirrorTarget)

/-- The positions for which a number is drawn, row by row; a symmetric pattern has none below the
diagonal. -/
def drawnPositions (rows cols : Nat) (isSymmetric : Bool) : List (Nat × Nat) :=
  (List.range rows).flatMap fun i =>
    ((List.range cols).filter fun j => !(isSymmetric && j < i)).map fun j => (i, j)

/-- The positions that are painted if the number drawn for one is small enough. -/
def patternPositions (rows cols : Nat) (isSymmetric : Bool) (i j : Nat) : List (Nat × Nat) :=
  if isSymmetric && i != j && j < rows && i < cols then [(i, j), (j, i)] else [(i, j)]

/-- Paints ones at random: at every position for which the number drawn is less than `density`.
The `k`-th number drawn is `draw k`. Says how many were drawn; if the matrix is locked, none are and
nothing happens. -/
def randomize (name : Text) (density : Number) (color : Option Text) (isSymmetric : Bool)
    (draw : Nat → Number) : Run Nat := do
  let (rows, cols) ← requireShape name
  if (← get).isLocked name then return 0
  clearMatrix name
  let drawn := drawnPositions rows cols isSymmetric
  let chosen := (drawn.zipIdx.filter fun p => (draw p.2).lt density).flatMap fun p =>
    patternPositions rows cols isSymmetric p.1.1 p.1.2
  modify fun w =>
    chosen.foldl (fun w p => w.write name p.1 p.2 (.int 1) color (some false)) w
  return drawn.length

/-- The rows of a table. -/
def liftTable {α : Type} (name : Text) : Except Table.Fault α → Run α
  | .ok a => pure a
  | .error .irregular => throw .irregular
  | .error .foreign => throw .foreign
  | .error .overflow => throw (.graph .overflow)
  | .error (.levels n) => throw (.levels name n)

/-- The entries of a table with their positions, row by row. -/
def positioned {α : Type} (rows : List (List α)) : List (Nat × Nat × α) :=
  rows.zipIdx.flatMap fun r => r.1.zipIdx.map fun x => (r.2, x.2, x.1)

/-- Gives a matrix the shape and the values of a table, the cells that are not zero in a colour. -/
def loadTable (name : Text) (values : Datum) (color : Option Text) : Run Unit := do
  let rows ← liftTable name values.table
  if (← get).isLocked name then return
  let cols := (rows.head?.map List.length).getD 0
  resize name (.int rows.length) (.int cols)
  modify fun w =>
    (positioned rows).foldl (fun w p =>
      let (i, j, value) := p
      w.write name i j value (if value.isNonzero then color else none) (some false)) w

/-! ## The mirror mode -/

/-- Copies every cell of the left matrix to the right one, where it has the position. -/
def syncMirror (w : Workspace) : Workspace :=
  if w.graph.hasMatrix mirrorSource && w.graph.hasMatrix mirrorTarget then
    (w.graph.cells mirrorSource).foldl (fun w c =>
      w.update mirrorTarget c.row c.col c.value c.color (some c.isIdentity)) w
  else w

/-- Turns the mirror mode on or off; turning it on copies the left matrix. -/
def setMirror (w : Workspace) (enabled : Datum) : Workspace :=
  let w := { w with mirror := enabled }
  if enabled.isTruthy then w.syncMirror else w

end CellLineage.Workspace
