import CellLineage.Graph.Basic

/-!
# Views of matrices

A matrix can be read as a whole in three forms: its cells that are not zero row by row, each with
its column and its id (`Sparse`), the same with the colours of each cell, and the values as doubles.
The rows of the sparse form lie one after another in one list, and `rowOffsets` says where each
begins.
-/

namespace CellLineage

/-- The cells of a matrix that are not zero, row by row. -/
structure Sparse where
  /-- Where each row begins in the lists, and where the last one ends. -/
  rowOffsets : List Nat
  columns : List Nat
  ids : List CellId
  deriving DecidableEq, Repr

/-- The colour of what has none. -/
def neutralColor : Text := "#000000"

/-- The running sums of a list, from `start` on. -/
def runningSums (start : Nat) : List Nat → List Nat
  | [] => [start]
  | n :: ns => start :: runningSums (start + n) ns

/-- The colour of a cell that has one; the empty text is none. -/
def Cell.ownColor? (c : Cell) : Option Text :=
  c.color.filter (· != "")

namespace Graph

/-- The columns and cells of a row that are not zero. -/
def nonzeroCells (row : List Cell) : List (Nat × Cell) :=
  (row.zipIdx.filter fun p => p.1.value.isNonzero).map Prod.swap

/-- The cells of a matrix that are not zero, row by row. -/
def nonzeroRows? (g : Graph) (name : Text) : Option (List (List (Nat × Cell))) :=
  (g.rows? name).map (·.map nonzeroCells)

/-- The sparse form of a matrix. -/
def sparse? (g : Graph) (name : Text) : Option Sparse :=
  (g.nonzeroRows? name).map fun rows =>
    ⟨runningSums 0 (rows.map List.length), rows.flatten.map Prod.fst,
      rows.flatten.map fun p => p.2.id⟩

/-- The colours that a cell is shown in: its own, then those of its dependencies; the neutral one if
there would be none. -/
def colors (g : Graph) (c : Cell) : List Text :=
  let inherited := c.dependencies.map fun id => (g.cell id).ownColor?.getD neutralColor
  match c.ownColor?, inherited with
  | some color, _ => color :: inherited
  | none, [] => [neutralColor]
  | none, _ => inherited

/-- The colours of the cells of a matrix that are not zero, in the order of the sparse form. -/
def sparseColors? (g : Graph) (name : Text) : Option (List (List Text)) :=
  (g.nonzeroRows? name).map fun rows => rows.flatten.map fun p => g.colors p.2

/-- The values of a matrix as doubles. -/
def values? (g : Graph) (name : Text) : Except Fault (Option (List (List Float))) :=
  match g.rows? name with
  | none => .ok none
  | some rows =>
    match rows.mapM (·.mapM fun c => c.value.toFloat?) with
    | some values => .ok (some values)
    | none => .error .overflow

end Graph

end CellLineage
