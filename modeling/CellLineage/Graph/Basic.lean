import CellLineage.Graph.Cell
import CellLineage.Formula.Reference
import Std.Data.ExtTreeMap

/-!
# Graphs of cells

A graph owns the cells of all its matrices and the lineage between them. The ids of cells are minted
one after another, `elem_0`, `elem_1` and so on, and a matrix is a *block*: its cells are those with
consecutive ids, row by row. Making a matrix anew mints a fresh block; the cells of the old block
stay in the graph, so that whatever was derived from them still finds them.

Lineage is recorded on both ends: `link` makes one cell a dependency of the other and the other a
dependent of the one, and `unlink` takes away both for all cells of a matrix.

## Main definitions

* `Graph`, `Block`: the state and the shape of a matrix in it.
* `Graph.initMatrix`: a matrix of blank cells.
* `Graph.update`: painting a cell.
* `Graph.link`, `Graph.unlink`: recording and forgetting lineage.
-/

namespace CellLineage

/-- Where a matrix is: the number of its first id, and its shape, which has a cell. -/
structure Block where
  first : Nat
  rows : Nat
  cols : Nat
  rows_pos : 0 < rows
  cols_pos : 0 < cols
  deriving DecidableEq

/-- Why an operation on a graph stops. -/
inductive Graph.Fault where
  /-- A matrix without cells is asked for. -/
  | dimensions (name : Text) (rows cols : Int)
  /-- A whole number beyond the largest double meets a double. -/
  | overflow
  /-- An index has too many digits. -/
  | index (what : Formula.IndexFault)
  /-- A recurrence is to be applied a number of times that is not given as a whole number. -/
  | iterations
  deriving DecidableEq, Repr

/-- The cells of all matrices and the lineage between them. -/
structure Graph where
  /-- What stands before the number in an id. -/
  stem : String
  /-- How many ids were minted. -/
  minted : Nat
  nodes : Std.ExtTreeMap CellId Cell
  matrices : Std.ExtTreeMap Text Block
  /-- How many names were given to intermediate results. -/
  temporaries : Nat
  /-- The expressions that the intermediate results hold. -/
  descriptions : Std.ExtTreeMap Text Text

/-- The fault in words. -/
def Graph.Fault.message : Graph.Fault → Text
  | .dimensions name rows cols =>
    "Invalid dimensions for " ++ name ++ ": " ++ toString rows ++ "x" ++ toString cols
  | .overflow => "A whole number is too large for a double"
  | .index _ => "An index is no number or has too many digits"
  | .iterations => "A recurrence is applied a whole number of times"

namespace Block

variable (b : Block)

/-- The shape of a matrix. -/
def shape : Nat × Nat :=
  (b.rows, b.cols)

/-- How many cells a matrix has. -/
def size : Nat :=
  b.rows * b.cols

/-- The positions of a matrix, row by row. -/
def positions : List (Nat × Nat) :=
  (List.range b.rows).flatMap fun i => (List.range b.cols).map fun j => (i, j)

/-- The number of the id at a position. -/
def number (i j : Nat) : Nat :=
  b.first + (i * b.cols + j)

@[simp] theorem mem_positions {i j : Nat} : (i, j) ∈ b.positions ↔ i < b.rows ∧ j < b.cols := by
  simp [positions]

end Block

namespace Graph

/-- A graph without cells. -/
def empty (stem : String) : Graph :=
  ⟨stem, 0, ∅, ∅, 0, ∅⟩

/-- The graph without its cells, as if none had been made. -/
def clear (g : Graph) : Graph :=
  empty g.stem

/-! ## Cells and matrices -/

/-- The id with a number. -/
def cellId (g : Graph) (k : Nat) : CellId :=
  g.stem ++ "_" ++ toString k

/-- The cell with an id; an id that names no cell gives a blank one. -/
def cell (g : Graph) (id : CellId) : Cell :=
  g.nodes.getD id (.blank id "" 0 0)

/-- The graph with one more cell, in place of any cell with its id. -/
def addCell (g : Graph) (c : Cell) : Graph :=
  { g with nodes := g.nodes.insert c.id c }

/-- The graph with a cell changed, if there is one with the id. -/
def modify (g : Graph) (id : CellId) (f : Cell → Cell) : Graph :=
  { g with nodes := g.nodes.modify id f }

/-- The shape of a matrix, if there is one of the name. -/
def shape? (g : Graph) (name : Text) : Option (Nat × Nat) :=
  g.matrices[name]?.map Block.shape

/-- There is a matrix of the name. -/
def hasMatrix (g : Graph) (name : Text) : Bool :=
  g.matrices.contains name

/-- The graph with the blank cells of a block of the name. -/
def addBlanks (g : Graph) (name : Text) (b : Block) : Graph :=
  b.positions.foldl (fun g p => g.addCell (.blank (g.cellId (b.number p.1 p.2)) name p.1 p.2)) g

/-- The graph with a fresh matrix of blank cells under the name. -/
def addMatrix (g : Graph) (name : Text) (rows cols : Nat) (hr : 0 < rows) (hc : 0 < cols) :
    Graph :=
  let b : Block := ⟨g.minted, rows, cols, hr, hc⟩
  let g := g.addBlanks name b
  { g with minted := g.minted + b.size, matrices := g.matrices.insert name b }

/-- The graph with a fresh matrix of blank cells under the name; a matrix has at least one cell. -/
def initMatrix (g : Graph) (name : Text) (rows cols : Int) : Except Fault Graph :=
  if h : 1 ≤ rows ∧ 1 ≤ cols then
    .ok (g.addMatrix name rows.toNat cols.toNat (by omega) (by omega))
  else .error (.dimensions name rows cols)

/-- The id at a position of a block. -/
def idAt (g : Graph) (b : Block) (i j : Nat) : CellId :=
  g.cellId (b.number i j)

/-- The ids of a block, row by row. -/
def ids (g : Graph) (b : Block) : List CellId :=
  b.positions.map fun p => g.idAt b p.1 p.2

/-- The ids of the rows of a block. -/
def rowIds (g : Graph) (b : Block) : List (List CellId) :=
  (List.range b.rows).map fun i => (List.range b.cols).map fun j => g.idAt b i j

/-- The cells of a matrix, row by row. -/
def rows? (g : Graph) (name : Text) : Option (List (List Cell)) :=
  g.matrices[name]?.map fun b => (g.rowIds b).map (·.map g.cell)

/-- The cells of a matrix in one list; none if there is no matrix of the name. -/
def cells (g : Graph) (name : Text) : List Cell :=
  match g.matrices[name]? with
  | some b => (g.ids b).map g.cell
  | none => []

/-- The id at a position of a matrix, if there is such a position. -/
def idAt? (g : Graph) (name : Text) (row col : Int) : Option CellId :=
  match g.matrices[name]? with
  | some b =>
    if 0 ≤ row ∧ row < b.rows ∧ 0 ≤ col ∧ col < b.cols then some (g.idAt b row.toNat col.toNat)
    else none
  | none => none

/-- The cell at a position of a matrix, if there is such a position. -/
def cellAt? (g : Graph) (name : Text) (row col : Int) : Option Cell :=
  (g.idAt? name row col).map g.cell

/-- The cell with a value and a colour; the identity mark and the colour index only change if they
are given. -/
def paintCell (c : Cell) (value : Number) (color : Option Text) (isIdentity : Option Bool)
    (colorIndex : Option Int) : Cell :=
  { c with
    value, color
    isIdentity := isIdentity.getD c.isIdentity
    colorIndex := colorIndex.or c.colorIndex }

/-- The graph with a cell of a matrix painted, if there is such a position. -/
def update? (g : Graph) (name : Text) (row col : Int) (value : Number) (color : Option Text)
    (isIdentity : Option Bool) (colorIndex : Option Int) : Option Graph :=
  (g.idAt? name row col).map fun id =>
    g.modify id fun c => paintCell c value color isIdentity colorIndex

/-- The graph with a cell of a matrix painted; unchanged if there is no such position. -/
def update (g : Graph) (name : Text) (row col : Int) (value : Number) (color : Option Text)
    (isIdentity : Option Bool) (colorIndex : Option Int) : Graph :=
  (g.update? name row col value color isIdentity colorIndex).getD g

/-- The cell with nothing painted on it; its colour index stays. -/
def wipeCell (c : Cell) : Cell :=
  { c with value := .int 0, color := none, isIdentity := false }

/-- The graph with nothing painted on the cells of a matrix. -/
def wipe (g : Graph) (name : Text) : Graph :=
  match g.matrices[name]? with
  | some b => (g.ids b).foldl (fun g id => g.modify id wipeCell) g
  | none => g

/-! ## Lineage -/

/-- Records that `target` was derived from `source`, if both are cells of the graph. -/
def link (g : Graph) (target source : CellId) : Graph :=
  if g.nodes.contains target && g.nodes.contains source then
    (g.modify target fun c => { c with dependencies := appendNew c.dependencies source }).modify
      source fun c => { c with dependents := appendNew c.dependents target }
  else g

/-- Records that `target` was derived from all of `sources`, in order. -/
def linkAll (g : Graph) (target : CellId) (sources : List CellId) : Graph :=
  sources.foldl (fun g source => g.link target source) g

/-- Forgets what the cell was derived from. -/
def unlinkCell (g : Graph) (id : CellId) : Graph :=
  let sources := (g.cell id).dependencies
  let g := sources.foldl (fun g source =>
    g.modify source fun c => { c with dependents := c.dependents.erase id }) g
  g.modify id fun c => { c with dependencies := [] }

/-- Forgets what the cells of a matrix were derived from. -/
def unlink (g : Graph) (name : Text) : Graph :=
  match g.matrices[name]? with
  | some b => (g.ids b).foldl unlinkCell g
  | none => g

/-- What a cell was derived from, if there is one with the id. -/
def directDependencies (g : Graph) (id : CellId) : List CellId :=
  (g.cell id).dependencies

/-! ## Intermediate results -/

/-- The graph after a new name for an intermediate result was taken, and the name. -/
def nextTemporary (g : Graph) : Text × Graph :=
  let k := g.temporaries + 1
  ("_TEMP_" ++ toString k, { g with temporaries := k })

/-- Says which expression a matrix holds. -/
def setDescription (g : Graph) (name expression : Text) : Graph :=
  { g with descriptions := g.descriptions.insert name expression }

end Graph

end CellLineage
