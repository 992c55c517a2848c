import CellLineage.Graph.Basic

/-!
# Products with lineage

The product of two matrices is formed cell by cell. Only pairs of cells that are both not zero count
(`Dot.step`), for the value as well as for the lineage. A cell of the product derives from the cells
of the pairs that count and from all that these derive from. Identity cells are transparent: an
identity cell of a pair is left out of the lineage, and a pair of two of them leaves nothing there.

The product may go to a matrix that is one of the operands. Its cells are then overwritten while the
product is formed, and later cells are formed from what was written.

## Main definitions

* `Issue`: why two matrices have no product.
* `Graph.dot`: what one cell of a product holds.
* `Graph.multiply`: the product of two matrices.
-/

namespace CellLineage

/-- Why a step of an evaluation has no result. -/
inductive Issue where
  /-- The columns of the left matrix are not as many as the rows of the right one. -/
  | mismatch (left right : Text) (leftShape rightShape : Nat × Nat)
  /-- There is no matrix of the name. -/
  | missing (name : Text)
  deriving DecidableEq, Repr

namespace Issue

/-- A shape as it is shown. -/
def showShape (shape : Nat × Nat) : String :=
  "(" ++ toString shape.1 ++ "x" ++ toString shape.2 ++ ")"

/-- The issue in words. -/
def message : Issue → Text
  | .mismatch left right leftShape rightShape =>
    "Cannot multiply " ++ left ++ " " ++ showShape leftShape ++ " with " ++ right ++ " " ++
      showShape rightShape
  | .missing name => "Unknown matrix: " ++ name

end Issue

/-- A computation on a graph that may stop; what it has done until then stays done. -/
abbrev Graph.Run (α : Type) := EStateM Graph.Fault Graph α

/-- What a cell of a product holds so far: its value, how many pairs counted, how many of these were
pairs of identity cells, and what it derives from. -/
structure Dot where
  total : Number
  pairs : Nat
  identityPairs : Nat
  sources : List CellId

namespace Dot

/-- A cell of a product before any pair. -/
def zero : Dot :=
  ⟨.int 0, 0, 0, []⟩

/-- The sources with what one cell of a pair adds. With `leafOnly` a cell that is itself derived
passes on what it derives from, but not its own id. -/
def addSource (leafOnly : Bool) (sources : List CellId) (c : Cell) : List CellId :=
  if c.isIdentity then sources
  else
    let sources := if leafOnly && !c.dependencies.isEmpty then sources else appendNew sources c.id
    appendAllNew sources c.dependencies

/-- The cell of a product after one more pair, unless a number is too large. -/
def step (leafOnly : Bool) (d : Dot) (a b : Cell) : Option Dot :=
  if a.value.isNonzero && b.value.isNonzero then do
    let total ← d.total.add? (← a.value.mul? b.value)
    if a.isIdentity && b.isIdentity then
      return { d with total, pairs := d.pairs + 1, identityPairs := d.identityPairs + 1 }
    else
      let sources := addSource leafOnly (addSource leafOnly d.sources a) b
      return { d with total, pairs := d.pairs + 1, sources }
  else some d

/-- The cell is an identity cell: pairs counted, all of them of identity cells, and the value is
one. -/
def isIdentity (d : Dot) : Bool :=
  0 < d.pairs && d.pairs == d.identityPairs && d.total.isOne

end Dot

namespace Graph

/-- What a cell of a product holds, from the ids of a row and of a column. -/
def dot (g : Graph) (leafOnly : Bool) (row column : List CellId) : Option Dot :=
  (row.zip column).foldlM (fun d p => d.step leafOnly (g.cell p.1) (g.cell p.2)) Dot.zero

/-- The graph with a cell that holds an entry of a product. -/
def writeDot (g : Graph) (id : CellId) (d : Dot) : Graph :=
  (g.modify id fun c => { c with value := d.total, isIdentity := d.isIdentity }).linkAll id d.sources

/-- The ids of a row of a block. -/
def row (g : Graph) (b : Block) (i : Nat) : List CellId :=
  (List.range b.cols).map fun j => g.idAt b i j

/-- The ids of a column of a block. -/
def column (g : Graph) (b : Block) (j : Nat) : List CellId :=
  (List.range b.rows).map fun i => g.idAt b i j

/-- Makes a matrix ready for results of a shape: one that has the shape forgets what it was derived
from, any other one is made anew. -/
def prepare (g : Graph) (name : Text) (rows cols : Nat) (hr : 0 < rows) (hc : 0 < cols) : Graph :=
  if g.shape? name = some (rows, cols) then g.unlink name else g.addMatrix name rows cols hr hc

/-- Forms one cell of a product. -/
def multiplyAt (leafOnly : Bool) (left right result : Block) (p : Nat × Nat) : Run Unit := do
  let g ← get
  match g.dot leafOnly (g.row left p.1) (g.column right p.2) with
  | none => throw .overflow
  | some d => set (g.writeDot (g.idAt result p.1 p.2) d)

/-- The product of two matrices as a third one, which may be one of the two. Where there is none,
nothing changes. -/
def multiply (left right result : Text) (leafOnly : Bool) : Run (Option Issue) := do
  let g ← get
  match g.matrices[left]?, g.matrices[right]? with
  | none, _ => return some (.missing left)
  | some _, none => return some (.missing right)
  | some l, some r =>
    if l.cols ≠ r.rows then return some (.mismatch left right l.shape r.shape)
    else
      let g := g.prepare result l.rows r.cols l.rows_pos r.cols_pos
      set g
      match g.matrices[result]? with
      | none => return none
      | some b =>
        b.positions.forM (multiplyAt leafOnly l r b)
        return none

end Graph

end CellLineage
