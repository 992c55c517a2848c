import CellLineage.Graph.Product

/-!
# Transposes, instances and copies

A matrix can be written onto another one cell by cell, with its lineage (`Graph.transferCell`): each
cell written takes over what is painted on its source and derives from all that the source derives
from, and, unless it only replaces the source, from the source itself.

## Main definitions

* `Graph.transpose`: the transpose of a matrix, in a matrix of its own.
* `Graph.instantiate`: a fresh matrix for one occurrence of a matrix in a formula.
* `Graph.copy`: a matrix put in place of another one.
-/

namespace CellLineage.Graph

/-- The graph with the cell `target` written from the cell `source`. -/
def transferCell (g : Graph) (withIndex withSelf : Bool) (source target : CellId) : Graph :=
  let s := g.cell source
  let g := g.modify target fun c =>
    { c with
      value := s.value
      color := s.color
      colorIndex := if withIndex then s.colorIndex else c.colorIndex
      isIdentity := s.isIdentity }
  let g := if withSelf then g.link target source else g
  g.linkAll target (g.cell source).dependencies

/-- The name that the transpose of a matrix goes to. -/
def transposeName (name : Text) : Text :=
  name ++ "_T"

/-- The transpose of a matrix and its name, if there is such a matrix. Each cell derives from its
source and from what the source derives from. -/
def transpose (g : Graph) (name : Text) : Option (Text × Graph) :=
  g.matrices[name]?.map fun s =>
    let target := transposeName name
    let g := g.prepare target s.cols s.rows s.cols_pos s.rows_pos
    match g.matrices[target]? with
    | none => (target, g)
    | some t =>
      (target, s.positions.foldl (fun g p =>
        g.transferCell false true (g.idAt s p.1 p.2) (g.idAt t p.2 p.1)) g)

/-- The graph with the block `t` written from the block `s` of the same shape. -/
def transferBlock (g : Graph) (withSelf : Bool) (s t : Block) : Graph :=
  s.positions.foldl (fun g p =>
    g.transferCell true withSelf (g.idAt s p.1 p.2) (g.idAt t p.1 p.2)) g

/-- A fresh matrix `target` that holds what the matrix `source` holds, if there is one. Each cell
derives from its source and from what the source derives from. -/
def instantiate (g : Graph) (source target : Text) : Option Graph :=
  g.matrices[source]?.map fun s =>
    let g := g.addMatrix target s.rows s.cols s.rows_pos s.cols_pos
    match g.matrices[target]? with
    | none => g
    | some t => g.transferBlock true s t

/-- The matrix `target` in the shape and with the contents of the matrix `source`, if there is one.
Each cell derives from what its source derives from. -/
def copy (g : Graph) (source target : Text) : Option Graph :=
  g.matrices[source]?.map fun s =>
    let g := g.prepare target s.rows s.cols s.rows_pos s.cols_pos
    match g.matrices[target]? with
    | none => g
    | some t => g.transferBlock false s t

end CellLineage.Graph
