import CellLineage.Association
import CellLineage.Number.Basic

/-!
# Documents

A document says everything that is needed to set up a workspace again: the formula, the sizes, the
paint modes, the number of iterations and what is painted on the input matrices. It lists painted
cells only; a cell that is not listed is blank, and results are not listed at all, since they can be
computed again.

Sizes and counts in a document are at least one, and the types say so; that sizes are not too large
and that cells lie inside their matrices is checked when a document is loaded.
-/

namespace CellLineage

/-- The two sizes of a matrix. -/
structure Document.Dimensions where
  rows : Nat
  cols : Nat
  rows_pos : 1 ≤ rows
  cols_pos : 1 ≤ cols
  deriving DecidableEq, Repr

/-- What is painted at a position of a matrix. -/
structure Document.Entry where
  row : Nat
  col : Nat
  value : Number
  color : Option Text
  isIdentity : Bool

/-- The paint modes. -/
structure Document.Configuration where
  /-- Painting a cell also paints the one across the diagonal. -/
  symmetric : Bool
  /-- The right matrix follows the left one. -/
  mirror : Bool
  deriving DecidableEq, Repr

/-- What documents of all versions hold. -/
structure Document.Contents where
  timestamp : Option Text
  /-- The shape of a matrix that has none of its own. -/
  dimensions : Document.Dimensions
  configuration : Document.Configuration
  matrices : Association (List Document.Entry)

/-- A document of the current version. -/
structure Document extends Document.Contents where
  formula : Text
  iterations : Nat
  iterations_pos : 1 ≤ iterations
  /-- The shapes of single matrices. -/
  matrixDimensions : Association Document.Dimensions

namespace Document

/-- The sizes as a pair. -/
def Dimensions.shape (d : Dimensions) : Nat × Nat :=
  (d.rows, d.cols)

/-- The sizes of the transposed matrix. -/
def Dimensions.swap (d : Dimensions) : Dimensions :=
  ⟨d.cols, d.rows, d.cols_pos, d.rows_pos⟩

/-- The position lies inside a matrix of these sizes. -/
def Entry.isInside (e : Entry) (d : Dimensions) : Bool :=
  e.row < d.rows && e.col < d.cols

/-- The paint modes unless others are set. -/
def Configuration.standard : Configuration :=
  ⟨false, false⟩

/-- The sizes of a matrix: its own, else those for all matrices. -/
def dimensionsOf (doc : Document) (name : Text) : Dimensions :=
  (doc.matrixDimensions.lookup name).getD doc.dimensions

end Document

end CellLineage
