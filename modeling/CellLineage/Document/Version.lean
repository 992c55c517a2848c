import CellLineage.Document.Basic
import CellLineage.Datum.Basic

/-!
# Versions of documents

Documents of older versions say less, and what they leave out is implied. The first version has one
fixed layout: a left, a kernel and a right matrix, the kernel with its sizes swapped, and the
product of the three as formula. The second version adds the formula, and all its matrices have the
sizes of the document. The third and current one adds sizes for single matrices, the number of
iterations and identity cells.

`Document.ofFirst` and `Document.ofSecond` say in a current document what an older one says.
-/

namespace CellLineage.Document

/-- The versions that can be read. -/
inductive Version where
  | first
  | second
  | third
  deriving DecidableEq, Repr

namespace Version

/-- The version of documents that are written. -/
def current : Version := third

/-- The number of a version. -/
def number : Version → Nat
  | first => 1
  | second => 2
  | third => 3

/-- The version that a datum names: a whole number, and nothing else, does. -/
def ofDatum? : Datum → Option Version
  | .number (.int n) => [first, second, third].find? fun v => (v.number : Int) == n
  | _ => none

/-- Each version is named by its number. -/
theorem ofDatum?_number (v : Version) : ofDatum? (.int v.number) = some v := by
  cases v <;> rfl

end Version

/-- The left matrix of the fixed layout. -/
def leftName : Text := "S_left"

/-- The kernel of the fixed layout. -/
def kernelName : Text := "K"

/-- The right matrix of the fixed layout. -/
def rightName : Text := "S_right"

/-- The formula of the fixed layout. -/
def layoutFormula : Text := leftName ++ "*" ++ kernelName ++ "*" ++ rightName

/-- The current document for a document of the first version; matrices outside the layout are
dropped. -/
def ofFirst (c : Contents) : Document where
  timestamp := c.timestamp
  dimensions := c.dimensions
  configuration := c.configuration
  matrices := [leftName, kernelName, rightName].map fun name =>
    (name, (c.matrices.lookup name).getD [])
  formula := layoutFormula
  iterations := 1
  iterations_pos := Nat.le_refl 1
  matrixDimensions :=
    [(leftName, c.dimensions), (kernelName, c.dimensions.swap), (rightName, c.dimensions)]

/-- The current document for a document of the second version. -/
def ofSecond (c : Contents) (formula : Text) : Document where
  toContents := c
  formula := formula
  iterations := 1
  iterations_pos := Nat.le_refl 1
  matrixDimensions := c.matrices.map fun m => (m.1, c.dimensions)

/-- The current document with all its parts. -/
def ofThird (c : Contents) (formula : Text) (iterations : { n : Nat // 1 ≤ n })
    (matrixDimensions : Association Dimensions) : Document where
  toContents := c
  formula := formula
  iterations := iterations.1
  iterations_pos := iterations.2
  matrixDimensions := matrixDimensions

end CellLineage.Document
