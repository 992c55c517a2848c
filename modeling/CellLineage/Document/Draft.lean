import CellLineage.Document.Reader

/-!
# Drafts of documents

A draft holds what a new document is to say before it is checked. Its parts are made one after
another, the sizes first, and the first part with problems decides; the problems of one part are
reported together, and their ways start at that part.
-/

namespace CellLineage.Document

open Checked

/-- What a new document is to say. -/
structure Draft where
  timestamp : Text
  formula : Datum
  rows : Datum
  cols : Datum
  symmetric : Datum
  mirror : Datum
  iterations : Datum
  matrixDimensions : Association (Datum × Datum)
  matrices : Association (List Entry)

/-- The sizes that two data stand for. -/
def checkSizes (rows cols : Datum) : Except (List Problem) Dimensions :=
  (Dimensions.read (.object [("rows", rows), ("cols", cols)])).toExcept

/-- The sizes of single matrices. -/
def checkAllSizes : Association (Datum × Datum) → Except (List Problem) (Association Dimensions)
  | [] => .ok []
  | (name, rows, cols) :: sizes => do
    let dimensions ← checkSizes rows cols
    return (name, dimensions) :: (← checkAllSizes sizes)

/-- The document of a draft. -/
def Draft.document (d : Draft) : Except (List Problem) Document := do
  let dimensions ← checkSizes d.rows d.cols
  let modes : Fields := [("symmetric", d.symmetric), ("mirror", d.mirror)]
  let configuration ← (Configuration.read (.object modes)).toExcept
  let matrixDimensions ← checkAllSizes d.matrixDimensions
  let contents : Contents := ⟨some d.timestamp, dimensions, configuration, d.matrices⟩
  (((fun formula iterations => ofThird contents formula iterations matrixDimensions) <$>
    behind (.field "formula") (text d.formula) <*>
      behind (.field "iterations") (atLeast 1 d.iterations) : Checked Document)).toExcept

end CellLineage.Document
