import CellLineage.Document.Version

/-!
# Writing documents as data

A document is written as an object of the current version with all its fields.
-/

namespace CellLineage.Document

/-- Two sizes as data. -/
def Dimensions.toDatum (d : Dimensions) : Datum :=
  .object [("rows", .int d.rows), ("cols", .int d.cols)]

/-- The paint modes as data. -/
def Configuration.toDatum (c : Configuration) : Datum :=
  .object [("symmetric", .bool c.symmetric), ("mirror", .bool c.mirror)]

/-- A painted cell as data. -/
def Entry.toDatum (e : Entry) : Datum :=
  .object [("row", .int e.row), ("col", .int e.col), ("value", .number e.value),
    ("color", .ofText? e.color), ("isIdentity", .bool e.isIdentity)]

/-- The painted cells of a matrix as data. -/
def entriesToDatum (entries : List Entry) : Datum :=
  .list (entries.map Entry.toDatum)

/-- A document as data. -/
def toDatum (doc : Document) : Datum :=
  .object [("timestamp", .ofText? doc.timestamp), ("dimensions", doc.dimensions.toDatum),
    ("configuration", doc.configuration.toDatum),
    ("matrices", .object (doc.matrices.map fun m => (m.1, entriesToDatum m.2))),
    ("version", .int Version.current.number), ("formula", .text doc.formula),
    ("iterations", .int doc.iterations),
    ("matrixDimensions", .object (doc.matrixDimensions.map fun m => (m.1, m.2.toDatum)))]

end CellLineage.Document
