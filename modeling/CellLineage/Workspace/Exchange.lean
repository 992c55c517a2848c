import CellLineage.Document.Draft
import CellLineage.Document.Writer
import CellLineage.Json.Writer
import CellLineage.Text.Line
import CellLineage.Workspace.Paint
import CellLineage.Workspace.Recompute

/-!
# Workspaces and documents

A workspace can be written as a document, and a document can be opened as a workspace: the matrices
of the document are declared and painted, its formula is taken and evaluated. Of the workspace that
imports it, the new one takes the output matrix and the size limit only, and it is made beside the
old one. So an import either replaces the whole workspace or changes nothing.

## Main definitions

* `Workspace.document`, `Workspace.fileText`: writing.
* `Workspace.ofDocument`: the workspace that a document describes.
* `Workspace.importDocument`, `Workspace.load`: reading.
-/

namespace CellLineage.Workspace

open Formula

/-! ## Writing -/

/-- The painted cells of a matrix that are not zero. -/
def entries (w : Workspace) (name : Text) : List Document.Entry :=
  ((w.graph.cells name).filter fun c => c.value.isNonzero).map fun c =>
    ⟨c.row.toNat, c.col.toNat, c.value, c.color, c.isIdentity⟩

/-- The workspace as a draft of a document. -/
def draft (w : Workspace) (timestamp : Text) : Document.Draft where
  timestamp := timestamp
  formula := w.formula
  rows := w.rows
  cols := w.cols
  symmetric := w.symmetric
  mirror := w.mirror
  iterations := w.iterations
  matrixDimensions := w.shapes.map fun s => (s.1, .int (s.2.1 : Nat), .int (s.2.2 : Nat))
  matrices := w.baseMatrices.map fun name => (name, w.entries name)

/-- The workspace as a document. -/
def document (w : Workspace) (timestamp : Text) : Except Fault Document :=
  (w.draft timestamp).document.mapError Fault.problems

/-- The JSON text of a document; numbers with too many digits cannot be written. -/
def textOf (doc : Document) : Except Fault String :=
  let d := doc.toDatum
  if d.isShowable then .ok (Json.write d) else .error .oversized

/-- The text of a file that holds the workspace. -/
def fileText (w : Workspace) (timestamp : Text) : Except Fault String := do
  textOf (← w.document timestamp)

/-! ## Reading -/

/-- Declares a matrix in the sizes of a document. -/
def declareSized (name : Text) (d : Document.Dimensions) : Run Unit :=
  declare name (some (.int d.rows)) (some (.int d.cols))

/-- Declares a matrix of a document and paints its cells. -/
def addMatrix (doc : Document) (name : Text) (entries : List Document.Entry) : Run Unit := do
  declareSized name (doc.dimensionsOf name)
  modify fun w => entries.foldl (fun w e =>
    w.update name e.row e.col e.value e.color (some e.isIdentity)) w

/-- What a new workspace begins with that is to hold a document. -/
def settingsFor (doc : Document) (output : Datum) (sizeLimit : Datum) : Settings where
  rows := .int doc.dimensions.rows
  cols := .int doc.dimensions.cols
  symmetric := .bool doc.configuration.symmetric
  mirror := .bool doc.configuration.mirror
  iterations := .int doc.iterations
  output := output
  sizeLimit := sizeLimit

/-- Brings a document into a new workspace. -/
def enter (doc : Document) : Run Unit := do
  doc.matrixDimensions.forM fun m => declareSized m.1 m.2
  doc.matrices.forM fun m => addMatrix doc m.1 m.2
  setFormula (.text doc.formula)
  let _ ← recompute

/-- The workspace that a document describes. -/
def ofDocument (doc : Document) (output sizeLimit : Datum) : Except Fault Workspace := do
  after (enter doc) (← make (settingsFor doc output sizeLimit))

/-- Why a document cannot be opened with the output matrix: its formula uses that. -/
def conflict? (doc : Document) (output : Datum) : Except Fault (Option Document.Refusal) := do
  let plan ← readFormula (.text doc.formula)
  let name ← outputFor plan output
  return if plan.uses name then some (.formula doc.formula (.usesOutput name)) else none

/-- The workspace after an import, or why the document is refused. -/
def importDocument (w : Workspace) (source : Document.Source) :
    Except Fault (Except Document.Refusal Workspace) :=
  match Document.load source w.sizeLimit with
  | .ok doc => do
    match ← conflict? doc w.output with
    | some why => return .error why
    | none => return .ok (← ofDocument doc w.output w.sizeLimit)
  | .error (.refused why) => .ok (.error why)
  | .error .oversized => .error .oversized
  | .error (.index e) => .error (.graph (.index e))
  | .error (.limit e) => .error (.size e)

/-- A new workspace with the content of a file, whatever its line ends are. -/
def load (text : String) (settings : Settings) : Except Fault Workspace := do
  match ← (← make settings).importDocument (.text (Text.withLineFeeds text)) with
  | .ok w => return w
  | .error why => throw (.refused why)

end CellLineage.Workspace
