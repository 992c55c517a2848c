import CellLineage.Document.Loading
import CellLineage.Evaluation.Recompute
import CellLineage.Json.Writer

/-!
# Workspaces

A workspace is a graph together with the formula that is computed in it and the settings for that.
The input matrices of the formula are *declared*: they have a shape and a matrix in the graph that
can be painted. When the formula changes, matrices that it no longer reads lose their declaration
and new ones are declared in the sizes of the workspace.

The settings of a workspace may be set to anything, so most of them are untyped. The sizes are
checked against their limit wherever a matrix is made in them, the number of iterations wherever the
formula is evaluated, and a paint mode is on if its datum counts as true. The formula is untyped
too, but the plan is always one that was read from a text: a formula that counts as false is taken
as the blank one, and one that is neither false nor a text leaves the plan as it was. The output
matrix may be called by anything that is not a list or an object (`Workspace.matrixName?`).

An operation that stops keeps what it did before.

## Main definitions

* `Workspace`, `Settings`, `Workspace.make`: a workspace and how it begins.
* `Workspace.setFormula`: another formula.
* `Workspace.declare`, `Workspace.resize`: the shapes of input matrices.
-/

namespace CellLineage

open Formula

/-- A formula, its input matrices and the graph that holds them. -/
structure Workspace where
  formula : Datum
  /-- What the formula says. -/
  plan : Plan
  /-- The sizes of a new input matrix. -/
  rows : Datum
  cols : Datum
  /-- Painting a cell of a square matrix also paints the one across the diagonal. -/
  symmetric : Datum
  /-- The right matrix of the fixed layout follows the left one. -/
  mirror : Datum
  iterations : Datum
  /-- What the matrix that results go to is called. -/
  output : Datum
  /-- The largest size of a matrix. -/
  sizeLimit : Datum
  /-- The declared matrices and their shapes. -/
  shapes : Shapes
  /-- What the last recompute left. -/
  last? : Option Outcome
  graph : Graph

/-- What a workspace begins with. -/
structure Settings where
  formula : Datum := .text ""
  rows : Datum := .int 5
  cols : Datum := .int 5
  symmetric : Datum := .bool false
  mirror : Datum := .bool false
  iterations : Datum := .int 1
  output : Datum := .text defaultOutput
  sizeLimit : Datum := .int Size.defaultLimit

/-- Why an operation on a workspace stops. -/
inductive Workspace.Fault where
  | size (what : SizeFault)
  | graph (what : Graph.Fault)
  /-- There is no such position in the matrix. -/
  | noCell (name : Text) (row col : Int)
  | noMatrix (name : Text)
  /-- The lists to load are not regular, or hold a text. -/
  | irregular
  /-- The lists to load hold an object. -/
  | foreign
  /-- The lists to load do not have two levels. -/
  | levels (name : Text) (n : Nat)
  /-- The workspace cannot be written as a document. -/
  | problems (what : List Document.Problem)
  /-- A whole number has too many digits to be read or written. -/
  | oversized
  | refused (why : Document.Refusal)
  /-- The formula is no text. -/
  | formula (given : Datum)
  /-- No matrix can be called that. -/
  | output (given : Datum)

namespace Workspace

/-- The fault in words. -/
def Fault.message : Fault → Text
  | .size what => what.message
  | .graph what => what.message
  | .noCell name row col =>
    "No cell (" ++ toString row ++ ", " ++ toString col ++ ") in matrix " ++ Text.quoted name
  | .noMatrix name => "Unknown matrix " ++ Text.quoted name
  | .irregular => "The rows are not regular lists of numbers"
  | .foreign => "The rows hold an object"
  | .levels name n =>
    "Expected a 2D array for " ++ Text.quoted name ++ ", got " ++ toString n ++ "D"
  | .problems what => Document.countErrors what.length
  | .oversized => "A whole number has too many digits"
  | .refused why => why.message
  | .formula given => "A formula is a text, got " ++ given.display
  | .output given => "No matrix can be called " ++ given.display

/-- An operation on a workspace that may stop; what it did before is kept. -/
abbrev Run := EStateM Fault Workspace

/-- The stem of the ids in a workspace. -/
def stem : String := "elem"

/-! ## Lifting -/

variable {α : Type}

/-- Stops at a size that is not allowed. -/
def liftSize : Except SizeFault α → Run α
  | .ok a => pure a
  | .error e => throw (.size e)

/-- Stops at a fault. -/
def rethrow : Except Fault α → Run α
  | .ok a => pure a
  | .error e => throw e

/-- Runs an operation on the graph. -/
def liftGraph (run : Graph.Run α) : Run α := fun w =>
  match run w.graph with
  | .ok a g => .ok a { w with graph := g }
  | .error e g => .error (.graph e) { w with graph := g }

/-- Changes the graph. -/
def modifyGraph (f : Graph → Graph) : Run Unit :=
  modify fun w => { w with graph := f w.graph }

/-! ## Declared matrices -/

/-- The names of the declared matrices in ascending order. -/
def baseMatrices (w : Workspace) : List Text :=
  sortedNames w.shapes.names

/-- Makes a matrix of blank cells. -/
def initMatrix (name : Text) (shape : Nat × Nat) : Run Unit :=
  liftGraph do Graph.liftGraph ((← get).initMatrix name shape.1 shape.2)

/-- Declares a matrix in the given sizes, and in those of the workspace where none are given. A
declared matrix stays as it is, and so does a matrix that the graph has already. -/
def declare (name : Text) (rows? cols? : Option Datum) : Run Unit := do
  let w ← get
  if (w.shapes.lookup name).isSome then return
  let shape ← liftSize (Size.check (rows?.getD w.rows) (cols?.getD w.cols) w.sizeLimit)
  set { w with shapes := w.shapes.put name shape }
  if !w.graph.hasMatrix name then initMatrix name shape

/-- Declares a matrix in other sizes and keeps the cells that still fit. -/
def resize (name : Text) (rows cols : Datum) : Run Unit := do
  let w ← get
  let shape ← liftSize (Size.check rows cols w.sizeLimit)
  set { w with shapes := w.shapes.put name shape }
  match w.graph.snapshot? name with
  | none => initMatrix name shape
  | some s =>
    if (s.rows, s.cols) ≠ shape then
      liftGraph do Graph.liftGraph ((← get).restore s shape.1 shape.2)

/-! ## Formulas -/

/-- The name of a matrix that is called by a datum: a text is the name itself, and nothing, a truth
value or a number has its JSON text as a name. -/
def matrixName? : Datum → Option Text
  | .text t => some t
  | .list _ => none
  | .object _ => none
  | d => some (Json.write d)

/-- The name of the output matrix, which matters only to a plan that is well-formed. -/
def outputFor (plan : Plan) (output : Datum) : Except Fault Text :=
  match matrixName? output with
  | some name => .ok name
  | none => if plan.fault?.isSome then .ok defaultOutput else .error (.output output)

/-- The plan of a formula. -/
def readFormula (formula : Datum) : Except Fault Plan :=
  match formula.textOrBlank? with
  | some t => (Plan.read t).mapError fun e => .graph (.index e)
  | none => .error (.formula formula)

/-- Declares the input matrices of the plan and no others. -/
def declareBases (plan : Plan) : Run Unit := do
  let bases := plan.baseMatrices
  modify fun w => { w with shapes := w.shapes.keep fun name => bases.contains name }
  bases.forM fun name => declare name none none

/-- Takes another formula. If it cannot be run, the declared matrices stay as they are. -/
def setFormula (formula : Datum) : Run Unit := do
  modify fun w => { w with formula }
  let plan ← rethrow (readFormula formula)
  modify fun w => { w with plan }
  let output ← rethrow (outputFor plan (← get).output)
  if (plan.obstacle? output).isNone then declareBases plan

/-! ## New workspaces -/

/-- The workspace with the given settings and no formula yet. -/
def blank (s : Settings) : Workspace where
  formula := .text ""
  plan := .blank ""
  rows := s.rows
  cols := s.cols
  symmetric := s.symmetric
  mirror := s.mirror
  iterations := s.iterations
  output := s.output
  sizeLimit := s.sizeLimit
  shapes := []
  last? := none
  graph := .empty stem

/-- The workspace that an operation leaves, if it does not stop. -/
def after (run : Run Unit) (w : Workspace) : Except Fault Workspace :=
  match run w with
  | .ok _ w => .ok w
  | .error e _ => .error e

/-- A workspace with the given settings: the sizes are checked first, then the number of iterations,
then the formula is taken. -/
def make (s : Settings) : Except Fault Workspace :=
  after (do
    let _ ← liftSize (Size.check s.rows s.cols s.sizeLimit)
    let _ ← liftSize (Config.checkIterations (.int Size.defaultLimit) s.iterations)
    setFormula s.formula) (blank s)

/-- The workspace in one line. -/
def describe (w : Workspace) : String :=
  "<Workspace formula=" ++ w.formula.render ++ " matrices=" ++
    (Datum.list (w.baseMatrices.map .text)).render ++ ">"

end Workspace

end CellLineage
