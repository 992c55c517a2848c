import CellLineage.Evaluation.Shape
import CellLineage.Workspace.Basic

/-!
# Computing in a workspace

The settings of an evaluation are made from those of the workspace, and checked, each time the
formula is evaluated. The shapes that an evaluation would have are found without changing anything.
-/

namespace CellLineage.Workspace

/-- The settings of an evaluation; the name of the output matrix is looked at last. -/
def config (w : Workspace) : Except Fault Config := do
  let config ← (Config.make defaultOutput w.iterations
    (w.shapes.map fun s => (s.1, .int (s.2.1 : Nat), .int (s.2.2 : Nat)))
    w.rows w.cols w.sizeLimit (.int Size.defaultLimit)).mapError .size
  return { config with output := ← outputFor w.plan w.output }

/-- The outcome as a workspace shows it: an output matrix whose name counts as false has no shape,
and one that is called by nothing is none. -/
def shown (output : Datum) (o : Outcome) : Outcome :=
  match output with
  | .null => { o with output? := none, shape? := none }
  | _ => if output.isTruthy then o else { o with shape? := none }

/-- Evaluates the formula from what is painted. -/
def recompute : Run Outcome := do
  let w ← get
  let config ← rethrow w.config
  let outcome := shown w.output (← liftGraph (Graph.recompute w.plan config))
  modify fun w => { w with last? := some outcome }
  return outcome

/-- The shape of the output and what is wrong with the shapes of the factors. -/
def shapeCheck (w : Workspace) : Except Fault ShapeCheck := do
  let config ← w.config
  (ShapeCheck.ofPlan w.plan config).mapError .graph

end CellLineage.Workspace
