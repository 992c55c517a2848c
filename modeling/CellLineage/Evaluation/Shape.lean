import CellLineage.Evaluation.Recompute

/-!
# Predicting shapes

The shape of what a plan computes follows from the shapes of its input matrices alone. The
prediction goes through the plan as a recompute does, with a table of shapes in place of a graph,
and meets the same issues.
-/

namespace CellLineage

open Formula

/-- What a prediction says: the shape of the output, the issues that a recompute would meet, or what
stands in the way of running the plan. -/
structure ShapeCheck where
  shape? : Option (Nat × Nat)
  issues : List Issue
  obstacle? : Option Plan.Obstacle
  deriving DecidableEq, Repr

namespace ShapeCheck

/-- The prediction for a plan that cannot be run. -/
def blocked (obstacle : Plan.Obstacle) : ShapeCheck :=
  ⟨none, [], some obstacle⟩

/-- Nothing would go wrong. -/
def isOk (c : ShapeCheck) : Bool :=
  c.obstacle?.isNone && c.issues.isEmpty

/-- What would go wrong, in words. -/
def messages (c : ShapeCheck) : List Text :=
  match c.obstacle? with
  | some obstacle => [obstacle.message]
  | none => c.issues.map Issue.message

/-- The shape of a product, and the issues that its evaluation meets. -/
def shapeOf (shapes : Shapes) : Product → Option (Nat × Nat) × List Issue
  | .single r =>
    match shapes.lookup r.name with
    | none => (none, [.missing r.name])
    | some (rows, cols) => (some (if r.transposed then (cols, rows) else (rows, cols)), [])
  | .times p q =>
    match shapeOf shapes p, shapeOf shapes q with
    | (some l, pi), (some r, qi) =>
      if l.2 = r.1 then (some (l.1, r.2), pi ++ qi)
      else (none, pi ++ qi ++ [.mismatch p.display q.display l r])
    | (_, pi), (_, qi) => (none, pi ++ qi)

/-- What the prediction for an iterative plan has come to: the shapes known, the last one computed
and the issues. -/
structure Progress where
  shapes : Shapes
  last? : Option (Nat × Nat)
  issues : List Issue

/-- The shape of the product of a statement at index `n`. -/
def shapeOfStatement (p : Product) (n : Int) (progress : Progress) :
    Except IndexFault (Option (Nat × Nat) × Progress) := do
  let (shape?, issues) := shapeOf progress.shapes (← p.resolve n progress.shapes.names)
  return (shape?, { progress with issues := progress.issues ++ issues })

/-- Gives a matrix its shape. -/
def record (name : Text) (shape : Nat × Nat) (progress : Progress) : Progress :=
  { progress with shapes := progress.shapes.put name shape, last? := some shape }

/-- Goes through base cases in order; one without a shape is passed over. -/
def runBaseCases : List Statement → Progress → Except IndexFault Progress
  | [], progress => .ok progress
  | s :: ss, progress =>
    match s.product? with
    | none => runBaseCases ss progress
    | some p => do
      let (shape?, progress) ← shapeOfStatement p 0 progress
      match shape? with
      | none => runBaseCases ss progress
      | some shape => runBaseCases ss (record s.target.name shape progress)

/-- Goes through up to `count` applications of the recurrence, the first for the member at
`index`. -/
def runRecurrence (target : Reference) (p : Product) :
    (count : Nat) → (index : Int) → Progress → Except IndexFault Progress
  | 0, _, progress => .ok progress
  | count + 1, index, progress => do
    let (shape?, progress) ← shapeOfStatement p (index - Graph.targetOffset target) progress
    match shape? with
    | none => return progress
    | some shape =>
      let name ← memberName? target.base index
      runRecurrence target p count (index + 1) (record name shape progress)

/-- The index after the last member of a family. -/
def nextIndex (shapes : Shapes) (base : Text) : Except IndexFault Int := do
  match (← memberIndices shapes.names base).getLast? with
  | some last => return (last : Int) + 1
  | none => return 0

/-- The shapes of the input matrices that a plan reads. -/
def inputShapes (plan : Plan) (config : Config) : Shapes :=
  plan.baseMatrices.map fun name => (name, config.declaredShape name)

/-- The prediction for an iterative plan. -/
def runIterative (plan : IterativePlan) (config : Config) (shapes : Shapes) :
    Except Graph.Fault ShapeCheck := do
  let progress ← (runBaseCases plan.baseCases ⟨shapes, none, []⟩).mapError .index
  let progress ← match plan.recurrence? with
    | none => pure progress
    | some s =>
      match s.product? with
      | none => pure progress
      | some p =>
        let index ← (nextIndex progress.shapes s.target.base).mapError .index
        (runRecurrence s.target p (← Graph.recurrenceCount config) index progress).mapError .index
  return ⟨progress.last?, progress.issues, none⟩

/-- What a recompute of the plan would give. -/
def ofPlan (plan : Plan) (config : Config) : Except Graph.Fault ShapeCheck :=
  match plan.obstacle? config.output with
  | some obstacle => .ok (blocked obstacle)
  | none =>
    let shapes := inputShapes plan config
    match plan with
    | .simple p =>
      match p.product? with
      | none => .ok ⟨none, [], none⟩
      | some p => .ok ⟨(shapeOf shapes p).1, (shapeOf shapes p).2, none⟩
    | .iterative p => runIterative p config shapes

end ShapeCheck

end CellLineage
