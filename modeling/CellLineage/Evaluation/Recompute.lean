import CellLineage.Evaluation.Config
import CellLineage.Evaluation.Evaluate
import CellLineage.Graph.Snapshot

/-!
# Recomputing a graph

To recompute a plan the graph is rebuilt from what is painted on the input matrices: everything else
is dropped, ids are minted from the start, and then the plan is evaluated. So the same input always
gives the same graph.

A simple plan has one result. An iterative plan first evaluates its base cases in order. Then its
recurrence is applied: it continues the family of its target after the last member there is, one
member for each iteration, until one has no result. The last matrix computed is copied into the
output matrix. A recurrence needs a whole number of iterations; without one the run stops when the
base cases are done.

## Main definitions

* `Graph.rebuild`: the graph with the painted input only.
* `Graph.recompute`: a whole recompute, and its `Outcome`.
-/

namespace CellLineage

open Formula

/-- What a recompute leaves: the output matrix and its shape, the matrices that were computed, the
issues met on the way, or what stood in the way of running the plan at all. -/
structure Outcome where
  output? : Option Text
  shape? : Option (Nat × Nat)
  computed : List Text
  issues : List Issue
  obstacle? : Option Plan.Obstacle
  deriving DecidableEq, Repr

namespace Outcome

/-- The outcome of a plan that cannot be run. -/
def blocked (obstacle : Plan.Obstacle) : Outcome :=
  ⟨none, none, [], [], some obstacle⟩

/-- Nothing went wrong. -/
def isOk (o : Outcome) : Bool :=
  o.obstacle?.isNone && o.issues.isEmpty

/-- What went wrong, in words. -/
def messages (o : Outcome) : List Text :=
  match o.obstacle? with
  | some obstacle => [obstacle.message]
  | none => o.issues.map Issue.message

end Outcome

/-- The bases of the families that a plan computes. -/
def Formula.IterativePlan.families (p : IterativePlan) : List Text :=
  p.statements.map fun s => s.target.base

/-- The names without the members of the families. A member is told by its digits, and its name is
then that of the index that the digits stand for. -/
def withoutMembers (names : List Text) : List Text → Except IndexFault (List Text)
  | [] => .ok names
  | family :: families => do
    let members := (← memberIndices names family).map fun i : Nat => memberName family i
    withoutMembers (names.filter (· ∉ members)) families

/-- The input matrices of a plan: those that it reads, and the declared ones other than the output
and what the plan computes. -/
def inputNames (plan : Plan) (config : Config) : Except IndexFault (List Text) := do
  let declared := config.shapes.names.filter (· != config.output)
  let kept ← match plan with
    | .simple _ => pure declared
    | .iterative p => withoutMembers (declared.filter (· ∉ p.targetNames)) p.families
  return sortedNames (kept ++ plan.baseMatrices)

namespace Graph

/-- Rethrows a fault. -/
def rethrow {α : Type} : Except Fault α → Run α
  | .ok a => pure a
  | .error e => throw e

/-- Rethrows a fault of an index. -/
def liftIndex {α : Type} : Except IndexFault α → Run α
  | .ok a => pure a
  | .error e => throw (.index e)

/-- Rethrows a fault of an operation that leaves the graph as it was. -/
def liftGraph : Except Fault Graph → Run Unit
  | .ok g => set g
  | .error e => throw e

/-- Makes an input matrix in the shape it is to have, painted as before. -/
def restoreInput (config : Config) (name : Text) (before : Option Snapshot) : Run Unit := do
  let g ← get
  match before with
  | some s =>
    let (rows, cols) := config.shapeFor name (some (s.rows, s.cols))
    liftGraph (g.restore s rows cols)
  | none =>
    let (rows, cols) := config.shapeFor name none
    liftGraph (g.initMatrix name rows cols)

/-- Drops everything but what is painted on the named matrices. -/
def rebuild (config : Config) (names : List Text) : Run Unit := do
  let before ← get
  set before.clear
  names.forM fun name => restoreInput config name (before.snapshot? name)

/-- Copies a result into a matrix. -/
def store (source target : Text) : Run Unit :=
  modifyGet fun g => ((), (g.copy source target).getD g)

/-- Puts a result into the output matrix. Without a result an output matrix that was there before is
made blank in its old shape. -/
def finish (config : Config) (previous : Option (Nat × Nat)) (result? : Option Text) :
    Run Unit := do
  match result?, previous with
  | some result, _ => store result config.output
  | none, some (rows, cols) =>
    let g ← get
    if g.hasMatrix config.output then pure ()
    else liftGraph (g.initMatrix config.output rows cols)
  | none, none => pure ()

/-- The outcome of a run; an output matrix without a name has no shape. -/
def outcome (config : Config) (computed : List Text) (issues : List Issue) : Run Outcome := do
  let g ← get
  if g.hasMatrix config.output then
    let shape? := if config.output = "" then none else g.shape? config.output
    return ⟨some config.output, shape?, computed, issues, none⟩
  else return ⟨none, none, computed, issues, none⟩

/-- Runs a simple plan. -/
def runSimple (plan : SimplePlan) (config : Config) (previous : Option (Nat × Nat)) :
    Run Outcome := do
  let evaluated ← match plan.product? with
    | none => pure ⟨none, 0, []⟩
    | some p => evaluate p 0
  finish config previous evaluated.result?
  outcome config (if evaluated.result?.isSome then [config.output] else []) evaluated.issues

/-- What a run of an iterative plan has done so far. -/
structure Progress where
  occurrence : Int
  computed : List Text
  issues : List Issue

/-- Evaluates the product of a statement at index `n`; says which matrix holds it. -/
def evaluateStatement (p : Product) (n : Int) (progress : Progress) :
    Run (Option Text × Progress) := do
  let p ← liftIndex ((← get).resolve p n)
  let e ← evaluate p progress.occurrence
  return (e.result?, { progress with
    occurrence := e.occurrence, issues := progress.issues ++ e.issues })

/-- Copies a result into a matrix and counts it as computed. -/
def record (result target : Text) (progress : Progress) : Run Progress := do
  store result target
  return { progress with computed := progress.computed ++ [target] }

/-- Evaluates base cases in order; one without a result is passed over. -/
def runBaseCases : List Statement → Progress → Run Progress
  | [], progress => pure progress
  | s :: ss, progress =>
    match s.product? with
    | none => runBaseCases ss progress
    | some p => do
      let (result?, progress) ← evaluateStatement p 0 progress
      match result? with
      | none => runBaseCases ss progress
      | some result => runBaseCases ss (← record result s.target.name progress)

/-- How far the index that `n` stands for is behind the index of the member that the recurrence
computes. -/
def targetOffset (target : Reference) : Int :=
  if target.subscript = .next then 1 else 0

/-- Applies the recurrence up to `count` times, first for the member at `index`. -/
def runRecurrence (target : Reference) (p : Product) :
    (count : Nat) → (index : Int) → Progress → Run Progress
  | 0, _, progress => pure progress
  | count + 1, index, progress => do
    let (result?, progress) ← evaluateStatement p (index - targetOffset target) progress
    match result? with
    | none => pure progress
    | some result =>
      let name ← liftIndex (memberName? target.base index)
      runRecurrence target p count (index + 1) (← record result name progress)

/-- The index after the last member of a family. -/
def nextIndex (g : Graph) (base : Text) : Except IndexFault Int := do
  match (← memberIndices g.matrices.keys base).getLast? with
  | some last => return (last : Int) + 1
  | none => return 0

/-- How often a recurrence is applied. -/
def recurrenceCount (config : Config) : Except Fault Nat :=
  match config.iterations? with
  | some n => .ok n
  | none => .error .iterations

/-- Runs an iterative plan. -/
def runIterative (plan : IterativePlan) (config : Config) (previous : Option (Nat × Nat)) :
    Run Outcome := do
  let progress ← runBaseCases plan.baseCases ⟨0, [], []⟩
  let progress ← match plan.recurrence? with
    | none => pure progress
    | some s =>
      match s.product? with
      | none => pure progress
      | some p =>
        let index ← liftIndex ((← get).nextIndex s.target.base)
        runRecurrence s.target p (← rethrow (recurrenceCount config)) index progress
  finish config previous progress.computed.getLast?
  outcome config progress.computed progress.issues

/-- Recomputes a plan. A plan that cannot be run leaves the graph as it is. -/
def recompute (plan : Plan) (config : Config) : Run Outcome := do
  match plan.obstacle? config.output with
  | some obstacle => return .blocked obstacle
  | none =>
    let previous := (← get).shape? config.output
    rebuild config (← liftIndex (inputNames plan config))
    match plan with
    | .simple p => runSimple p config previous
    | .iterative p => runIterative p config previous

end Graph

end CellLineage
