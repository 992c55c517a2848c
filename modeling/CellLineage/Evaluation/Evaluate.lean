import CellLineage.Evaluation.Resolve
import CellLineage.Graph.Transfer

/-!
# Evaluating products

A product is evaluated from the left. Each reference is an occurrence of its own: its matrix is
copied into an instance, named after the matrix and the number of the occurrence, so that lineage
tells the occurrences of one matrix apart. The product of two matrices goes to an intermediate
result, which is described by the expression it holds.

A step without a result records an issue, and so does not keep the other factor from being
evaluated.
-/

namespace CellLineage

open Formula

/-- What evaluating a product leaves: the matrix that holds it, if any, the number of the next
occurrence, and the issues met on the way. -/
structure Evaluated where
  result? : Option Text
  occurrence : Int
  issues : List Issue
  deriving DecidableEq, Repr

/-- The name of the instance of a matrix for an occurrence. -/
def instanceName (name : Text) (occurrence : Int) : Text :=
  name ++ "@" ++ toString occurrence

namespace Graph

/-- Evaluates an occurrence of a matrix. -/
def evaluateReference (r : Reference) (occurrence : Int) : Run Evaluated := do
  let g ← get
  let name := instanceName r.name occurrence
  match g.instantiate r.name name with
  | none => return ⟨none, occurrence + 1, [.missing r.name]⟩
  | some g =>
    if r.transposed then
      match g.transpose name with
      | some (name, g) =>
        set g
        return ⟨some name, occurrence + 1, []⟩
      | none =>
        set g
        return ⟨none, occurrence + 1, []⟩
    else
      set g
      return ⟨some name, occurrence + 1, []⟩

/-- The matrix product of two intermediate results, described by an expression. -/
def evaluateTimes (left right expression : Text) : Run (Option Text × List Issue) := do
  let (name, g) := (← get).nextTemporary
  set g
  match ← multiply left right name false with
  | some issue => return (none, [issue])
  | none =>
    modifyGet fun g => ((some name, []), g.setDescription name expression)

/-- Evaluates a product; `occurrence` is the number of its first reference. -/
def evaluate (p : Product) (occurrence : Int) : Run Evaluated :=
  match p with
  | .single r => evaluateReference r occurrence
  | .times p q => do
    let l ← evaluate p occurrence
    let r ← evaluate q l.occurrence
    match l.result?, r.result? with
    | some left, some right => do
      let (result?, issues) ← evaluateTimes left right (Product.times p q).display
      return ⟨result?, r.occurrence, l.issues ++ r.issues ++ issues⟩
    | _, _ => return ⟨none, r.occurrence, l.issues ++ r.issues⟩

/-- The product with its relative references resolved against the matrices of the graph. -/
def resolve (g : Graph) (p : Product) (n : Int) : Except IndexFault Product :=
  p.resolve n g.matrices.keys

end Graph

end CellLineage
