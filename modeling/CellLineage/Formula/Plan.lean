import CellLineage.Formula.Lexeme
import CellLineage.Formula.Product
import CellLineage.Sorted
import CellLineage.Text.Pieces
import CellLineage.Text.Quoted

/-!
# Plans

A formula is read into a plan. A *simple* plan is one product. A formula with an equals sign or a
comma is an *iterative* plan: a list of parts between commas, each an assignment or a bare matrix.
An assignment to a numbered matrix is a base case, an assignment to a relative one is the
recurrence, of which the last one counts; a bare numbered matrix is a constant.

A part that does not fit ends the reading: the plan keeps what came before it and says what is wrong
(`Plan.fault?`).

## Main definitions

* `Plan.read`: the plan of a formula.
* `Plan.references`, `Plan.baseMatrices`: what a plan reads.
* `Plan.uses`: whether a plan reads or assigns a matrix.
-/

namespace CellLineage.Formula

/-- An assignment of a product to a matrix. -/
structure Statement where
  target : Reference
  factors : List Reference
  text : Text
  deriving DecidableEq, Repr

/-- The product of a statement. -/
def Statement.product? (s : Statement) : Option Product :=
  Product.ofFactors? s.factors

/-- A bare matrix of an iterative formula. -/
structure Constant where
  reference : Reference
  text : Text
  deriving DecidableEq, Repr

/-- A formula that is one product. -/
structure SimplePlan where
  factors : List Reference
  fault? : Option Malformed
  text : Text
  deriving DecidableEq, Repr

/-- The product of a simple plan. -/
def SimplePlan.product? (p : SimplePlan) : Option Product :=
  Product.ofFactors? p.factors

/-- A formula of base cases, a recurrence and constants. `explicit` are the numbered names that were
met, with repetitions; `replaced` are the texts of the recurrences that did not count, each with the
text of the one that replaced it. -/
structure IterativePlan where
  baseCases : List Statement
  recurrence? : Option Statement
  constants : List Constant
  explicit : List Text
  replaced : List (Text × Text)
  fault? : Option Malformed
  text : Text
  deriving DecidableEq, Repr

/-- What a formula says. -/
inductive Plan where
  | simple (plan : SimplePlan)
  | iterative (plan : IterativePlan)
  deriving DecidableEq, Repr

/-! ## Reading -/

/-- A reading that goes on only if nothing is malformed: what is malformed becomes part of the
result. -/
def absorb {α : Type} (result : Except Fault α) (onMalformed : Malformed → α) :
    Except IndexFault α :=
  match result with
  | .ok a => .ok a
  | .error (.malformed m) => .ok (onMalformed m)
  | .error (.index i) => .error i

namespace SimplePlan

/-- The plan of a formula that is one product. -/
def read (formula : Text) : Except IndexFault SimplePlan :=
  absorb (do return ⟨← readFactors formula.symbols, none, formula⟩) fun m => ⟨[], some m, formula⟩

end SimplePlan

namespace IterativePlan

/-- The plan in which nothing is read yet. -/
def empty (formula : Text) : IterativePlan :=
  ⟨[], none, [], [], [], none, formula⟩

/-- The plan with a fault. -/
def refuse (plan : IterativePlan) (m : Malformed) : IterativePlan :=
  { plan with fault? := some m }

/-- The names of the numbered references. -/
def numberedNames (rs : List Reference) : List Text :=
  (rs.filter fun r => r.subscript.isNumber).map Reference.name

/-- The plan with the assignment of `factors` to `target`, which is written `left`. -/
def assign (plan : IterativePlan) (target : Reference) (left : Text)
    (factors : List Reference) (text : Text) : IterativePlan :=
  let statement : Statement := ⟨target, factors, text⟩
  let plan := { plan with explicit := plan.explicit ++ numberedNames factors }
  match target.subscript with
  | .current | .next =>
    let replaced := match plan.recurrence? with
      | some old => plan.replaced ++ [(old.text, text)]
      | none => plan.replaced
    { plan with recurrence? := some statement, replaced }
  | .number _ =>
    { plan with
      baseCases := plan.baseCases ++ [statement]
      explicit := plan.explicit ++ [target.name] }
  | _ => plan.refuse (.unindexedTarget left)

/-- The plan with one more assignment. -/
def addAssignment (plan : IterativePlan) (part : List Symbol) : Except IndexFault IterativePlan :=
  match (Text.pieces (.char '=') part).map Text.trim with
  | [left, right] =>
    if left = [] ∨ right = [] then .ok (plan.refuse (.assignment ⟨part⟩))
    else do
      match ← readReference left with
      | none => return plan.refuse (.target ⟨left⟩)
      | some target =>
        if target.transposed then return plan.refuse (.target ⟨left⟩)
        else
          absorb (do return plan.assign target ⟨left⟩ (← readFactors right) ⟨part⟩) plan.refuse
  | _ => .ok (plan.refuse (.assignment ⟨part⟩))

/-- The plan with one more constant. -/
def addConstant (plan : IterativePlan) (part : List Symbol) : Except IndexFault IterativePlan := do
  match ← readReference part with
  | none => return plan.refuse (.constant ⟨part⟩)
  | some r =>
    if r.subscript.isNumber then
      return { plan with
        constants := plan.constants ++ [⟨r, ⟨part⟩⟩]
        explicit := plan.explicit ++ [r.name] }
    else return plan.refuse .unindexedConstant

/-- The plan with one more part. -/
def addPart (plan : IterativePlan) (part : List Symbol) : Except IndexFault IterativePlan :=
  if .char '=' ∈ part then plan.addAssignment part else plan.addConstant part

/-- The plan with the parts up to the first one that does not fit. -/
def addParts (plan : IterativePlan) : List (List Symbol) → Except IndexFault IterativePlan
  | [] => .ok plan
  | part :: parts => do
    let plan ← plan.addPart part
    if plan.fault?.isSome then return plan else plan.addParts parts

/-- The parts of an iterative formula. -/
def partsOf (formula : Text) : List (List Symbol) :=
  ((Text.pieces (.char ',') formula.symbols).map Text.trim).filter (· != [])

/-- The plan of a formula with an equals sign or a comma. -/
def read (formula : Text) : Except IndexFault IterativePlan :=
  match partsOf formula with
  | [] => .ok ((empty formula).refuse .noParts)
  | parts => (empty formula).addParts parts

/-- The base cases and the recurrence that counts. -/
def statements (plan : IterativePlan) : List Statement :=
  plan.baseCases ++ plan.recurrence?.toList

/-- The names of the matrices that the base cases assign. -/
def targetNames (plan : IterativePlan) : List Text :=
  plan.baseCases.map fun s => s.target.name

/-- What is doubtful about a formula that can be read, in words. -/
def warnings (plan : IterativePlan) : List String :=
  plan.replaced.map fun (old, new) =>
    "Multiple recurrences: " ++ Text.quoted old ++ " replaced by " ++ Text.quoted new

end IterativePlan

namespace Plan

/-- The plan of a blank formula. -/
def blank (formula : Text) : Plan :=
  .simple ⟨[], none, formula⟩

/-- The plan of a formula. -/
def read (formula : Text) : Except IndexFault Plan :=
  let xs := formula.symbols
  if xs.all (·.holds Text.isBlank) then .ok (blank formula)
  else if .char '=' ∈ xs ∨ .char ',' ∈ xs then (IterativePlan.read formula).map .iterative
  else (SimplePlan.read formula).map .simple

/-- What is wrong with the formula, if anything is. -/
def fault? : Plan → Option Malformed
  | .simple p => p.fault?
  | .iterative p => p.fault?

/-- The formula that was read. -/
def text : Plan → Text
  | .simple p => p.text
  | .iterative p => p.text

/-! ## Queries -/

/-- The references of a plan in the order of the formula, the recurrence last. -/
def references : Plan → List Reference
  | .simple p => p.factors
  | .iterative p => p.statements.flatMap Statement.factors

/-- The names of references that are not relative. -/
def fixedNames (rs : List Reference) : List Text :=
  (rs.filter fun r => !r.isRelative).map Reference.name

/-- The names of the input matrices that a plan reads, in order. -/
def baseMatrices (plan : Plan) : List Text :=
  if plan.fault?.isSome then []
  else match plan with
    | .simple p => sortedNames (p.factors.map Reference.name)
    | .iterative p =>
      (sortedNames (p.explicit ++ fixedNames plan.references)).filter (· ∉ p.targetNames)

/-- The names of the matrices that a plan reads or assigns. -/
def usedNames : Plan → List Text
  | .simple p => fixedNames p.factors
  | .iterative p =>
    fixedNames (p.statements.flatMap Statement.factors ++ p.statements.map Statement.target) ++
      p.constants.map fun c => c.reference.name

/-- The plan is well-formed and reads or assigns the matrix. -/
def uses (plan : Plan) (name : Text) : Bool :=
  plan.fault?.isNone && plan.usedNames.contains name

/-- Why a plan cannot be run. -/
inductive Obstacle where
  /-- The formula is malformed. -/
  | malformed (what : Malformed)
  /-- The formula uses the matrix that results go to. -/
  | usesOutput (name : Text)
  /-- The formula names no matrix. -/
  | noMatrices
  deriving DecidableEq, Repr

/-- The obstacle in words. -/
def Obstacle.message : Obstacle → Text
  | .malformed m => m.message
  | .usesOutput name => "Formula cannot use the output matrix " ++ name
  | .noMatrices => "No matrices found in formula"

/-- What stands in the way of running a plan with an output matrix. -/
def obstacle? (plan : Plan) (output : Text) : Option Obstacle :=
  match plan.fault? with
  | some m => some (.malformed m)
  | none => if plan.uses output then some (.usesOutput output) else none

/-- The plan names a matrix that it would compute from. -/
def namesMatrices : Plan → Bool
  | .simple p => !p.factors.isEmpty
  | .iterative p => !p.statements.isEmpty

/-- What is wrong with a formula on its own. -/
def flaw? (plan : Plan) : Option Obstacle :=
  match plan.fault? with
  | some m => some (.malformed m)
  | none => if plan.namesMatrices then none else some .noMatrices

theorem uses_eq_false_of_fault {plan : Plan} {m : Malformed} (h : plan.fault? = some m)
    (name : Text) : plan.uses name = false := by
  simp [uses, h]

/-- A plan may run exactly if it is well-formed and does not use its output. -/
theorem obstacle?_eq_none_iff {plan : Plan} {output : Text} :
    plan.obstacle? output = none ↔ plan.fault? = none ∧ plan.uses output = false := by
  cases h : plan.fault? <;> simp [obstacle?, h]

end Plan

end CellLineage.Formula
