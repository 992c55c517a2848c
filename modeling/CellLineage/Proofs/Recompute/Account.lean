import CellLineage.Proofs.Recompute.Course

/-!
# The account of a course

An account of a course also keeps the definition of each matrix that the course binds: the product
it was computed from, with relative references replaced by the members that they stood for then. So
it says of each matrix how it is expanded down to the input (`Expands`). Apart from that it is the
course (`Account.course_run`).

## Main definitions

* `Formula.Product.membersAt`: the product that a product stands for at an index.
* `Account`, `Account.run`: the account of a course.

## Main results

* `Account.course_run`: an account is one of its course.
-/

namespace CellLineage

namespace Formula

/-! ### Members at an index -/

/-- The reference that a reference stands for at index `n` among matrices of the given names. -/
def Reference.memberAt (names : List Text) (n : Int) (r : Reference) :
    Except IndexFault Reference :=
  if r.isRelative then do
    match ← lastIndex? names r.base with
    | none => return r
    | some last => return r.withIndex (min (r.subscript.relativeIndex n) last)
  else .ok r

/-- The product that a product stands for at index `n`. -/
def Product.membersAt (names : List Text) (n : Int) : Product → Except IndexFault Product
  | .single r => do return .single (← r.memberAt names n)
  | .times p q => do return .times (← p.membersAt names n) (← q.membersAt names n)

/-- A product stands for the resolved one. -/
theorem Product.membersAt_eq (names : List Text) (n : Int) (p : Product) :
    p.membersAt names n = p.resolve n names := by
  induction p with
  | single r =>
    have hr : r.memberAt names n = r.resolve n names := (r.resolve_eq n names).symm
    rw [membersAt, resolve, hr]
  | times p q ihp ihq => rw [membersAt, resolve, ihp, ihq]

end Formula

open Formula

/-! ### Accounts -/

/-- A course and the definitions of the matrices it has bound, the latest first. -/
structure Account where
  course : Course
  definitions : Association Product

namespace Account

/-- Evaluates a product at index `n`; gives the product that it stands for with its value. -/
def evaluate (a : Account) (p : Product) (n : Int) :
    Except Graph.Fault (Option (Product × IntMatrix) × Account) := do
  let resolved ← (p.membersAt a.course.env.names n).mapError .index
  let (M?, course) ← a.course.evaluate p n
  return (M?.map fun M => (resolved, M), { a with course })

/-- Binds a name to a matrix and notes what it was computed from. -/
def bind (a : Account) (name : Text) (p : Product) (M : IntMatrix) : Account :=
  ⟨a.course.bind name M, (name, p) :: a.definitions⟩

/-- Takes base cases in order; one without a value is passed over. -/
def runBaseCases : List Statement → Account → Except Graph.Fault Account
  | [], a => .ok a
  | s :: ss, a =>
    match s.product? with
    | none => runBaseCases ss a
    | some p => do
      let (result?, a) ← a.evaluate p 0
      match result? with
      | none => runBaseCases ss a
      | some (resolved, M) => runBaseCases ss (a.bind s.target.name resolved M)

/-- Applies a recurrence up to `count` times, first for the member at `index`. -/
def runRecurrence (target : Reference) (p : Product) :
    (count : Nat) → (index : Int) → Account → Except Graph.Fault Account
  | 0, _, a => .ok a
  | count + 1, index, a => do
    let (result?, a) ← a.evaluate p (if target.subscript = .next then index - 1 else index)
    match result? with
    | none => return a
    | some (resolved, M) =>
      let name ← (memberName? target.base index).mapError .index
      runRecurrence target p count (index + 1) (a.bind name resolved M)

/-- The account of the course of a plan. -/
def run (plan : IterativePlan) (config : Config) (env : Environment) :
    Except Graph.Fault Account := do
  let a ← runBaseCases plan.baseCases ⟨⟨env, [], []⟩, []⟩
  match plan.recurrence? with
  | none => return a
  | some s =>
    match s.product? with
    | none => return a
    | some p =>
      let last? ← (lastIndex? a.course.env.names s.target.base).mapError .index
      let index : Int := match last? with
        | some last => last + 1
        | none => 0
      runRecurrence s.target p (← Graph.recurrenceCount config) index a

variable {a : Account}

/-- A product that can be resolved is evaluated as in the course. -/
theorem evaluate_eq (a : Account) (p : Product) (n : Int) :
    a.evaluate p n = ((p.resolve n a.course.env.names).mapError .index).map fun resolved =>
      (((resolved.value a.course.env).1.map fun M => (resolved, M)),
        { a with course := { a.course with
          obstructions := a.course.obstructions ++ (resolved.value a.course.env).2 } }) := by
  rw [evaluate, Course.evaluate, Product.valueAt_eq, Product.membersAt_eq]
  cases p.resolve n a.course.env.names <;> rfl

/-- **An evaluation** in an account is one in its course. -/
theorem course_evaluate (a : Account) (p : Product) (n : Int) :
    a.course.evaluate p n = (a.evaluate p n).map fun r => (r.1.map Prod.snd, r.2.course) := by
  rw [evaluate_eq, Course.evaluate, Product.valueAt_eq]
  cases p.resolve n a.course.env.names with
  | error e => rfl
  | ok resolved =>
    have hvalue : ((resolved.value a.course.env).1.map fun M => (resolved, M)).map Prod.snd =
        (resolved.value a.course.env).1 := by
      rw [Option.map_map]
      exact Option.map_id'
    exact congrArg (fun M? => Except.ok (M?, _)) hvalue.symm

/-- **Base cases** in an account are those of its course. -/
theorem course_runBaseCases (ss : List Statement) (a : Account) :
    Course.runBaseCases ss a.course = (runBaseCases ss a).map course := by
  induction ss generalizing a with
  | nil => rfl
  | cons s ss ih =>
    rw [runBaseCases, Course.runBaseCases]
    cases s.product? with
    | none => exact ih a
    | some p =>
      simp only [course_evaluate]
      cases a.evaluate p 0 with
      | error e => rfl
      | ok r =>
        obtain ⟨result?, a'⟩ := r
        cases result? with
        | none => exact ih a'
        | some result => exact ih (a'.bind s.target.name result.1 result.2)

/-- **A recurrence** in an account is the one of its course. -/
theorem course_runRecurrence (target : Reference) (p : Product) (count : Nat) (index : Int)
    (a : Account) : Course.runRecurrence target p count index a.course =
      (runRecurrence target p count index a).map course := by
  induction count generalizing index a with
  | zero => rfl
  | succ count ih =>
    rw [runRecurrence, Course.runRecurrence, course_evaluate]
    cases a.evaluate p (if target.subscript = .next then index - 1 else index) with
    | error e => rfl
    | ok r =>
      obtain ⟨result?, a'⟩ := r
      cases result? with
      | none => rfl
      | some result =>
        simp only [Except.map, Option.map_some, Bind.bind, Except.bind]
        cases (memberName? target.base index).mapError Graph.Fault.index with
        | error e => rfl
        | ok name => exact ih (index + 1) (a'.bind name result.1 result.2)

/-- **An account is one of its course.** -/
theorem course_run (plan : IterativePlan) (config : Config) (env : Environment) :
    Course.run plan config env = (run plan config env).map course := by
  have hbase := course_runBaseCases plan.baseCases ⟨⟨env, [], []⟩, []⟩
  rw [run, Course.run, hbase]
  cases runBaseCases plan.baseCases ⟨⟨env, [], []⟩, []⟩ with
  | error e => rfl
  | ok a =>
    cases hs : plan.recurrence? with
    | none => rfl
    | some s =>
      cases hp : s.product? with
      | none => simp only [hp]; rfl
      | some p =>
        simp only [hp, Except.map, Bind.bind, Except.bind]
        cases (lastIndex? a.course.env.names s.target.base).mapError Graph.Fault.index with
        | error e => rfl
        | ok last? =>
          cases Graph.recurrenceCount config with
          | error e => rfl
          | ok count => exact course_runRecurrence s.target p count _ a

end Account

end CellLineage
