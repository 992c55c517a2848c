import CellLineage.Datum.Basic
import CellLineage.Number.Order

/-!
# Settings of an evaluation

The settings say which matrix results go to, how often a recurrence is applied, and what shape the
input matrices have. Sizes are checked when settings are made: a size is a whole number between one
and a limit, and a truth value is not a whole number. So the settings of an evaluation hold sizes
that are whole numbers and at least one.

A limit may be any number, and is compared without rounding; nothing can be checked against what is
no number. The number of iterations is less strict than a size: it may be any number between one and
its limit, but a recurrence needs one that is given as a whole number.

## Main definitions

* `Size.checkRange`: whether a number is between one and a limit.
* `Size.check`: two sizes, or what is wrong with them.
* `Config`, `Config.make`: checked settings.
* `Config.shapeFor`: the shape of an input matrix.
-/

namespace CellLineage

/-- The two sizes of a matrix. -/
inductive Axis where
  | rows
  | cols
  deriving DecidableEq, Repr

/-- The name of a size. -/
def Axis.label : Axis → String
  | .rows => "rows"
  | .cols => "cols"

/-- What is wrong with a size or a count. -/
inductive SizeFault where
  /-- The size is no whole number. -/
  | notInteger (axis : Axis) (size : Datum)
  /-- The size is not between one and the limit. -/
  | outOfRange (axis : Axis) (limit : Datum) (size : Int)
  /-- The number of iterations is not between one and the limit. -/
  | iterations (limit count : Datum)
  /-- The number of iterations is no number. -/
  | notCount (count : Datum)
  /-- The limit is no number. -/
  | notLimit (limit : Datum)
  deriving Repr

/-- What is wrong, in words. -/
def SizeFault.message : SizeFault → Text
  | .notInteger axis size => "Matrix " ++ axis.label ++ " must be an integer, got " ++ size.render
  | .outOfRange axis limit size =>
    "Matrix " ++ axis.label ++ " must be between 1 and " ++ limit.display ++ ", got " ++
      toString size
  | .iterations limit count =>
    "iterations must be between 1 and " ++ limit.display ++ ", got " ++ count.display
  | .notCount count => "iterations must be a number, got " ++ count.display
  | .notLimit limit => "A limit must be a number, got " ++ limit.display

namespace Size

/-- The largest size and the largest number of iterations unless another one is set. -/
def defaultLimit : Int := 50

/-- The number of a limit. -/
def readLimit (limit : Datum) : Except SizeFault Number :=
  match limit.number? with
  | some l => .ok l
  | none => .error (.notLimit limit)

/-- Nothing is wrong with a number that is between one and the limit; the limit is looked at only if
the number is not below one. -/
def checkRange (limit : Datum) (n : Number) (outside : SizeFault) : Except SizeFault Unit :=
  if n.lt (.int 1) then .error outside
  else
    match readLimit limit with
    | .ok l => if l.lt n then .error outside else .ok ()
    | .error e => .error e

/-- The number is not above the limit, which is a number. -/
def IsWithin (limit : Datum) (n : Number) : Prop :=
  ∃ l, limit.number? = some l ∧ l.lt n = false

@[simp] theorem isWithin_int (limit n : Int) : IsWithin limit (.int n) ↔ n ≤ limit := by
  simp [IsWithin]

theorem checkRange_eq_ok_iff {limit : Datum} {n : Number} {outside : SizeFault} :
    checkRange limit n outside = .ok () ↔ n.lt (.int 1) = false ∧ IsWithin limit n := by
  unfold checkRange readLimit IsWithin
  cases n.lt (.int 1) <;> cases limit.number? <;> simp

/-- The size on one axis, if it is a whole number between one and the limit. -/
def checkAxis (axis : Axis) (limit size : Datum) : Except SizeFault Nat :=
  match size with
  | .number (.int n) => (checkRange limit (.int n) (.outOfRange axis limit n)).map fun _ => n.toNat
  | size => .error (.notInteger axis size)

/-- The two sizes, the rows checked first. -/
def check (rows cols limit : Datum) : Except SizeFault (Nat × Nat) := do
  return (← checkAxis .rows limit rows, ← checkAxis .cols limit cols)

/-- A checked size is at least one and not above the limit, and it is the number that was given. -/
theorem checkAxis_eq_ok {axis : Axis} {limit size : Datum} {n : Nat}
    (h : checkAxis axis limit size = .ok n) :
    1 ≤ n ∧ IsWithin limit (.int n) ∧ size = .int n := by
  unfold checkAxis at h
  split at h
  · next m =>
    cases hr : checkRange limit (.int m) (.outOfRange axis limit m) with
    | error e => simp [hr, Except.map] at h
    | ok u =>
      obtain ⟨hm, hl⟩ := checkRange_eq_ok_iff.1 hr
      simp only [hr, Except.map, Except.ok.injEq] at h
      simp only [Number.lt_int, decide_eq_false_iff_not] at hm
      have hn : (n : Int) = m := by omega
      rw [hn]
      exact ⟨by omega, hl, rfl⟩
  · cases h

/-- Checked sizes are at least one and not above the limit, and they are the numbers given. -/
theorem check_eq_ok {rows cols limit : Datum} {shape : Nat × Nat}
    (h : check rows cols limit = .ok shape) :
    (1 ≤ shape.1 ∧ IsWithin limit (.int shape.1) ∧ rows = .int shape.1) ∧
      (1 ≤ shape.2 ∧ IsWithin limit (.int shape.2) ∧ cols = .int shape.2) := by
  unfold check at h
  cases hr : checkAxis .rows limit rows with
  | error e => simp [hr, bind, Except.bind] at h
  | ok r =>
    cases hc : checkAxis .cols limit cols with
    | error e => simp [hr, hc, bind, Except.bind] at h
    | ok c =>
      simp [hr, hc, bind, Except.bind, pure, Except.pure] at h
      subst h
      exact ⟨checkAxis_eq_ok hr, checkAxis_eq_ok hc⟩

end Size

/-- The name of the output matrix unless another one is set. -/
def defaultOutput : Text := "O"

/-- Shapes by name, in the order in which they were declared. -/
abbrev Shapes := Association (Nat × Nat)

/-- The checked settings of an evaluation. -/
structure Config where
  /-- The matrix that results go to. -/
  output : Text
  /-- How often a recurrence is applied, if that is given as a whole number. -/
  iterations? : Option Nat
  /-- The declared shapes. -/
  shapes : Shapes
  /-- The shape of an input matrix that has no other. -/
  defaultShape : Nat × Nat
  deriving DecidableEq, Repr

namespace Config

/-- The shapes that sizes by name declare. -/
def makeShapes (limit : Datum) : Association (Datum × Datum) → Except SizeFault Shapes
  | [] => .ok []
  | (name, rows, cols) :: sizes => do
    let shape ← Size.check rows cols limit
    return (name, shape) :: (← makeShapes limit sizes)

/-- How often a recurrence is applied: a double says nothing about that, even if it is whole. -/
def times? : Number → Option Nat
  | .int n => some n.toNat
  | .float _ => none

/-- The number of iterations, which is to be between one and the limit. -/
def checkIterations (limit count : Datum) : Except SizeFault (Option Nat) :=
  match count.number? with
  | some n => (Size.checkRange limit n (.iterations limit count)).map fun _ => times? n
  | none => .error (.notCount count)

/-- Settings from unchecked sizes: the iterations are checked first, then the default shape, then
the declared sizes in order. -/
def make (output : Text) (iterations : Datum) (sizes : Association (Datum × Datum))
    (defaultRows defaultCols sizeLimit iterationLimit : Datum) : Except SizeFault Config := do
  let iterations? ← checkIterations iterationLimit iterations
  let defaultShape ← Size.check defaultRows defaultCols sizeLimit
  let shapes ← makeShapes sizeLimit sizes
  return ⟨output, iterations?, shapes, defaultShape⟩

/-- The settings if nothing is set. -/
def standard : Config :=
  ⟨defaultOutput, some 1, [], (5, 5)⟩

/-- The shape of an input matrix if nothing else is known of it: the declared one, else the
default. -/
def declaredShape (config : Config) (name : Text) : Nat × Nat :=
  (config.shapes.lookup name).getD config.defaultShape

/-- The shape of an input matrix: the declared one, else the given one, else the default. The given
one may be any two whole numbers. -/
def shapeFor (config : Config) (name : Text) (known : Option (Int × Int)) : Int × Int :=
  match config.shapes.lookup name, known with
  | none, some shape => shape
  | _, _ => ((config.declaredShape name).1, (config.declaredShape name).2)

theorem shapeFor_none (config : Config) (name : Text) :
    config.shapeFor name none =
      (((config.declaredShape name).1 : Int), ((config.declaredShape name).2 : Int)) := by
  unfold shapeFor
  split <;> simp_all

/-- A whole number of iterations between one and the limit is how often a recurrence is applied. -/
theorem checkIterations_int {limit n : Int} (h : 1 ≤ n ∧ n ≤ limit) :
    checkIterations limit n = .ok (some n.toNat) := by
  have hr : Size.checkRange limit (.int n) (.iterations limit n) = .ok () :=
    Size.checkRange_eq_ok_iff.2 ⟨by simpa using h.1, by simpa using h.2⟩
  simp [checkIterations, hr, Except.map, times?]

end Config

end CellLineage
