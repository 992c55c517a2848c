import CellLineage.Number.Shortest

/-!
# Cell values

A cell holds a whole number of any size or a double. Sums and products of whole numbers are exact;
as soon as one operand is a double the other one is rounded to the nearest double, which fails for
a whole number beyond the largest double. So an operation has a result unless such a number meets a
double (`add?`, `mul?`), and on whole numbers it always has one (`add?_int`, `mul?_int`).
-/

namespace CellLineage

/-- A cell value: a whole number or a double. -/
inductive Number where
  | int (n : Int)
  | float (x : Float)
  deriving Repr

namespace Number

instance : Inhabited Number := ⟨.int 0⟩

/-- A value counts as present unless it is a zero of either sign and kind. -/
def isNonzero : Number → Bool
  | .int n => n != 0
  | .float x => !(x == 0)

/-- The value is one, as a whole number or as a double. -/
def isOne : Number → Bool
  | .int n => n == 1
  | .float x => x == 1

/-- The value as a double, if it is not beyond the largest one. -/
def toFloat? : Number → Option Float
  | .int n => Binary64.ofInt? n
  | .float x => some x

/-- The sum, if both operands are whole numbers or neither is beyond the largest double. -/
def add? : Number → Number → Option Number
  | .int m, .int n => some (.int (m + n))
  | a, b => do return .float ((← a.toFloat?) + (← b.toFloat?))

/-- The product, if both operands are whole numbers or neither is beyond the largest double. -/
def mul? : Number → Number → Option Number
  | .int m, .int n => some (.int (m * n))
  | a, b => do return .float ((← a.toFloat?) * (← b.toFloat?))

/-- The value of a double: a whole number if it is one, else the double itself. -/
def ofFloat (x : Float) : Number :=
  match Binary64.toInt? x with
  | some n => .int n
  | none => .float x

/-- Doubles are shown with a point from `1e-4` up to before `1e16`. -/
def layout : Binary64.DecimalLayout where
  firstPositional := -4
  firstExponential := 16
  exponentWidth := 2
  notANumber := "nan"
  infinity := "inf"

/-- The value as text. -/
def render : Number → String
  | .int n => toString n
  | .float x => layout.render x

@[simp] theorem add?_int (m n : Int) : add? (.int m) (.int n) = some (.int (m + n)) := rfl

@[simp] theorem mul?_int (m n : Int) : mul? (.int m) (.int n) = some (.int (m * n)) := rfl

@[simp] theorem isNonzero_int (n : Int) : isNonzero (.int n) = true ↔ n ≠ 0 := by
  simp [isNonzero]

@[simp] theorem isOne_int (n : Int) : isOne (.int n) = true ↔ n = 1 := by
  simp [isOne]

end Number

end CellLineage
