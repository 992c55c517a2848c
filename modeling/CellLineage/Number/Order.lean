import CellLineage.Number.Basic

/-!
# The order of cell values

Whole numbers and doubles are compared by what they stand for, without rounding: a finite one is
`m * 2 ^ e` with whole `m`, and two of these are compared with the same `e`. What is no number is
not less than anything, and nothing is less than it (`lt_int` says what this is on whole numbers).
-/

namespace CellLineage

namespace Binary64

/-- The signed mantissa of `m * 2 ^ e` for an exponent `base` that is not above `e`. -/
def signedMantissa (negative : Bool) (m : Nat) (e base : Int) : Int :=
  let n : Int := (m * Nat.pow 2 (e - base).toNat : Nat)
  if negative then -n else n

/-- On its own exponent a double has its own mantissa. -/
@[simp] theorem signedMantissa_self (negative : Bool) (m : Nat) (e : Int) :
    signedMantissa negative m e e = if negative then -(m : Int) else m := by
  simp [signedMantissa]

/-- One value is less than another one. -/
def Parts.lt : Parts → Parts → Bool
  | .notANumber, _ => false
  | _, .notANumber => false
  | .infinite a, .infinite b => a && !b
  | .infinite a, .finite .. => a
  | .finite .., .infinite b => !b
  | .finite a m e, .finite b n f =>
    signedMantissa a m e (min e f) < signedMantissa b n f (min e f)

end Binary64

namespace Number

/-- What a number holds. -/
def parts : Number → Binary64.Parts
  | .int n => .finite (n < 0) n.natAbs 0
  | .float x => Binary64.parts x

/-- One number is less than another one. -/
def lt (a b : Number) : Bool :=
  a.parts.lt b.parts

@[simp] theorem lt_int (m n : Int) : lt (.int m) (.int n) = decide (m < n) := by
  simp only [lt, parts, Binary64.Parts.lt, Int.min_self, Binary64.signedMantissa_self]
  grind

end Number

end CellLineage
