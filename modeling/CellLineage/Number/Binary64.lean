/-!
# Exact arithmetic on doubles

A finite double is `m * 2 ^ e` with a whole `m` below `2 ^ 53`. This file takes doubles apart into
`m` and `e` and puts the double nearest to a fraction together again, all in exact arithmetic on
whole numbers: a half goes to the even neighbour, and a fraction beyond the largest finite double
has no nearest one. On top of this stand the conversions that a cell value needs, from and to whole
numbers and from decimal notation.

## Main definitions

* `Binary64.parts`: what a double holds.
* `Binary64.magnitudeOfRatio?`: the bits of the double nearest to a fraction.
* `Binary64.ofInt?`, `Binary64.ofDecimal`, `Binary64.toInt?`: the conversions.
-/

namespace CellLineage.Binary64

/-- What a double holds: nothing, an infinity, or plus or minus `mantissa * 2 ^ exponent`. -/
inductive Parts where
  | notANumber
  | infinite (negative : Bool)
  | finite (negative : Bool) (mantissa : Nat) (exponent : Int)
  deriving DecidableEq, Repr

/-- The exponent of the smallest double. -/
def minExponent : Int := -1074

/-- The double taken apart. -/
def parts (x : Float) : Parts :=
  let bits := x.toBits.toNat
  let negative := Nat.pow 2 63 ≤ bits
  let field := bits / Nat.pow 2 52 % Nat.pow 2 11
  let fraction := bits % Nat.pow 2 52
  if field = Nat.pow 2 11 - 1 then
    if fraction = 0 then .infinite negative else .notANumber
  else if field = 0 then .finite negative fraction minExponent
  else .finite negative (Nat.pow 2 52 + fraction) (minExponent + (field - 1 : Nat))

/-- The whole number nearest to `num / den`; a half goes to the even neighbour. -/
def roundDiv (num den : Nat) : Nat :=
  let q := num / den
  let r := 2 * (num % den)
  if r < den ∨ (r = den ∧ q % 2 = 0) then q else q + 1

/-- The fraction `num / den` divided by `2 ^ e`, as numerator and denominator. -/
def scale (num den : Nat) (e : Int) : Nat × Nat :=
  (num * Nat.pow 2 (-e).toNat, den * Nat.pow 2 e.toNat)

/-- The exponent of the double nearest to `num / den`: the one that leaves a mantissa of 53 binary
digits, or the smallest one. -/
def exponentOfRatio (num den : Nat) : Int :=
  let e : Int := (num.log2 : Int) - (den.log2 : Int) - 52
  let (n, d) := scale num den e
  max minExponent (if n / d < Nat.pow 2 52 then e - 1 else e)

/-- The bits of the double nearest to the fraction `num / den`, if it is not beyond the largest
finite double. -/
def magnitudeOfRatio? (num den : Nat) : Option Nat :=
  if num = 0 then some 0
  else
    let e := exponentOfRatio num den
    let (n, d) := scale num den e
    let bits := (e - minExponent).toNat * Nat.pow 2 52 + roundDiv n d
    if bits < (Nat.pow 2 11 - 1) * Nat.pow 2 52 then some bits else none

/-- The double with the given sign and magnitude bits. -/
def ofMagnitude (negative : Bool) (bits : Nat) : Float :=
  Float.ofBits (UInt64.ofNat (if negative then Nat.pow 2 63 + bits else bits))

/-- The bits of infinity. -/
def infinityBits : Nat := (Nat.pow 2 11 - 1) * Nat.pow 2 52

/-- The infinity of the given sign. -/
def infinity (negative : Bool) : Float :=
  ofMagnitude negative infinityBits

/-- The value that is no number. -/
def notANumber : Float :=
  Float.ofBits (UInt64.ofNat ((Nat.pow 2 12 - 1) * Nat.pow 2 51))

/-- The double nearest to a whole number, if there is one. -/
def ofInt? (n : Int) : Option Float :=
  (magnitudeOfRatio? n.natAbs 1).map (ofMagnitude (n < 0))

/-- The double nearest to `digits * 10 ^ exponent`, or an infinity beyond the largest double. The
first two tests only keep the fraction small: what they decide is beyond the largest double or
below half of the smallest one. -/
def ofDecimal (negative : Bool) (digits : Nat) (exponent : Int) : Float :=
  let length : Int := (Nat.toDigits 10 digits).length
  if digits = 0 then ofMagnitude negative 0
  else if 310 < length + exponent then infinity negative
  else if length + exponent < -330 then ofMagnitude negative 0
  else
    let num := digits * Nat.pow 10 exponent.toNat
    let den := Nat.pow 10 (-exponent).toNat
    ofMagnitude negative ((magnitudeOfRatio? num den).getD infinityBits)

/-- The whole number that a double is, if it is one. -/
def toInt? (x : Float) : Option Int :=
  match parts x with
  | .finite negative m e =>
    let magnitude? : Option Nat :=
      if 0 ≤ e then some (m * Nat.pow 2 e.toNat)
      else if m % Nat.pow 2 (-e).toNat = 0 then some (m / Nat.pow 2 (-e).toNat)
      else none
    magnitude?.map fun n => if negative then -(n : Int) else n
  | _ => none

/-- Rounding is exact where the division is. -/
theorem roundDiv_mul (q den : Nat) (h : 0 < den) : roundDiv (q * den) den = q := by
  simp [roundDiv, Nat.mul_div_cancel _ h, h]

end CellLineage.Binary64
