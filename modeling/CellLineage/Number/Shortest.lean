import CellLineage.Number.Binary64

/-!
# The shortest decimal of a double

A double is shown with the fewest decimal digits that are still nearest to it among all doubles. The
decimals that a finite double `m * 2 ^ e` is nearest to form an interval around it, whose ends belong
to it exactly if `m` is even. For one, two, up to seventeen digits the two neighbours of the double
on the decimal grid of that many digits are tested for membership; the first grid with a hit wins,
and of two hits the nearer one.

How the digits are then laid out, with a point or with an exponent, is a `DecimalLayout`.
-/

namespace CellLineage.Binary64

/-- A decimal `digits * 10 ^ exponent`. -/
structure Decimal where
  digits : Nat
  exponent : Int
  deriving DecidableEq, Repr

/-- Compares `a * 10 ^ p` with `b * 2 ^ e`. -/
def compareScaled (a : Nat) (p : Int) (b : Nat) (e : Int) : Ordering :=
  compare (a * Nat.pow 10 p.toNat * Nat.pow 2 (-e).toNat)
    (b * Nat.pow 2 e.toNat * Nat.pow 10 (-p).toNat)

/-- The number of digits in front of the point of `m * 2 ^ e`; zero or less if the first digit comes
after the point. -/
def leadingPlace (m : Nat) (e : Int) : Int :=
  let num := m * Nat.pow 2 e.toNat
  let den := Nat.pow 2 (-e).toNat
  if den ≤ num then (Nat.toDigits 10 (num / den)).length
  else
    let inverse := (den + num - 1) / num
    1 - ((Nat.toDigits 10 (inverse - 1)).length : Int)

/-- Whether the decimal `c * 10 ^ p` is nearest to the double `m * 2 ^ e`. Distances are counted in
quarters of the last place, since the gap below a power of two is half as wide. -/
def isNearest (m : Nat) (e : Int) (c : Nat) (p : Int) : Bool :=
  let low := if m = Nat.pow 2 52 ∧ minExponent < e then 4 * m - 1 else 4 * m - 2
  let aboveLow := compareScaled c p low (e - 2)
  let belowHigh := compareScaled c p (4 * m + 2) (e - 2)
  (aboveLow == .gt || (aboveLow == .eq && m % 2 == 0)) &&
    (belowHigh == .lt || (belowHigh == .eq && m % 2 == 0))

/-- The decimal of the grid `10 ^ p` that the double `m * 2 ^ e` is shown by, if one is nearest to
it. -/
def onGrid? (m : Nat) (e p : Int) : Option Decimal :=
  let num := m * Nat.pow 2 e.toNat * Nat.pow 10 (-p).toNat
  let den := Nat.pow 2 (-e).toNat * Nat.pow 10 p.toNat
  let floor := num / den
  match isNearest m e floor p, isNearest m e (floor + 1) p with
  | true, true => some ⟨roundDiv num den, p⟩
  | true, false => some ⟨floor, p⟩
  | false, true => some ⟨floor + 1, p⟩
  | false, false => none

/-- The decimal with the fewest digits that is nearest to the double `m * 2 ^ e`. -/
def shortest (m : Nat) (e : Int) : Decimal :=
  let place := leadingPlace m e
  ((List.range 17).findSome? fun k : Nat => onGrid? m e (place - (k + 1))).getD
    ⟨m * Nat.pow 2 e.toNat, 0⟩

/-- How a decimal is written: the powers of ten from `firstPositional` up to before
`firstExponential` are written with a point and at least one digit after it, all others with an
exponent of at least `exponentWidth` digits and a sign. -/
structure DecimalLayout where
  firstPositional : Int
  firstExponential : Int
  exponentWidth : Nat
  notANumber : String
  infinity : String

/-- The digits without the zeros at their end, and how many zeros these were. -/
def splitTrailingZeros (ds : List Char) : List Char × Nat :=
  let zeros := (ds.reverse.takeWhile (· == '0')).length
  (ds.take (ds.length - zeros), zeros)

namespace DecimalLayout

/-- The digits `ds`, of which the first `place` come before the point. -/
def positional (ds : List Char) (place : Int) : List Char :=
  if place ≤ 0 then '0' :: '.' :: (List.replicate (-place).toNat '0' ++ ds)
  else
    let whole := ds.take place.toNat
    let rest := ds.drop place.toNat
    whole ++ List.replicate (place.toNat - whole.length) '0' ++
      '.' :: (if rest = [] then ['0'] else rest)

/-- The digits `ds` with one of them before the point, and a power of ten. -/
def exponential (layout : DecimalLayout) (ds : List Char) (power : Int) : List Char :=
  let mantissa := match ds with
    | d :: r :: rs => d :: '.' :: r :: rs
    | ds => ds
  let digits := Nat.toDigits 10 power.natAbs
  mantissa ++ 'e' :: (if power < 0 then '-' else '+') ::
    (List.replicate (layout.exponentWidth - digits.length) '0' ++ digits)

/-- The magnitude of a finite double in the layout. -/
def magnitude (layout : DecimalLayout) (m : Nat) (e : Int) : List Char :=
  if m = 0 then positional ['0'] 1
  else
    let decimal := shortest m e
    let (ds, zeros) := splitTrailingZeros (Nat.toDigits 10 decimal.digits)
    let place : Int := ds.length + zeros + decimal.exponent
    if layout.firstPositional ≤ place - 1 ∧ place - 1 < layout.firstExponential then
      positional ds place
    else layout.exponential ds (place - 1)

/-- A double as text: its shortest decimal in the layout. -/
def render (layout : DecimalLayout) (x : Float) : String :=
  let signed (negative : Bool) (s : String) := if negative then "-" ++ s else s
  match parts x with
  | .notANumber => layout.notANumber
  | .infinite negative => signed negative layout.infinity
  | .finite negative m e => signed negative (String.ofList (layout.magnitude m e))

end DecimalLayout

end CellLineage.Binary64
