import CellLineage.Number.Binary64
import CellLineage.Text.Blank
import CellLineage.Text.Digit
import CellLineage.Text.Pieces

/-!
# Numbers written as texts

A number in a document may be written as a text, and some liberties are taken with such texts. A
whole number may stand between white space, with a plus, with zeros and underscores at its front,
with single underscores between its digits and with a fraction of zeros. `tidied?` takes all of that
away, and what it leaves has to be a whole number in plain form (`plainWhole?`): an optional minus
and digits, the first of which is not zero unless it is the only one.

A text that begins with a whole number in plain form, but for its length, is said to be too long
(`isOversized`); in all other texts too many digits are no different from other things that do not
fit.

A double is a decimal with an optional exponent, or one of the words for what is not finite.

## Main definitions

* `isOversized`, `whole?`: whole numbers.
* `double?`: doubles.
-/

namespace CellLineage.Document.Numeral

/-- A sign that may be left out, and what follows it. -/
def splitSign : List Char → Bool × List Char
  | '-' :: cs => (true, cs)
  | '+' :: cs => (false, cs)
  | cs => (false, cs)

/-- The number with a sign. -/
def withSign (negative : Bool) (n : Nat) : Int :=
  if negative then -(n : Int) else n

/-! ## Whole numbers -/

/-- A text without a minus at its front. -/
def withoutMinus : List Char → List Char
  | '-' :: cs => cs
  | cs => cs

/-- The text begins with a minus, which may be left out, and too many digits, the first of which is
not zero. -/
def isOversized (cs : List Char) : Bool :=
  let digits := (withoutMinus cs).takeWhile Char.isDigit
  digits.head? != some '0' && Text.maxDigits < digits.length

/-- Digits without a zero at their front, or a zero alone, and not too many of them. -/
def plainNat? (cs : List Char) : Option Nat :=
  if cs.all Char.isDigit && (cs.head? != some '0' || cs.length == 1) then Text.readNat? cs else none

/-- A whole number in plain form. -/
def plainWhole? : List Char → Option Int
  | '-' :: cs => (plainNat? cs).map fun n => -(n : Int)
  | cs => (plainNat? cs).map fun n => (n : Int)

/-- What may follow a zero at the front of a number and be passed over with it. -/
def isFiller (c : Char) : Bool :=
  c == '0' || c == '_'

/-- A number without the zeros at its front and the underscores among and after them; the last of
these is kept where a fraction or nothing follows. It has to begin with a digit. -/
def withoutLeadingZeros? : List Char → Option (List Char)
  | [] => none
  | '0' :: cs =>
    let last := (cs.takeWhile isFiller).getLastD '0'
    match cs.dropWhile isFiller with
    | [] => some [last]
    | '.' :: rest => some (last :: '.' :: rest)
    | rest => some rest
  | c :: cs => if c.isDigit then some (c :: cs) else none

/-- What stands before a point that zeros, at least one, and nothing else follow; all of any other
text. -/
def withoutZeroFraction (cs : List Char) : List Char :=
  match Text.pieces '.' cs with
  | [whole, fraction] => if fraction ≠ [] ∧ fraction.all (· == '0') then whole else cs
  | _ => cs

/-- A text without its underscores, if none of them stands at an end or beside another. -/
def withoutUnderscores? (cs : List Char) : Option (List Char) :=
  let groups := Text.pieces '_' cs
  if groups.all (!·.isEmpty) then some groups.flatten else none

/-- What is left of a whole number without the liberties that are allowed. -/
def tidied? (cs : List Char) : Option (List Char) := do
  let (negative, cs) := splitSign (Text.trimSpace cs)
  let cs ← withoutLeadingZeros? cs
  withoutUnderscores? (withoutZeroFraction (if negative then '-' :: cs else cs))

/-- The whole number that a text stands for. -/
def whole? (cs : List Char) : Option Int :=
  tidied? cs >>= plainWhole?

/-! ## Doubles -/

/-- The number that an exponent stands for, after the digits of a decimal; none is zero. -/
def exponent? : List Char → Option Int
  | [] => some 0
  | e :: cs =>
    let (negative, digits) := splitSign cs
    if (e = 'e' ∨ e = 'E') ∧ digits ≠ [] ∧ digits.all Char.isDigit then
      some (withSign negative (Text.decimalNat digits))
    else none

/-- The double nearest to a decimal: digits with a point that may be left out at any place among
them, and an exponent that may be left out. -/
def decimal? (negative : Bool) (cs : List Char) : Option Float := do
  let whole := cs.takeWhile Char.isDigit
  let (fraction, rest) := match cs.dropWhile Char.isDigit with
    | '.' :: cs => (cs.takeWhile Char.isDigit, cs.dropWhile Char.isDigit)
    | rest => ([], rest)
  let exponent ← exponent? rest
  let digits := whole ++ fraction
  if digits = [] then none
  else some (Binary64.ofDecimal negative (Text.decimalNat digits) (exponent - fraction.length))

/-- The double that a text without liberties stands for: a decimal or the name of what is not
finite. -/
def plainDouble? (cs : List Char) : Option Float :=
  let (negative, cs) := splitSign cs
  let word := String.ofList (cs.map Char.toLower)
  if word = "inf" ∨ word = "infinity" then some (Binary64.infinity negative)
  else if word = "nan" then some Binary64.notANumber
  else decimal? negative cs

/-- The double that a text stands for, where either white space may stand around it or single
underscores inside. -/
def double? (cs : List Char) : Option Float :=
  (plainDouble? (Text.trimSpace cs)).or (withoutUnderscores? cs >>= plainDouble?)

end CellLineage.Document.Numeral
