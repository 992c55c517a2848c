/-!
# Decimal digits of all scripts

A decimal digit is a character of a block of ten that stands for the values `0` to `9` in order;
each script has such a block. Beside them are characters that look like digits, as superscripts or
in circles, and have a digit value but no place in decimal notation. A text of digit characters is
a number only if all of them are decimal digits, and only up to `maxDigits` of them.
-/

namespace CellLineage.Text

/-- The characters that stand for zero; the nine after each stand for one to nine. -/
def decimalZeros : List Nat :=
  [0x30, 0x660, 0x6F0, 0x7C0, 0x966, 0x9E6, 0xA66, 0xAE6, 0xB66, 0xBE6, 0xC66, 0xCE6, 0xD66,
   0xDE6, 0xE50, 0xED0, 0xF20, 0x1040, 0x1090, 0x17E0, 0x1810, 0x1946, 0x19D0, 0x1A80, 0x1A90,
   0x1B50, 0x1BB0, 0x1C40, 0x1C50, 0xA620, 0xA8D0, 0xA900, 0xA9D0, 0xA9F0, 0xAA50, 0xABF0,
   0xFF10, 0x104A0, 0x10D30, 0x11066, 0x110F0, 0x11136, 0x111D0, 0x112F0, 0x11450, 0x114D0,
   0x11650, 0x116C0, 0x11730, 0x118E0, 0x11950, 0x11C50, 0x11D50, 0x11DA0, 0x16A60, 0x16AC0,
   0x16B50, 0x1D7CE, 0x1D7D8, 0x1D7E2, 0x1D7EC, 0x1D7F6, 0x1E140, 0x1E2F0, 0x1E950, 0x1FBF0]

/-- The first and last characters of the ranges that hold digits without a place in decimal
notation. -/
def ornamentalDigits : List (Nat × Nat) :=
  [(0xB2, 0xB3), (0xB9, 0xB9), (0x1369, 0x1371), (0x19DA, 0x19DA), (0x2070, 0x2070),
   (0x2074, 0x2079), (0x2080, 0x2089), (0x2460, 0x2468), (0x2474, 0x247C), (0x2488, 0x2490),
   (0x24EA, 0x24EA), (0x24F5, 0x24FD), (0x24FF, 0x24FF), (0x2776, 0x277E), (0x2780, 0x2788),
   (0x278A, 0x2792), (0x10A40, 0x10A43), (0x10E60, 0x10E68), (0x11052, 0x1105A),
   (0x1F100, 0x1F10A)]

/-- The value of a decimal digit of any script. -/
def decimalValue? (c : Char) : Option Nat :=
  (decimalZeros.find? fun z => z ≤ c.toNat && c.toNat ≤ z + 9).map (c.toNat - ·)

/-- The decimal digits of all scripts. -/
def isDecimal (c : Char) : Bool :=
  (decimalValue? c).isSome

/-- All characters with a digit value, the decimal digits and the ornamental ones. -/
def isDigit (c : Char) : Bool :=
  isDecimal c || ornamentalDigits.any fun r => r.1 ≤ c.toNat && c.toNat ≤ r.2

/-- The most digits that a number may have when it is read or shown. -/
def maxDigits : Nat := 4300

/-- The number that a text of decimal digits stands for, whatever its length. -/
def decimalNat (cs : List Char) : Nat :=
  cs.foldl (fun n c => 10 * n + (decimalValue? c).getD 0) 0

/-- The number that a text stands for: it has at least one and at most `maxDigits` characters, all
of them decimal digits. -/
def readNat? (cs : List Char) : Option Nat :=
  if cs ≠ [] ∧ cs.all isDecimal ∧ cs.length ≤ maxDigits then some (decimalNat cs) else none

/-- A whole number may be shown if it has at most `maxDigits` digits. -/
def isShowable (n : Int) : Bool :=
  n.natAbs < Nat.pow 10 maxDigits

/-- Every decimal digit has a digit value. -/
theorem isDigit_of_isDecimal {c : Char} (h : isDecimal c = true) : isDigit c = true := by
  simp [isDigit, h]

/-- A number is read from decimal digits alone. -/
theorem all_isDecimal_of_readNat? {cs : List Char} {n : Nat} (h : readNat? cs = some n) :
    cs.all isDecimal = true := by
  unfold readNat? at h
  split at h
  · next hc => exact hc.2.1
  · cases h

end CellLineage.Text
