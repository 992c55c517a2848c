import CellLineage.Text.Basic
import CellLineage.Text.Printable

/-!
# Quoted text

A text inside a message stands between quotes, so that its ends, its blanks and its controls can be
seen. Single quotes are used unless the text holds a single quote and no double quote. A backslash,
the quote itself and whatever does not show as itself are written as escapes.
-/

namespace CellLineage.Text

/-- The hexadecimal digits of `n`, in lower case, at least `width` of them. -/
def hex (width n : Nat) : List Char :=
  let digits := Nat.toDigits 16 n
  List.replicate (width - digits.length) '0' ++ digits

/-- The escape of a code number: two, four or eight hexadecimal digits. -/
def numericEscape (n : Nat) : List Char :=
  if n < 0x100 then '\\' :: 'x' :: hex 2 n
  else if n < 0x10000 then '\\' :: 'u' :: hex 4 n
  else '\\' :: 'U' :: hex 8 n

/-- How a character is written between two quotes `q`. -/
def quotedChar (q c : Char) : List Char :=
  if c = '\\' ∨ c = q then ['\\', c]
  else if c = '\n' then ['\\', 'n']
  else if c = '\r' then ['\\', 'r']
  else if c = '\t' then ['\\', 't']
  else if isPrintable c then [c]
  else numericEscape c.toNat

/-- How a symbol is written between two quotes `q`. -/
def quotedSymbol (q : Char) : Symbol → List Char
  | .char c => quotedChar q c
  | .surrogate k => numericEscape (Symbol.surrogate k).code

/-- The quote that symbols are put between. -/
def quoteFor (xs : List Symbol) : Char :=
  if .char '\'' ∈ xs ∧ .char '"' ∉ xs then '"' else '\''

/-- The text between quotes, with escapes for what would not show. -/
def quoted (t : Text) : String :=
  let q := quoteFor t.symbols
  String.ofList (q :: t.symbols.flatMap (quotedSymbol q) ++ [q])

end CellLineage.Text
