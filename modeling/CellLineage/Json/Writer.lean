import CellLineage.Datum.Basic

/-!
# Writing JSON text

The writer puts every item and every field on a line of its own, two more blanks in for each level,
and leaves empty lists and objects on one line. The text is ASCII: every other character, and the
delete control, is written as the escapes of its UTF-16 units.
-/

namespace CellLineage.Json

/-- The escape of a UTF-16 unit. -/
def unitEscape (n : Nat) : List Char :=
  '\\' :: 'u' :: Text.hex 4 n

/-- How a character is written inside a JSON text. -/
def writtenChar (c : Char) : List Char :=
  let n := c.toNat
  if c = '"' ∨ c = '\\' then ['\\', c]
  else if c = '\n' then ['\\', 'n']
  else if c = '\r' then ['\\', 'r']
  else if c = '\t' then ['\\', 't']
  else if c = '\x0c' then ['\\', 'f']
  else if c = '\x08' then ['\\', 'b']
  else if ' ' ≤ c ∧ c ≤ '~' then [c]
  else if n < 0x10000 then unitEscape n
  else unitEscape (0xD800 + (n - 0x10000) / 0x400) ++ unitEscape (0xDC00 + (n - 0x10000) % 0x400)

/-- How a symbol is written inside a JSON text. -/
def writtenSymbol : Symbol → List Char
  | .char c => writtenChar c
  | .surrogate k => unitEscape (Symbol.surrogate k).code

/-- A text between quotes. -/
def writtenText (t : Text) : String :=
  String.ofList ('"' :: t.symbols.flatMap writtenSymbol ++ ['"'])

/-- Doubles are written as in messages, apart from the names of what is not finite. -/
def numberLayout : Binary64.DecimalLayout :=
  { Number.layout with notANumber := "NaN", infinity := "Infinity" }

/-- A number in JSON text. -/
def writtenNumber : Number → String
  | .int n => toString n
  | .float x => numberLayout.render x

/-- A new line that is `level` levels in. -/
def newLine (level : Nat) : String :=
  String.ofList ('\n' :: List.replicate (2 * level) ' ')

/-- The parts of a list or an object that is `level` levels in, between its delimiters. -/
def enclosed (opening closing : String) (level : Nat) (parts : List String) : String :=
  if parts = [] then opening ++ closing
  else
    opening ++ newLine (level + 1) ++ ("," ++ newLine (level + 1)).intercalate parts ++
      newLine level ++ closing

mutual

/-- The JSON text of a datum that is `level` levels in. -/
def writeAt (level : Nat) : Datum → String
  | .null => "null"
  | .bool true => "true"
  | .bool false => "false"
  | .number n => writtenNumber n
  | .text t => writtenText t
  | .list items => enclosed "[" "]" level (writeItems (level + 1) items)
  | .object fields => enclosed "\x7b" "\x7d" level (writeFields (level + 1) fields)

/-- The JSON texts of the items of a list. -/
def writeItems (level : Nat) : List Datum → List String
  | [] => []
  | d :: ds => writeAt level d :: writeItems level ds

/-- The JSON texts of the fields of an object. -/
def writeFields (level : Nat) : List (Text × Datum) → List String
  | [] => []
  | (name, d) :: fs => (writtenText name ++ ": " ++ writeAt level d) :: writeFields level fs

end

/-- The JSON text of a datum. -/
def write (d : Datum) : String :=
  writeAt 0 d

end CellLineage.Json
