import CellLineage.Datum.Basic
import CellLineage.Text.Digit

/-!
# Reading JSON text

The reader accepts JSON with three additions: the numbers `NaN`, `Infinity` and `-Infinity`. Whole
numbers have any size up to `Text.maxDigits` digits, other numbers become the nearest double, and an
object keeps its fields in order, a repeated name keeping its first place and its last value. Two
escapes that are a pair of surrogates stand for one character.

A text that is not JSON is refused with the place of the first character that does not fit. Inside
the reader a place is the number of characters that are left there; `Json.read` turns it into a
position from the start with its line and column (`Place`).

Each step returns the rest of the text with a proof that it is shorter (`Step`), so the reader ends.
-/

namespace CellLineage.Json

/-- Why a text is not JSON. -/
inductive Cause where
  | byteOrderMark
  | missingValue
  | missingName
  | missingColon
  | missingComma
  | unterminated
  | control
  | badEscape
  | badCode
  | extra
  deriving DecidableEq, Repr

/-- The cause in words. -/
def Cause.message : Cause → String
  | .byteOrderMark => "Unexpected UTF-8 BOM (decode using utf-8-sig)"
  | .missingValue => "Expecting value"
  | .missingName => "Expecting property name enclosed in double quotes"
  | .missingColon => "Expecting ':' delimiter"
  | .missingComma => "Expecting ',' delimiter"
  | .unterminated => "Unterminated string starting at"
  | .control => "Invalid control character at"
  | .badEscape => "Invalid \\escape"
  | .badCode => "Invalid \\uXXXX escape"
  | .extra => "Extra data"

/-- Why reading stopped, and how many characters were left: the text is not JSON, or a whole number
in it has too many digits. -/
inductive Stop where
  | malformed (cause : Cause) (left : Nat)
  | oversized
  deriving DecidableEq, Repr

/-- Something read from the front of `cs`, with the rest of the text. -/
structure Step (α : Type) (cs : List Char) where
  value : α
  rest : List Char
  shorter : rest.length < cs.length

/-- The blanks between the parts of a JSON text. -/
def isBlank (c : Char) : Bool :=
  c == ' ' || c == '\t' || c == '\n' || c == '\r'

/-- The text from its first character that is not blank. -/
def skipBlanks (cs : List Char) : List Char :=
  cs.dropWhile isBlank

theorem length_skipBlanks_le (cs : List Char) : (skipBlanks cs).length ≤ cs.length :=
  (List.dropWhile_sublist _).length_le

/-! ## Texts -/

/-- The value of a hexadecimal digit. -/
def hexValue? (c : Char) : Option Nat :=
  if '0' ≤ c ∧ c ≤ '9' then some (c.toNat - 48)
  else if 'a' ≤ c ∧ c ≤ 'f' then some (c.toNat - 87)
  else if 'A' ≤ c ∧ c ≤ 'F' then some (c.toNat - 55)
  else none

/-- The number written by four hexadecimal digits. -/
def hexCode? (a b c d : Char) : Option Nat := do
  return (((← hexValue? a) * 16 + (← hexValue? b)) * 16 + (← hexValue? c)) * 16 + (← hexValue? d)

/-- The character of a one-letter escape. -/
def escaped? : Char → Option Char
  | '"' => some '"'
  | '\\' => some '\\'
  | '/' => some '/'
  | 'b' => some '\x08'
  | 'f' => some '\x0c'
  | 'n' => some '\n'
  | 'r' => some '\r'
  | 't' => some '\t'
  | _ => none

/-- The code numbers of a text up to its closing quote, and what comes after the quote. `opening` is
how many characters were left at the opening quote. -/
def readCodes (opening : Nat) : List Char → Except Stop (List Nat × List Char)
  | [] => .error (.malformed .unterminated opening)
  | '"' :: rest => .ok ([], rest)
  | ['\\'] => .error (.malformed .unterminated opening)
  | '\\' :: 'u' :: a :: b :: c :: d :: e :: rest =>
    match hexCode? a b c d with
    | none => .error (.malformed .badCode (rest.length + 6))
    | some n => do
      let (ns, rest) ← readCodes opening (e :: rest)
      return (n :: ns, rest)
  | '\\' :: 'u' :: rest => .error (.malformed .badCode (rest.length + 1))
  | '\\' :: c :: rest =>
    match escaped? c with
    | none => .error (.malformed .badEscape (rest.length + 2))
    | some c => do
      let (ns, rest) ← readCodes opening rest
      return (c.toNat :: ns, rest)
  | c :: rest =>
    if c < ' ' then .error (.malformed .control (rest.length + 1))
    else do
      let (ns, rest) ← readCodes opening rest
      return (c.toNat :: ns, rest)

/-- Reading a text uses up its closing quote at least. -/
theorem length_lt_of_readCodes {opening : Nat} {cs : List Char} {ns : List Nat}
    {rest : List Char} (h : readCodes opening cs = .ok (ns, rest)) : rest.length < cs.length := by
  fun_induction readCodes opening cs generalizing ns rest <;>
    simp_all [bind, Except.bind, pure, Except.pure] <;> grind

/-- A text whose opening quote is read, up to and with its closing quote. -/
def readText (cs : List Char) : Except Stop (Step Text cs) :=
  match h : readCodes (cs.length + 1) cs with
  | .error stop => .error stop
  | .ok (ns, rest) => .ok ⟨.ofCodes ns, rest, length_lt_of_readCodes h⟩

/-! ## Numbers -/

/-- The ASCII digits at the front of a text. -/
def digits (cs : List Char) : List Char :=
  cs.takeWhile Char.isDigit

/-- The digits of a fraction, after a point that digits follow. -/
def fractionDigits : List Char → List Char
  | '.' :: cs => digits cs
  | _ => []

/-- The sign and the digits of an exponent, and how many characters it takes. -/
def exponentPart : List Char → Option (Bool × List Char × Nat)
  | e :: cs =>
    if e = 'e' ∨ e = 'E' then
      let (negative, sign, cs) := match cs with
        | '-' :: cs => (true, 1, cs)
        | '+' :: cs => (false, 1, cs)
        | cs => (false, 0, cs)
      match digits cs with
      | [] => none
      | ds => some (negative, ds, 1 + sign + ds.length)
    else none
  | [] => none

/-- The whole part of a number: a zero alone, or digits without a leading zero. -/
def wholeDigits : List Char → List Char
  | '0' :: _ => ['0']
  | cs => digits cs

/-- A number without its sign, and how many characters it takes: a whole number if it has neither
fraction nor exponent, else the nearest double. -/
def readMagnitude (negative : Bool) (cs : List Char) : Except Stop (Option (Number × Nat)) :=
  match wholeDigits cs with
  | [] => .ok none
  | whole =>
    let afterWhole := cs.drop whole.length
    let fraction := fractionDigits afterWhole
    let fractionLength := if fraction = [] then 0 else fraction.length + 1
    match fraction, exponentPart (afterWhole.drop fractionLength) with
    | [], none =>
      match Text.readNat? whole with
      | none => .error .oversized
      | some n => .ok (some (.int (if negative then -(n : Int) else n), whole.length))
    | _, exponent =>
      let (expNegative, expDigits, expLength) := exponent.getD (false, [], 0)
      let e : Int := Text.decimalNat expDigits
      let value := Binary64.ofDecimal negative (Text.decimalNat (whole ++ fraction))
        ((if expNegative then -e else e) - fraction.length)
      .ok (some (.float value, whole.length + fractionLength + expLength))

/-- The words that stand for values. -/
def words : List (List Char × Datum) :=
  [("null".toList, .null), ("true".toList, .bool true), ("false".toList, .bool false),
    ("NaN".toList, .number (.float Binary64.notANumber)),
    ("Infinity".toList, .number (.float (Binary64.infinity false))),
    ("-Infinity".toList, .number (.float (Binary64.infinity true)))]

/-- A word or a number, and how many characters it takes. -/
def readAtom (cs : List Char) : Except Stop (Option (Datum × Nat)) :=
  match words.find? fun w => w.1.isPrefixOf cs with
  | some w => .ok (some (w.2, w.1.length))
  | none => do
    match cs with
    | '-' :: cs => return (← readMagnitude true cs).map fun (n, k) => (.number n, k + 1)
    | cs => return (← readMagnitude false cs).map fun (n, k) => (.number n, k)

/-! ## Values -/

/-- What is refused at the front of `cs`. -/
def refuse {α : Type} (cause : Cause) (cs : List Char) : Except Stop α :=
  .error (.malformed cause cs.length)

mutual

/-- The value at the front of a text. -/
def readValue (cs : List Char) : Except Stop (Step Datum cs) :=
  match cs with
  | [] => refuse .missingValue []
  | '"' :: rest => do
    let s ← readText rest
    return ⟨.text s.value, s.rest, by have := s.shorter; simp; omega⟩
  | '[' :: rest =>
    match h : skipBlanks rest with
    | ']' :: after => .ok ⟨.list [], after, by
        have := length_skipBlanks_le rest
        simp_all; omega⟩
    | inside => do
      have := length_skipBlanks_le rest
      let s ← readItems inside
      return ⟨.list s.value, s.rest, by have := s.shorter; simp_all; omega⟩
  | '{' :: rest =>
    match h : skipBlanks rest with
    | '}' :: after => .ok ⟨.object [], after, by
        have := length_skipBlanks_le rest
        simp_all; omega⟩
    | inside => do
      have := length_skipBlanks_le rest
      let s ← readFields [] inside
      return ⟨.object s.value, s.rest, by have := s.shorter; simp_all; omega⟩
  | c :: rest => do
    match ← readAtom (c :: rest) with
    | none => refuse .missingValue (c :: rest)
    | some (d, k) =>
      return ⟨d, rest.drop (k - 1), by rw [List.length_drop, List.length_cons]; omega⟩
termination_by (cs.length, 0)
decreasing_by all_goals simp_all [Prod.lex_def] <;> omega

/-- The items of a list, up to and with its closing bracket. -/
def readItems (cs : List Char) : Except Stop (Step (List Datum) cs) := do
  let first ← readValue cs
  have := first.shorter
  have := length_skipBlanks_le first.rest
  match h : skipBlanks first.rest with
  | ']' :: after => return ⟨[first.value], after, by simp_all; omega⟩
  | ',' :: after =>
    have := length_skipBlanks_le after
    let others ← readItems (skipBlanks after)
    return ⟨first.value :: others.value, others.rest, by
      have := others.shorter; simp_all; omega⟩
  | other => refuse .missingComma other
termination_by (cs.length, 1)
decreasing_by all_goals simp_all [Prod.lex_def] <;> omega

/-- The fields of an object after the fields `before`, up to and with its closing brace. -/
def readFields (before : Fields) (cs : List Char) : Except Stop (Step Fields cs) :=
  match cs with
  | '"' :: rest => do
    let name ← readText rest
    have := name.shorter
    have := length_skipBlanks_le name.rest
    match h : skipBlanks name.rest with
    | ':' :: rest =>
      have := length_skipBlanks_le rest
      let value ← readValue (skipBlanks rest)
      have := value.shorter
      have := length_skipBlanks_le value.rest
      let fields := before.put name.value value.value
      match h' : skipBlanks value.rest with
      | '}' :: after => return ⟨fields, after, by simp_all; omega⟩
      | ',' :: after =>
        have := length_skipBlanks_le after
        let all ← readFields fields (skipBlanks after)
        return ⟨all.value, all.rest, by have := all.shorter; simp_all; omega⟩
      | other => refuse .missingComma other
    | other => refuse .missingColon other
  | other => refuse .missingName other
termination_by (cs.length, 1)
decreasing_by all_goals simp_all [Prod.lex_def] <;> omega

end

/-! ## Whole texts -/

/-- A place in a text: the line and the column count from one, the position from zero. -/
structure Place where
  line : Nat
  column : Nat
  position : Nat
  deriving DecidableEq, Repr

/-- The place of a position in a text. -/
def Place.ofPosition (cs : List Char) (position : Nat) : Place :=
  let before := cs.take position
  ⟨before.count '\n' + 1, (before.reverse.takeWhile (· != '\n')).length + 1, position⟩

/-- Why a text is not JSON, and the place of the first character that does not fit. -/
structure Misfit where
  cause : Cause
  place : Place
  deriving DecidableEq, Repr

/-- The misfit in words. -/
def Misfit.message (m : Misfit) : String :=
  m.cause.message ++ ": line " ++ toString m.place.line ++ " column " ++
    toString m.place.column ++ " (char " ++ toString m.place.position ++ ")"

/-- Why a text cannot be read: it is not JSON, or a whole number in it has too many digits. -/
inductive Fault where
  | malformed (what : Misfit)
  | oversized
  deriving DecidableEq, Repr

/-- The value that a list of characters stands for. -/
def readAll (cs : List Char) : Except Stop Datum := do
  if cs.head? = some '\uFEFF' then refuse .byteOrderMark cs
  let s ← readValue (skipBlanks cs)
  match skipBlanks s.rest with
  | [] => return s.value
  | rest => refuse .extra rest

/-- The value that a JSON text stands for. -/
def read (text : String) : Except Fault Datum :=
  let cs := text.toList
  match readAll cs with
  | .ok d => .ok d
  | .error .oversized => .error .oversized
  | .error (.malformed cause left) =>
    .error (.malformed ⟨cause, Place.ofPosition cs (cs.length - left)⟩)

end CellLineage.Json
