import CellLineage.Datum.Basic
import CellLineage.Document.Numeral
import CellLineage.Document.Problem

/-!
# Readings of single values

The values in a document may be given loosely: a whole number as a text, a truth value or a double
without a fraction, a truth value as a number or as one of some words. What already is of the kind
asked for is kept as it is (`wholeNumber_int`, `truth_bool`, `text_text`, `number_number`), and so
is read again as itself. A text that stands for something else has to be a string; where a text is
asked for, it need not be one.
-/

namespace CellLineage.Document

open Checked

/-- The reading of a text that has to be a string. -/
def ofString {α : Type} (read : String → Checked α) (t : Text) : Checked α :=
  match t.toString? with
  | some s => read s
  | none => refuse .illFormedText

/-! ## Whole numbers -/

/-- The whole number that a text stands for. -/
def wholeOfText (s : String) : Checked Int :=
  if Numeral.isOversized s.toList then refuse .oversizedWhole
  else match Numeral.whole? s.toList with
    | some n => .valid n
    | none => refuse .unreadableWhole

/-- Doubles from here on stand for no whole number. -/
def wholeDoubleLimit : Nat := Nat.pow 2 63

/-- The whole number that a double stands for. -/
def wholeOfDouble (x : Float) : Checked Int :=
  match Binary64.parts x with
  | .finite .. =>
    match Binary64.toInt? x with
    | none => refuse .fractional
    | some n => if n.natAbs < wholeDoubleLimit then .valid n else refuse .oversizedWhole
  | _ => refuse .notFinite

/-- The whole number that a truth value stands for. -/
def wholeOfTruth (b : Bool) : Int :=
  if b then 1 else 0

/-- The whole number that a datum stands for. -/
def wholeNumber : Datum → Checked Int
  | .number (.int n) => .valid n
  | .number (.float x) => wholeOfDouble x
  | .bool b => .valid (wholeOfTruth b)
  | .text t => ofString wholeOfText t
  | _ => refuse .notWhole

/-- A whole number that is not less than `least`. -/
def atLeast (least : Nat) (d : Datum) : Checked { n : Nat // least ≤ n } :=
  (wholeNumber d).andThen fun n =>
    if h : (least : Int) ≤ n then .valid ⟨n.toNat, by omega⟩ else refuse .tooSmall

/-! ## Truth values and texts -/

/-- The words for a truth value, in small letters. -/
def truthWords : List (String × Bool) :=
  [("0", false), ("off", false), ("f", false), ("false", false), ("n", false), ("no", false),
    ("1", true), ("on", true), ("t", true), ("true", true), ("y", true), ("yes", true)]

/-- The truth value that a whole number stands for. -/
def truthOfWhole (n : Int) : Checked Bool :=
  if n = 0 then .valid false else if n = 1 then .valid true else refuse .unreadableTruth

/-- The truth value that a text stands for. -/
def truthOfText (s : String) : Checked Bool :=
  match truthWords.lookup (String.ofList (s.toList.map Char.toLower)) with
  | some b => .valid b
  | none => refuse .unreadableTruth

/-- The truth value that a datum stands for. A number that is not whole, or is beyond 64 bits, is of
another kind altogether. -/
def truth : Datum → Checked Bool
  | .bool b => .valid b
  | .text t => ofString truthOfText t
  | .number (.int n) =>
    if -(Nat.pow 2 63 : Int) ≤ n ∧ n < (Nat.pow 2 63 : Nat) then truthOfWhole n else refuse .notTruth
  | .number (.float x) =>
    match wholeOfDouble x with
    | .valid n => truthOfWhole n
    | .invalid _ => refuse .notTruth
  | _ => refuse .notTruth

/-- A text. -/
def text : Datum → Checked Text
  | .text t => .valid t
  | _ => refuse .notText

/-- A text or nothing. -/
def text? : Datum → Checked (Option Text)
  | .null => .valid none
  | d => some <$> text d

/-! ## Numbers -/

/-- The problems of a datum that is no number, as a whole number and as a double. -/
def noNumber (whole double : Flaw) : Checked Number :=
  .invalid [⟨[.asWhole], whole⟩, ⟨[.asDouble], double⟩]

/-- The number that a text stands for: a whole number if it can be one, else a double. -/
def numberOfText (s : String) : Checked Number :=
  match wholeOfText s, Numeral.double? s.toList with
  | .valid n, _ => .valid (.int n)
  | .invalid _, some x => .valid (.float x)
  | .invalid ps, none => .invalid (ps.map (Problem.behind .asWhole) ++
      [⟨[.asDouble], .unreadableDouble⟩])

/-- The number that a datum stands for. -/
def number : Datum → Checked Number
  | .number n => .valid n
  | .bool b => .valid (.int (wholeOfTruth b))
  | .text t =>
    match t.toString? with
    | some s => numberOfText s
    | none => noNumber .illFormedText .illFormedText
  | _ => noNumber .notWhole .notDouble

@[simp] theorem wholeNumber_int (n : Int) : wholeNumber (.int n) = .valid n := rfl

@[simp] theorem atLeast_int {least : Nat} (n : { n : Nat // least ≤ n }) :
    atLeast least (.int n) = .valid n := by
  have h : (least : Int) ≤ n.1 := by exact_mod_cast n.2
  simp [atLeast, andThen, h]

@[simp] theorem truth_bool (b : Bool) : truth (.bool b) = .valid b := rfl

@[simp] theorem text_text (t : Text) : text (.text t) = .valid t := rfl

@[simp] theorem number_number (n : Number) : number (.number n) = .valid n := rfl

end CellLineage.Document
