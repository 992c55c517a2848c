import CellLineage.Text.Blank
import CellLineage.Text.Digit

/-!
# References to matrices

A formula names a matrix by an upper-case letter with lower-case letters after it, the *base*, and
an optional subscript. A number or a label as subscript is part of the matrix name. The subscripts
`n` and `n+1` are not: they stand for the current and the next index of a sequence and say which
member of the family of the base is meant. A reference may also ask for the transpose.

## Main definitions

* `Subscript`, `Subscript.read`: subscripts, and their text with or without braces.
* `Reference.name`: the matrix that a reference names.
* `Reference.display`: the reference as it is shown.
-/

namespace CellLineage.Formula

/-- A text made of digit characters is no number: not all of them are decimal digits, or there are
more than a number may have. -/
inductive IndexFault where
  | unreadable
  deriving DecidableEq, Repr

/-- What stands below a matrix name. -/
inductive Subscript where
  /-- Nothing. -/
  | absent
  /-- A number, which is part of the matrix name. -/
  | number (index : Int)
  /-- The current index of a sequence. -/
  | current
  /-- The next index of a sequence. -/
  | next
  /-- Any other text, which is part of the matrix name. -/
  | label (text : Text)
  deriving DecidableEq, Repr

namespace Subscript

/-- A text without the braces around it. -/
def withoutBraces (xs : List Symbol) : List Symbol :=
  match xs with
  | .char '{' :: inner => if inner.getLast? = some (.char '}') then inner.dropLast else xs
  | xs => xs

/-- The subscript that a text stands for. A text of digit characters has to be a number. -/
def read (xs : List Symbol) : Except IndexFault Subscript :=
  if xs = [] then .ok .absent
  else
    let inner := withoutBraces xs
    if inner ≠ [] ∧ inner.all (·.holds Text.isDigit) then
      match (Text.chars? inner).bind Text.readNat? with
      | some n => .ok (.number n)
      | none => .error .unreadable
    else if inner = [.char 'n'] then .ok .current
    else if inner = [.char 'n', .char '+', .char '1'] then .ok .next
    else .ok (.label ⟨inner⟩)

/-- The text of a subscript, if there is one. -/
def text? : Subscript → Option Text
  | .absent => none
  | .number n => some (toString n)
  | .current => some "n"
  | .next => some "n+1"
  | .label s => some s

/-- The subscript stands for an index of a sequence. -/
def isRelative : Subscript → Bool
  | .current | .next => true
  | _ => false

/-- The subscript is a number. -/
def isNumber : Subscript → Bool
  | .number _ => true
  | _ => false

end Subscript

/-- The name of the member of a family at an index. -/
def memberName (base : Text) (index : Int) : Text :=
  base ++ "_" ++ toString index

/-- One occurrence of a matrix in a formula. -/
structure Reference where
  base : Text
  subscript : Subscript
  transposed : Bool
  /-- How many symbols of the expression, blanks left out, come before the reference. -/
  position : Int
  deriving DecidableEq, Repr

namespace Reference

/-- The reference means a member of its family by the current or the next index. -/
def isRelative (r : Reference) : Bool :=
  r.subscript.isRelative

/-- The name of the matrix that the reference means; of a relative reference, its base. -/
def name (r : Reference) : Text :=
  match r.subscript with
  | .absent | .current | .next => r.base
  | .number n => memberName r.base n
  | .label s => r.base ++ "_" ++ s

/-- A transposed occurrence is a derived view; any other one may be painted. -/
def isEditable (r : Reference) : Bool :=
  !r.transposed

/-- The reference as it is shown: a subscript of more than one symbol stands in braces. -/
def display (r : Reference) : Text :=
  let below : Text := match r.subscript.text? with
    | none => ""
    | some s => if 1 < s.symbols.length then "_\x7b" ++ s ++ "\x7d" else "_" ++ s
  let mark : Text := if r.transposed then "^T" else ""
  r.base ++ below ++ mark

/-- The same occurrence with a number as subscript. -/
def withIndex (r : Reference) (index : Int) : Reference :=
  { r with subscript := .number index }

@[simp] theorem name_withIndex (r : Reference) (index : Int) :
    (r.withIndex index).name = memberName r.base index := rfl

@[simp] theorem isRelative_withIndex (r : Reference) (index : Int) :
    (r.withIndex index).isRelative = false := rfl

theorem name_eq_base_of_isRelative {r : Reference} (h : r.isRelative = true) :
    r.name = r.base := by
  rcases r with ⟨base, subscript, _, _⟩
  cases subscript <;> simp_all [isRelative, Subscript.isRelative, name]

end Reference

end CellLineage.Formula
