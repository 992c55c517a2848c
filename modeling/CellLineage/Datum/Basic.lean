import CellLineage.Association
import CellLineage.Number.Basic
import CellLineage.Text.Digit
import CellLineage.Text.Quoted

/-!
# Untyped data

Sizes, settings and documents reach the library as data of any kind and are checked before they are
used. A `Datum` is such a value: nothing, a truth value, a number, a text, a list or an object with
its fields in order. It can be shown in a message (`Datum.render`), and any of it can serve as a
condition (`Datum.isTruthy`).
-/

namespace CellLineage

/-- A value of any kind. -/
inductive Datum where
  | null
  | bool (b : Bool)
  | number (n : Number)
  | text (t : Text)
  | list (items : List Datum)
  | object (fields : List (Text × Datum))
  deriving Repr

namespace Datum

instance : Inhabited Datum := ⟨.null⟩

/-- A whole number as untyped data. -/
abbrev int (n : Int) : Datum := .number (.int n)

instance : Coe Int Datum := ⟨int⟩

/-- The whole number that the datum is equal to: a truth value is one or zero, and a double may be a
whole number. -/
def whole? : Datum → Option Int
  | .number (.int n) => some n
  | .number (.float x) => Binary64.toInt? x
  | .bool b => some (if b then 1 else 0)
  | _ => none

/-- The number that the datum counts as: a truth value is one or zero. -/
def number? : Datum → Option Number
  | .number n => some n
  | .bool b => some (.int (if b then 1 else 0))
  | _ => none

/-- The text that the datum is. -/
def text? : Datum → Option Text
  | .text t => some t
  | _ => none

/-- A text or nothing as untyped data. -/
def ofText? : Option Text → Datum
  | some t => .text t
  | none => .null

/-- The datum counts as true: it is neither nothing nor false nor zero nor empty. -/
def isTruthy : Datum → Bool
  | .null => false
  | .bool b => b
  | .number n => n.isNonzero
  | .text t => t != ""
  | .list items => !items.isEmpty
  | .object fields => !fields.isEmpty

/-- The text that the datum gives where a text may be left out: what is no text but counts as false
is left out. -/
def textOrBlank? : Datum → Option Text
  | .text t => some t
  | d => if d.isTruthy then none else some ""

mutual

/-- All whole numbers in the datum have few enough digits to be shown. -/
def isShowable : Datum → Bool
  | .number (.int n) => Text.isShowable n
  | .list items => areShowable items
  | .object fields => fieldsAreShowable fields
  | _ => true

/-- All whole numbers in the items of a list have few enough digits to be shown. -/
def areShowable : List Datum → Bool
  | [] => true
  | d :: ds => d.isShowable && areShowable ds

/-- All whole numbers in the fields of an object have few enough digits to be shown. -/
def fieldsAreShowable : List (Text × Datum) → Bool
  | [] => true
  | (_, d) :: fs => d.isShowable && fieldsAreShowable fs

end

mutual

/-- The datum as it is shown in a message. -/
def render : Datum → String
  | .null => "None"
  | .bool true => "True"
  | .bool false => "False"
  | .number n => n.render
  | .text t => t.quoted
  | .list items => "[" ++ ", ".intercalate (renderItems items) ++ "]"
  | .object fields => "\x7b" ++ ", ".intercalate (renderFields fields) ++ "\x7d"

/-- The items of a list as they are shown in a message. -/
def renderItems : List Datum → List String
  | [] => []
  | d :: ds => d.render :: renderItems ds

/-- The fields of an object as they are shown in a message. -/
def renderFields : List (Text × Datum) → List String
  | [] => []
  | (name, d) :: fs => (name.quoted ++ ": " ++ d.render) :: renderFields fs

end

/-- The datum as part of a sentence: a text as it is, anything else as it is rendered. -/
def display : Datum → Text
  | .text t => t
  | d => d.render

@[simp] theorem isTruthy_bool (b : Bool) : isTruthy (.bool b) = b := rfl

@[simp] theorem whole?_int (n : Int) : whole? (.int n) = some n := rfl

@[simp] theorem number?_number (n : Number) : number? (.number n) = some n := rfl

@[simp] theorem text?_text (t : Text) : text? (.text t) = some t := rfl

end Datum

/-- The fields of an object, in order. -/
abbrev Fields := Association Datum

/-- The value of the field with a name. -/
def Fields.find? (fields : Fields) (name : Text) : Option Datum :=
  fields.lookup name

end CellLineage
