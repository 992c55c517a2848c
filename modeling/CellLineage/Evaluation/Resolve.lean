import CellLineage.Formula.Product
import CellLineage.Formula.Plan

/-!
# Resolving relative references

The members of a family are the matrices whose name is the base, an underscore and decimal digits; a
line end after the digits is passed over. A relative reference means the member at an index, or the
last member if the index is beyond it. While a family has no member its relative references stay as
they are.

## Main definitions

* `memberIndices`: the indices of the members of a family.
* `Product.resolve`: a product with its relative references resolved.
-/

namespace CellLineage.Formula

/-- A text without a line end after it. -/
def withoutLineEnd (xs : List Symbol) : List Symbol :=
  if xs.getLast? = some (.char '\n') then xs.dropLast else xs

/-- The digits after the base and the underscore, if the name is that of a member of the family. -/
def memberDigits? (base name : Text) : Option (List Char) :=
  match (base ++ "_").symbols.isPrefixOf? name.symbols with
  | none => none
  | some rest =>
    match Text.chars? (withoutLineEnd rest) with
    | none => none
    | some digits => if digits ≠ [] ∧ digits.all Text.isDecimal then some digits else none

/-- A number from its digits. -/
def readIndex (digits : List Char) : Except IndexFault Nat :=
  match Text.readNat? digits with
  | some n => .ok n
  | none => .error .unreadable

/-- The indices of the members of a family among the names, in ascending order. -/
def memberIndices (names : List Text) (base : Text) : Except IndexFault (List Nat) := do
  let indices ← (names.filterMap (memberDigits? base)).mapM readIndex
  return indices.mergeSort

/-- The name of the member of a family at an index, if the index may be shown. -/
def memberName? (base : Text) (index : Int) : Except IndexFault Text :=
  if Text.isShowable index then .ok (memberName base index) else .error .unreadable

/-- The index that a relative subscript stands for at index `n`. -/
def Subscript.relativeIndex (s : Subscript) (n : Int) : Int :=
  if s = .next then n + 1 else n

/-- A reference with a relative subscript resolved at index `n`. -/
def Reference.resolve (r : Reference) (n : Int) (names : List Text) :
    Except IndexFault Reference :=
  if r.isRelative then do
    match (← memberIndices names r.base).getLast? with
    | none => return r
    | some last => return r.withIndex (min (r.subscript.relativeIndex n) last)
  else .ok r

/-- A product with its relative references resolved at index `n`. -/
def Product.resolve (n : Int) (names : List Text) : Product → Except IndexFault Product
  | .single r => do return .single (← r.resolve n names)
  | .times p q => do return .times (← p.resolve n names) (← q.resolve n names)

end CellLineage.Formula
