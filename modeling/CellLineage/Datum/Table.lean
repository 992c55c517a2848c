import CellLineage.Datum.Basic

/-!
# Tables of numbers

Nested lists of numbers are a table if they are regular: all items of a list have the same extents,
or none has any. The numbers are taken as doubles, a truth value as one or zero, and nothing as what
is no number; a double that is a whole number then counts as that number. A table with rows and
columns has two extents.

## Main definitions

* `Datum.extents?`: how many items there are on each level, if the lists are regular.
* `Datum.table`: the rows of a table, or why there is none.
-/

namespace CellLineage

/-- Why nested lists are no table. -/
inductive Table.Fault where
  /-- The lists are not regular, have too many levels or hold a text. -/
  | irregular
  /-- The lists hold an object. -/
  | foreign
  /-- A whole number is beyond the largest double. -/
  | overflow
  /-- The number of levels is not two. -/
  | levels (n : Nat)
  deriving DecidableEq, Repr

namespace Datum

mutual

/-- How many items there are on each level, if the lists are regular. -/
def extents? : Datum → Option (List Nat)
  | .list items => itemExtents? items
  | _ => some []

/-- The extents of a list with the given items. -/
def itemExtents? : List Datum → Option (List Nat)
  | [] => some [0]
  | [d] => d.extents?.map (1 :: ·)
  | d :: e :: ds =>
    match d.extents?, itemExtents? (e :: ds) with
    | some inner, some (n :: others) => if inner = others then some ((n + 1) :: inner) else none
    | _, _ => none

end

/-- The double that an entry of a table stands for. -/
def double : Datum → Except Table.Fault Float
  | .number n =>
    match n.toFloat? with
    | some x => .ok x
    | none => .error .overflow
  | .bool b => .ok (if b then 1 else 0)
  | .null => .ok Binary64.notANumber
  | .object _ => .error .foreign
  | _ => .error .irregular

mutual

/-- The doubles on all levels, in order. -/
def doubles : Datum → Except Table.Fault (List Float)
  | .list items => itemDoubles items
  | d => do return [← d.double]

/-- The doubles in a list of items, in order. -/
def itemDoubles : List Datum → Except Table.Fault (List Float)
  | [] => .ok []
  | d :: ds => do return (← d.doubles) ++ (← itemDoubles ds)

end

/-- The items of a list; none of anything else. -/
def items : Datum → List Datum
  | .list ds => ds
  | _ => []

/-- The rows of a table. -/
def numberRows (d : Datum) : Except Table.Fault (List (List Number)) :=
  d.items.mapM fun row => return (← row.doubles).map Number.ofFloat

/-- The most levels that nested lists may have to be regular. -/
def maxLevels : Nat := 64

/-- The rows of a table: that the lists are regular is checked first, then the numbers, then the
levels. -/
def table (d : Datum) : Except Table.Fault (List (List Number)) :=
  match d.extents?.filter (·.length ≤ maxLevels) with
  | none => .error .irregular
  | some extents => do
    let _ ← d.doubles
    if extents.length = 2 then d.numberRows else throw (.levels extents.length)

end Datum

end CellLineage
