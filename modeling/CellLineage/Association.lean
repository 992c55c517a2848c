import CellLineage.Text.Basic

/-!
# Values by name

An association gives values to names and remembers the order in which the names came: a name that is
given a new value keeps its place (`names_put`), and it then has that value while all others keep
theirs (`lookup_put`).
-/

namespace CellLineage

/-- Values by name, in the order in which the names came. -/
abbrev Association (α : Type) := List (Text × α)

namespace Association

variable {α : Type}

/-- The names that have a value. -/
def names (xs : Association α) : List Text :=
  xs.map Prod.fst

/-- The association in which `name` has the value `a`. -/
def put (xs : Association α) (name : Text) (a : α) : Association α :=
  match xs with
  | [] => [(name, a)]
  | x :: xs => if x.1 = name then (name, a) :: xs else x :: put xs name a

/-- The association without the names that fail a test. -/
def keep (xs : Association α) (test : Text → Bool) : Association α :=
  xs.filter fun x => test x.1

theorem lookup_put (xs : Association α) (name other : Text) (a : α) :
    (put xs name a).lookup other = if other = name then some a else xs.lookup other := by
  induction xs with
  | nil => grind [put]
  | cons x xs ih => grind [put]

theorem names_put (xs : Association α) (name : Text) (a : α) :
    names (put xs name a) = if name ∈ names xs then names xs else names xs ++ [name] := by
  induction xs with
  | nil => rfl
  | cons x xs ih => grind [put, names]

theorem names_keep (xs : Association α) (test : Text → Bool) :
    names (keep xs test) = (names xs).filter test := by
  simp [names, keep, List.filter_map, Function.comp_def]

theorem lookup_keep (xs : Association α) (test : Text → Bool) (name : Text) :
    (keep xs test).lookup name = if test name then xs.lookup name else none := by
  induction xs with
  | nil => simp [keep]
  | cons x xs ih => grind [keep]

/-- The value of a name where each of some names has a value of its own. -/
theorem lookup_map (names : List Text) (value : Text → α) (name : Text) :
    (names.map fun name => (name, value name)).lookup name =
      if name ∈ names then some (value name) else none := by
  induction names with
  | nil => rfl
  | cons other names ih =>
    rw [List.map_cons, List.lookup_cons]
    by_cases h : name = other
    · subst h
      simp
    · have hne : (name == other) = false := beq_eq_false_iff_ne.2 h
      rw [hne]
      simpa [h] using ih

theorem lookup_isSome_iff (xs : Association α) (name : Text) :
    (xs.lookup name).isSome ↔ name ∈ names xs := by
  induction xs with
  | nil => simp [names]
  | cons x xs ih => grind [names]

theorem lookup_eq_none_iff (xs : Association α) (name : Text) :
    xs.lookup name = none ↔ name ∉ names xs := by
  rw [← lookup_isSome_iff, Option.not_isSome_iff_eq_none]

end Association

end CellLineage
