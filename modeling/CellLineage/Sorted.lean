import Std.Data.ExtTreeSet

/-!
# Sorted names

Where an order of names is not given by how they came, they are listed in ascending order, each once.
-/

namespace CellLineage

variable {α : Type} [Ord α] [Std.TransOrd α]

/-- The names in ascending order, each once. -/
def sortedNames (names : List α) : List α :=
  (Std.ExtTreeSet.ofList names).toList

@[simp] theorem mem_sortedNames [DecidableEq α] [Std.LawfulEqOrd α] {names : List α} {a : α} :
    a ∈ sortedNames names ↔ a ∈ names := by
  simp [sortedNames, Std.ExtTreeSet.mem_toList, Std.ExtTreeSet.mem_ofList]

/-- Sorted names ascend strictly. -/
theorem pairwise_sortedNames (names : List α) :
    (sortedNames names).Pairwise fun a b => compare a b = .lt :=
  Std.ExtTreeSet.ordered_toList

end CellLineage
