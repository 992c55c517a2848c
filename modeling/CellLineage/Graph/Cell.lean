import CellLineage.Number.Basic
import CellLineage.Text.Digit
import CellLineage.Text.Quoted

/-!
# Cells

A cell is one entry of a matrix. Beside its value and its paint it knows its lineage in both
directions: the cells it was derived from and the cells derived from it, each as a list of ids in
the order in which they were recorded, without repetition.

Recording an id (`appendNew`) keeps the place of one that is there already, so a list without
repetition stays one (`nodup_appendNew`).
-/

namespace CellLineage

/-- The name of a cell in its graph. -/
abbrev CellId := String

/-- The list with `x` as last member, unless it is a member already. -/
def appendNew {α : Type} [DecidableEq α] (xs : List α) (x : α) : List α :=
  if x ∈ xs then xs else xs ++ [x]

/-- The list with the members of another one recorded after its own. -/
def appendAllNew {α : Type} [DecidableEq α] (xs ys : List α) : List α :=
  ys.foldl appendNew xs

section

variable {α : Type} [DecidableEq α] {xs ys : List α} {x y : α}

@[simp] theorem mem_appendNew : y ∈ appendNew xs x ↔ y ∈ xs ∨ y = x := by
  unfold appendNew
  split <;> simp_all

theorem nodup_appendNew (h : xs.Nodup) : (appendNew xs x).Nodup := by
  unfold appendNew
  split
  · exact h
  · next hx =>
    refine List.nodup_append.2 ⟨h, by simp, ?_⟩
    rintro a ha b hb rfl
    simp_all

@[simp] theorem mem_appendAllNew : y ∈ appendAllNew xs ys ↔ y ∈ xs ∨ y ∈ ys := by
  induction ys generalizing xs with
  | nil => simp [appendAllNew]
  | cons a ys ih =>
    have := @ih (appendNew xs a)
    simp_all [appendAllNew, or_assoc]

theorem nodup_appendAllNew (h : xs.Nodup) : (appendAllNew xs ys).Nodup := by
  induction ys generalizing xs with
  | nil => exact h
  | cons a ys ih => exact ih (nodup_appendNew h)

end

/-- One entry of a matrix. The place is what the cell was made for; a cell that is not part of a
matrix may have any. -/
structure Cell where
  id : CellId
  matrix : Text
  row : Int
  col : Int
  value : Number
  color : Option Text
  colorIndex : Option Int
  isIdentity : Bool
  /-- The cells that this one was derived from. -/
  dependencies : List CellId
  /-- The cells that were derived from this one. -/
  dependents : List CellId

namespace Cell

/-- A cell with nothing painted on it and no lineage. -/
def blank (id : CellId) (matrix : Text) (row col : Int) : Cell :=
  ⟨id, matrix, row, col, .int 0, none, none, false, [], []⟩

/-- The cell in one line, if its value may be shown. -/
def describe? (c : Cell) : Option Text :=
  match c.value with
  | .int n => if Text.isShowable n then some (line c) else none
  | .float _ => some (line c)
where
  /-- The parts of a cell in one line. -/
  line (c : Cell) : Text :=
    "Node(" ++ Text.quoted c.id ++ ", " ++ c.matrix ++ "[" ++ toString c.row ++ "][" ++
      toString c.col ++ "], value=" ++ c.value.render ++ ", deps=" ++
      toString c.dependencies.length ++ ")"

end Cell

end CellLineage
