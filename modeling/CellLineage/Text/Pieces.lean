/-!
# Splitting a text

A text, as a list of its symbols or characters, is split at every occurrence of a separator. The
pieces hold no separator (`separator_notMem`), and with one separator between every two they are the
text again (`intercalate_pieces`).
-/

namespace CellLineage.Text

variable {α : Type} [DecidableEq α] {separator : α}

/-- The pieces of a list between the occurrences of a separator. -/
def pieces (separator : α) : List α → List (List α)
  | [] => [[]]
  | c :: cs =>
    if c = separator then [] :: pieces separator cs
    else match pieces separator cs with
      | p :: ps => (c :: p) :: ps
      | [] => [[c]]

theorem pieces_ne_nil (separator : α) (cs : List α) : pieces separator cs ≠ [] := by
  cases cs <;> grind [pieces]

theorem separator_notMem {cs p : List α} (h : p ∈ pieces separator cs) :
    separator ∉ p := by
  induction cs generalizing p with
  | nil => simp_all [pieces]
  | cons c cs ih =>
    have := pieces_ne_nil separator cs
    grind [pieces]

theorem intercalate_pieces (separator : α) (cs : List α) :
    [separator].intercalate (pieces separator cs) = cs := by
  induction cs with
  | nil => rfl
  | cons c cs ih =>
    have := pieces_ne_nil separator cs
    unfold pieces
    split
    · cases h : pieces separator cs <;> simp_all [List.intercalate, List.intersperse]
    · cases h : pieces separator cs with
      | nil => contradiction
      | cons p ps => cases ps <;> simp_all [List.intercalate, List.intersperse]

end CellLineage.Text
