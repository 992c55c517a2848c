/-!
# Line ends

A line of a file ends with a line feed, a carriage return or both in a row. All of them are read as
line feeds.
-/

namespace CellLineage.Text

/-- The text in which each line end is a line feed. -/
def lineFeeds : List Char → List Char
  | [] => []
  | '\r' :: '\n' :: cs => '\n' :: lineFeeds cs
  | c :: cs => (if c = '\r' then '\n' else c) :: lineFeeds cs

/-- The string in which each line end is a line feed. -/
def withLineFeeds (s : String) : String :=
  String.ofList (lineFeeds s.toList)

/-- A text without carriage returns stays as it is. -/
theorem lineFeeds_eq_self {cs : List Char} (h : '\r' ∉ cs) : lineFeeds cs = cs := by
  fun_induction lineFeeds cs <;> grind

end CellLineage.Text
