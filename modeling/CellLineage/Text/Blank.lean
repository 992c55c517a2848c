import CellLineage.Text.Basic

/-!
# Blank characters

A formula may be spread out freely: blanks between and inside its matrix names carry no meaning.
The blanks are the white space of Unicode and the four control characters that separate files,
groups, records and units. A text can lose its blanks at both ends (`trim`) or everywhere
(`withoutBlanks`); both leave a text without outer blanks respectively without any blank. A number
or a word in a document may stand between white space only (`trimSpace`).
-/

namespace CellLineage.Text

/-- The white space of Unicode: tab to carriage return, the next-line control and the spaces. -/
def isSpace (c : Char) : Bool :=
  let n := c.toNat
  (9 ≤ n && n ≤ 13) || n == 0x20 || n == 0x85 || n == 0xA0 || n == 0x1680 ||
    (0x2000 ≤ n && n ≤ 0x200A) || n == 0x2028 || n == 0x2029 || n == 0x202F || n == 0x205F ||
    n == 0x3000

/-- The blanks: white space and the four separators. -/
def isBlank (c : Char) : Bool :=
  isSpace c || (28 ≤ c.toNat && c.toNat ≤ 31)

/-- The symbols without the blanks. -/
def withoutBlanks (xs : List Symbol) : List Symbol :=
  xs.filter fun x => !x.holds isBlank

/-- A list without the members at its end that pass a test. -/
def dropEnd {α : Type} (test : α → Bool) (xs : List α) : List α :=
  (xs.reverse.dropWhile test).reverse

/-- The symbols without the blanks at the two ends. -/
def trim (xs : List Symbol) : List Symbol :=
  dropEnd (·.holds isBlank) (xs.dropWhile (·.holds isBlank))

/-- The characters without the white space at the two ends. -/
def trimSpace (cs : List Char) : List Char :=
  dropEnd isSpace (cs.dropWhile isSpace)

/-- White space is blank. -/
theorem isBlank_of_isSpace {c : Char} (h : isSpace c = true) : isBlank c = true := by
  simp [isBlank, h]

@[simp] theorem withoutBlanks_nil : withoutBlanks [] = [] := rfl

@[simp] theorem withoutBlanks_append (xs ys : List Symbol) :
    withoutBlanks (xs ++ ys) = withoutBlanks xs ++ withoutBlanks ys :=
  List.filter_append ..

theorem holds_isBlank_of_mem {x : Symbol} {xs : List Symbol} (h : x ∈ withoutBlanks xs) :
    x.holds isBlank = false := by
  simpa using (List.mem_filter.1 h).2

/-- Leaving out the blanks once is enough. -/
@[simp] theorem withoutBlanks_withoutBlanks (xs : List Symbol) :
    withoutBlanks (withoutBlanks xs) = withoutBlanks xs := by
  simp [withoutBlanks, List.filter_filter]

end CellLineage.Text
