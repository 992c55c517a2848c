import CellLineage.Formula.Reference

/-!
# Lexemes of a product

The text of a reference is a *lexeme*: an upper-case letter, lower-case letters, then an optional
underscore with either a braced text or letters, digits and plus signs, then an optional transpose
mark. Every upper-case letter begins a lexeme, and a lexeme extends as far as it can. A product is
a sequence of lexemes with one star between any two; blanks do not count.

## Main definitions

* `Lexeme.scan`: the lexeme at the front of a text.
* `readFactors`: the references of a product, or what is wrong with it.
* `readReference`: a text that is one lexeme.
-/

namespace CellLineage.Formula

/-- What is wrong with a formula. -/
inductive Malformed where
  /-- Something else than one star stands where a star is expected. -/
  | operator (text : Text)
  /-- A product begins with a star. -/
  | leadingStar
  /-- A product ends with a star. -/
  | trailingStar
  /-- Two references follow each other without a star; the text of the second one. -/
  | missingStar (text : Text)
  /-- A part with an equals sign has more than one, or nothing on one side. -/
  | assignment (text : Text)
  /-- The left side of an assignment is no reference or is transposed. -/
  | target (text : Text)
  /-- The left side of an assignment has no index. -/
  | unindexedTarget (text : Text)
  /-- A part without an equals sign is no reference. -/
  | constant (text : Text)
  /-- A part without an equals sign is a reference without a number. -/
  | unindexedConstant
  /-- There is nothing between the commas. -/
  | noParts
  deriving DecidableEq, Repr

/-- What is wrong, in words. -/
def Malformed.message : Malformed → Text
  | .operator s => "Unsupported operator: " ++ s
  | .leadingStar => "Expression cannot start with '*'"
  | .trailingStar => "Expression cannot end with '*'"
  | .missingStar s => "Missing '*' before " ++ s
  | .assignment s => "Invalid assignment: " ++ s
  | .target s => "Invalid left-hand side: " ++ s
  | .unindexedTarget s => "Assignment target needs a numeric or n/n+1 subscript: " ++ s
  | .constant s => "Invalid matrix token: " ++ s
  | .unindexedConstant => "Standalone matrices must have numeric subscripts"
  | .noParts => "No formulas provided"

/-- Why a text cannot be read as a formula. -/
inductive Fault where
  | malformed (what : Malformed)
  | index (what : IndexFault)
  deriving DecidableEq, Repr

/-- The parts of a lexeme as they are written; the subscript with its braces. -/
structure Lexeme where
  base : List Symbol
  subscript : Option (List Symbol)
  transposed : Bool
  deriving DecidableEq, Repr

namespace Lexeme

/-- The characters of a subscript without braces. -/
def isLabelChar (c : Char) : Bool :=
  c.isAlphanum || c == '+'

/-- The text of a lexeme. -/
def text (l : Lexeme) : List Symbol :=
  let below := match l.subscript with
    | some s => .char '_' :: s
    | none => []
  l.base ++ below ++ if l.transposed then [.char '^', .char 'T'] else []

/-- The subscript at the front of a text, and what follows it. -/
def scanSubscript (xs : List Symbol) : Option (List Symbol) × List Symbol :=
  match xs with
  | .char '_' :: .char '{' :: inner =>
    match inner.takeWhile (· != .char '}'), inner.dropWhile (· != .char '}') with
    | [], _ => (none, xs)
    | _, [] => (none, xs)
    | body, brace :: rest => (some (.char '{' :: body ++ [brace]), rest)
  | .char '_' :: inner =>
    match inner.takeWhile (·.holds isLabelChar) with
    | [] => (none, xs)
    | body => (some body, inner.dropWhile (·.holds isLabelChar))
  | xs => (none, xs)

/-- The transpose mark at the front of a text, and what follows it. -/
def scanTranspose : List Symbol → Bool × List Symbol
  | .char '^' :: .char 'T' :: rest => (true, rest)
  | xs => (false, xs)

/-- The lexeme at the front of a text, as long as it can be, and what follows it. -/
def scan : List Symbol → Option (Lexeme × List Symbol)
  | [] => none
  | x :: xs =>
    if x.holds Char.isUpper then
      let (subscript, rest) := scanSubscript (xs.dropWhile (·.holds Char.isLower))
      let (transposed, rest) := scanTranspose rest
      some (⟨x :: xs.takeWhile (·.holds Char.isLower), subscript, transposed⟩, rest)
    else none

/-- The reference that a lexeme stands for. -/
def toReference (l : Lexeme) (position : Nat) : Except IndexFault Reference := do
  let subscript ← Subscript.read (l.subscript.getD [])
  return ⟨⟨l.base⟩, subscript, l.transposed, position⟩

theorem scanSubscript_length_le (xs : List Symbol) :
    (scanSubscript xs).2.length ≤ xs.length := by
  have hd (p : Symbol → Bool) (l : List Symbol) : (l.dropWhile p).length ≤ l.length :=
    (List.dropWhile_sublist _).length_le
  unfold scanSubscript
  split
  · next inner =>
    split <;> simp only [Nat.le_refl]
    next h =>
      have := hd (· != .char '}') inner
      simp_all
      omega
  · next inner _ =>
    split <;> simp only [Nat.le_refl]
    have := hd (·.holds isLabelChar) inner
    simp
    omega
  · exact Nat.le_refl _

theorem scanTranspose_length_le (xs : List Symbol) :
    (scanTranspose xs).2.length ≤ xs.length := by
  unfold scanTranspose
  split
  · simp
    omega
  · exact Nat.le_refl _

/-- A lexeme has at least one symbol. -/
theorem length_lt_of_scan {xs rest : List Symbol} {l : Lexeme} (h : scan xs = some (l, rest)) :
    rest.length < xs.length := by
  cases xs with
  | nil => cases h
  | cons x xs =>
    simp only [scan] at h
    split at h
    · cases h
      have h₁ : (xs.dropWhile (·.holds Char.isLower)).length ≤ xs.length :=
        (List.dropWhile_sublist _).length_le
      have h₂ := scanSubscript_length_le (xs.dropWhile (·.holds Char.isLower))
      have h₃ := scanTranspose_length_le (scanSubscript (xs.dropWhile (·.holds Char.isLower))).2
      simp
      omega
    · cases h

end Lexeme

/-- The text before the first upper-case letter. -/
def gap (xs : List Symbol) : List Symbol :=
  xs.takeWhile fun x => !x.holds Char.isUpper

/-- The text from the first upper-case letter on. -/
def afterGap (xs : List Symbol) : List Symbol :=
  xs.dropWhile fun x => !x.holds Char.isUpper

/-- Whether the text between two lexemes, or before the first one, is as it should be. -/
def checkGap (first : Bool) (between : List Symbol) (next : Lexeme) : Except Malformed Unit :=
  if between ≠ [] ∧ between ≠ [.char '*'] then .error (.operator ⟨between⟩)
  else if between = [.char '*'] ∧ first then .error .leadingStar
  else if between = [] ∧ !first then .error (.missingStar ⟨next.text⟩)
  else .ok ()

/-- Whether the text after the last lexeme is as it should be. -/
def checkEnd (first : Bool) (after : List Symbol) : Except Malformed Unit :=
  if after = [] then .ok ()
  else if after = [.char '*'] ∧ !first then .error .trailingStar
  else .error (.operator ⟨after⟩)

/-- The references of a text without blanks, of which `position` symbols came before. -/
def readFactorsFrom (first : Bool) (position : Nat) (xs : List Symbol) :
    Except Fault (List Reference) :=
  match _scanned : Lexeme.scan (afterGap xs) with
  | none => do
    (checkEnd first (gap xs)).mapError .malformed
    return []
  | some (l, rest) => do
    (checkGap first (gap xs) l).mapError .malformed
    let start := position + (gap xs).length
    let r ← (l.toReference start).mapError .index
    let rs ← readFactorsFrom false (start + l.text.length) rest
    return r :: rs
termination_by xs.length
decreasing_by
  have h₁ := Lexeme.length_lt_of_scan _scanned
  have h₂ : (afterGap xs).length ≤ xs.length := (List.dropWhile_sublist _).length_le
  omega

/-- The references of a product, in order. -/
def readFactors (xs : List Symbol) : Except Fault (List Reference) :=
  readFactorsFrom true 0 (Text.withoutBlanks xs)

/-- The reference that a text is, if it is one lexeme apart from blanks. -/
def readReference (xs : List Symbol) : Except IndexFault (Option Reference) :=
  match Lexeme.scan (Text.withoutBlanks xs) with
  | some (l, []) => do return some (← l.toReference 0)
  | _ => .ok none

end CellLineage.Formula
