/-!
# Texts

The names of matrices, formulas, colours and messages are texts. A text is a list of symbols, and a
symbol is a character or a surrogate that stands alone: a document may write a symbol by its code
number, and the numbers of surrogates stand for characters only in pairs. So a text is a string
unless it holds such a surrogate.

Texts are ordered symbol by symbol by code numbers. What code numbers say is read by `Text.ofCodes`,
which gives the text back that has them (`Text.ofCodes_codes`).
-/

namespace CellLineage

/-- What a text is made of. -/
inductive Symbol where
  | char (c : Char)
  /-- The surrogate with the code number `0xD800 + k`, which is not one of a pair. -/
  | surrogate (k : Fin 0x800)
  deriving DecidableEq, Repr

namespace Symbol

instance : Coe Char Symbol := ⟨char⟩

/-- The code number. -/
def code : Symbol → Nat
  | char c => c.toNat
  | surrogate k => 0xD800 + k

/-- The symbol is a character that passes a test. -/
def holds (test : Char → Bool) : Symbol → Bool
  | char c => test c
  | surrogate _ => false

/-- The character, if the symbol is one. -/
def char? : Symbol → Option Char
  | char c => some c
  | surrogate _ => none

/-- The symbol with a code number. -/
def ofCode (n : Nat) : Symbol :=
  if h : 0xD800 ≤ n ∧ n < 0xE000 then surrogate ⟨n - 0xD800, by omega⟩ else char (Char.ofNat n)

/-- The code number of a character is none of a surrogate. -/
theorem toNat_lt_or_le (c : Char) : c.toNat < 0xD800 ∨ 0xE000 ≤ c.toNat := by
  have h : c.toNat < 0xD800 ∨ 0xDFFF < c.toNat ∧ c.toNat < 0x110000 := c.valid
  omega

@[simp] theorem ofCode_code (x : Symbol) : ofCode x.code = x := by
  cases x with
  | char c =>
    have := toNat_lt_or_le c
    have h : ¬(0xD800 ≤ c.toNat ∧ c.toNat < 0xE000) := by omega
    simp [ofCode, code, h]
  | surrogate k =>
    have h : 0xD800 ≤ 0xD800 + k.val ∧ 0xD800 + k.val < 0xE000 := by omega
    simp [ofCode, code, h]

/-- Symbols with the same code number are the same. -/
theorem code_inj {a b : Symbol} (h : a.code = b.code) : a = b := by
  rw [← ofCode_code a, h, ofCode_code]

/-- Symbols are ordered by code numbers. -/
instance : Ord Symbol := ⟨compareOn code⟩

instance : Std.TransOrd Symbol :=
  inferInstanceAs (Std.TransCmp (compareOn code))

instance : Std.LawfulEqOrd Symbol where
  eq_of_compare h := code_inj (Std.LawfulEqOrd.eq_of_compare h)

end Symbol

/-- A sequence of symbols. -/
structure Text where
  symbols : List Symbol
  deriving DecidableEq, Repr

namespace Text

/-- A list of characters as a text. -/
def ofChars (cs : List Char) : Text :=
  ⟨cs.map .char⟩

/-- A string as a text. -/
def ofString (s : String) : Text :=
  ofChars s.toList

instance : Coe String Text := ⟨ofString⟩

instance : Inhabited Text := ⟨""⟩

instance : Append Text := ⟨fun s t => ⟨s.symbols ++ t.symbols⟩⟩

/-- Texts are ordered symbol by symbol. -/
instance : Ord Text := ⟨compareOn symbols⟩

instance : Std.TransOrd Text :=
  inferInstanceAs (Std.TransCmp (compareOn symbols))

instance : Std.LawfulEqOrd Text where
  eq_of_compare {s t} h := by
    cases s
    cases t
    exact congrArg Text.mk (Std.LawfulEqOrd.eq_of_compare h)

/-- The characters of symbols, if all of them are characters. -/
def chars? (xs : List Symbol) : Option (List Char) :=
  xs.mapM Symbol.char?

/-- The string that the text is, if all its symbols are characters. -/
def toString? (t : Text) : Option String :=
  (chars? t.symbols).map String.ofList

/-- The text as a string, where three replacement characters, one for each byte that a surrogate
would take, stand for a surrogate. -/
def lossy (t : Text) : String :=
  String.ofList (t.symbols.flatMap fun
    | .char c => [c]
    | .surrogate _ => List.replicate 3 '\uFFFD')

/-! ## Code numbers -/

/-- The code numbers of the symbols. -/
def codes (t : Text) : List Nat :=
  t.symbols.map Symbol.code

/-- The code numbers with each pair of surrogates as the number of their character. -/
def joinPairs : List Nat → List Nat
  | m :: n :: ns =>
    if 0xD800 ≤ m ∧ m < 0xDC00 ∧ 0xDC00 ≤ n ∧ n < 0xE000 then
      (0x10000 + (m - 0xD800) * 0x400 + (n - 0xDC00)) :: joinPairs ns
    else m :: joinPairs (n :: ns)
  | ns => ns

/-- The text that code numbers stand for. -/
def ofCodes (ns : List Nat) : Text :=
  ⟨(joinPairs ns).map Symbol.ofCode⟩

/-- Code numbers without surrogates stay as they are. -/
theorem joinPairs_eq_self {ns : List Nat} (h : ∀ n ∈ ns, n < 0xD800 ∨ 0xE000 ≤ n) :
    joinPairs ns = ns := by
  fun_induction joinPairs ns with
  | case1 m n ns hmn ih =>
    have := h n (by simp)
    omega
  | case2 m n ns hmn ih => rw [ih fun k hk => h k (List.mem_cons_of_mem m hk)]
  | case3 ns => rfl

/-- The code numbers of a string stand for that string. -/
theorem ofCodes_codes (s : String) : ofCodes (codes s) = s := by
  have h : ∀ n ∈ codes (s : Text), n < 0xD800 ∨ 0xE000 ≤ n := by
    simp [codes, ofString, ofChars, Symbol.code, Symbol.toNat_lt_or_le]
  simp [ofCodes, joinPairs_eq_self h]
  simp [codes, Function.comp_def]

/-! ## Symbols of texts put together -/

@[simp] theorem symbols_append (s t : Text) : (s ++ t).symbols = s.symbols ++ t.symbols := rfl

@[simp] theorem symbols_ofChars (cs : List Char) : (ofChars cs).symbols = cs.map .char := rfl

@[simp] theorem toString?_ofString (s : String) : toString? s = some s := by
  have h (cs : List Char) : chars? (cs.map .char) = some cs := by
    induction cs with
    | nil => rfl
    | cons c cs ih => simp_all [chars?, Symbol.char?]
  simp [toString?, ofString, h]

@[simp] theorem lossy_ofString (s : String) : lossy s = s := by
  simp [lossy, ofString, List.flatMap_map]

end Text

end CellLineage
