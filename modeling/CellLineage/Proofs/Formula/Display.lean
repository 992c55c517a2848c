import CellLineage.Proofs.Formula.Grammar
import CellLineage.Proofs.Formula.Members

/-!
# Products that are shown and read again

A product is shown with its references in one spelling: a number with the digits that it is shown
with, and a subscript in braces exactly if it has more than one symbol. That spelling is again a
product of tokens, whose references are the same but for their places, unless a label of one symbol
is shown bare that may only stand in braces (`Reference.IsLegible`).

Where it is not, no other product of tokens has the same text and the same references: a token for
the label has braces around it, and so the label would have to be the brace that opens, twice.

## Main definitions

* `Reference.shown`: the lexeme with which a reference is shown.
* `Reference.IsLegible`: the reference can be shown.

## Main results

* `Reference.IsLegible.shown_spec`: a legible reference is shown as a token that stands for it.
* `readFactors_display`: which products are read again when they are shown.
-/

namespace CellLineage.Formula

open Lexeme

variable {r : Reference} {l : Lexeme} {ls : List Lexeme} {xs inner s : List Symbol}
  {rs : List Reference} {subscript : Subscript}

/-! ### Subscripts that are shown -/

/-- What is read from the digits of a number that was read is that number. -/
theorem ofInner_toDigits {n : Nat} {cs : List Char} (h : Text.readNat? cs = some n) :
    Subscript.ofInner ((Nat.toDigits 10 n).map .char) = .ok (.number n) := by
  have hdigits : ((Nat.toDigits 10 n).map Symbol.char).all (·.holds Text.isDigit) = true := by
    rw [List.all_map, List.all_eq_true]
    exact fun c hc => Text.isDigit_of_isDecimal (isDecimal_of_isDigit (isDigit_of_mem_toDigits hc))
  obtain ⟨m, hm⟩ := Option.isSome_iff_exists.1 (isSome_readNat?_toDigits h)
  obtain rfl := eq_of_readNat?_toDigits hm
  rw [Subscript.ofInner, if_pos hdigits, chars?_map_char, Option.bind_some, hm]

/-- The subscript is shown with a text from which it is read again. That text may stand in braces,
and it may stand bare unless the subscript is a label. -/
structure Subscript.IsShownAs (subscript : Subscript) (t : Text) : Prop where
  text? : subscript.text? = some t
  ne_nil : t.symbols ≠ []
  brace_notMem : .char '}' ∉ t.symbols
  isLabelChar : subscript = .label t ∨ ∀ x ∈ t.symbols, x.holds Lexeme.isLabelChar = true
  ofInner : Subscript.ofInner t.symbols = .ok subscript

/-- Every subscript that is read from a lexeme can be shown. -/
theorem exists_isShownAs (h : Encloses s inner) (hread : Subscript.read s = .ok subscript) :
    ∃ t, subscript.IsShownAs t := by
  rw [h.read_eq] at hread
  have hinner := hread
  rw [Subscript.ofInner] at hread
  split at hread
  · split at hread
    · next n hn =>
      cases hread
      obtain ⟨cs, -, hcs⟩ := Option.bind_eq_some_iff.1 hn
      have hdigit : ∀ x ∈ (toString (n : Int) : Text).symbols,
          x.holds Lexeme.isLabelChar = true :=
        forall_mem_symbols_toString (fun c hc => by
          simp [Symbol.holds, Lexeme.isLabelChar, Char.isAlphanum, hc]) n
      refine ⟨toString (n : Int), rfl, ?_, fun hmem => ?_, .inr hdigit, ?_⟩
      · rw [symbols_toString_natCast, ne_eq, List.map_eq_nil_iff]
        exact Nat.toDigits_ne_nil
      · exact absurd (hdigit _ hmem) (by decide)
      · rw [symbols_toString_natCast]
        exact ofInner_toDigits hcs
    · cases hread
  · split at hread
    · cases hread
      exact ⟨"n", rfl, by decide, by decide, .inr (by decide), rfl⟩
    · split at hread
      · cases hread
        exact ⟨"n+1", rfl, by decide, by decide, .inr (by decide), rfl⟩
      · cases hread
        exact ⟨⟨inner⟩, rfl, h.ne_nil, h.brace_notMem, .inl rfl, hinner⟩

/-- A label is what it was read from. -/
theorem symbols_of_ofInner_eq_label {t : Text} (h : Subscript.ofInner inner = .ok (.label t)) :
    inner = t.symbols := by
  rw [Subscript.ofInner] at h
  split at h
  · split at h <;> cases h
  · split at h
    · cases h
    · split at h <;> cases h
      rfl

/-- A label of one symbol, which is shown bare, may stand bare. -/
def Subscript.IsLegible (subscript : Subscript) : Prop :=
  ∀ x, subscript = .label ⟨[x]⟩ → x.holds Lexeme.isLabelChar = true

/-- A text as it is shown below a base: in braces if it has more than one symbol. -/
def shownBelow (t : Text) : List Symbol :=
  if 1 < t.symbols.length then .char '{' :: t.symbols ++ [.char '}'] else t.symbols

/-- A legible subscript is shown as the grammar wants it. -/
theorem Subscript.IsShownAs.encloses {t : Text} (h : subscript.IsShownAs t)
    (hlegible : subscript.IsLegible) : Encloses (shownBelow t) t.symbols := by
  rw [shownBelow]
  split
  · exact .braced h.ne_nil h.brace_notMem
  · next hlength =>
    refine .bare h.ne_nil ?_
    rcases h.isLabelChar with hlabel | hall
    · obtain ⟨x, hx⟩ : ∃ x, t.symbols = [x] := by
        refine List.length_eq_one_iff.1 ?_
        have := List.length_pos_iff.2 h.ne_nil
        omega
      rw [hx]
      rw [show t = ⟨[x]⟩ from congrArg Text.mk hx] at hlabel
      exact List.forall_mem_singleton.2 (hlegible x hlabel)
    · exact hall

/-! ### References that are shown -/

/-- A label of one symbol below the base is one that may stand bare. -/
def Reference.IsLegible (r : Reference) : Prop :=
  r.subscript.IsLegible

/-- The lexeme with which a reference is shown. -/
def Reference.shown (r : Reference) : Lexeme where
  base := r.base.symbols
  subscript := r.subscript.text?.map shownBelow
  transposed := r.transposed

theorem Reference.symbols_display (r : Reference) : r.display.symbols = r.shown.text := by
  rw [text_eq, Reference.display, Text.symbols_append, Text.symbols_append, List.append_assoc]
  congr 2
  · simp only [shown]
    cases r.subscript.text? with
    | none => rfl
    | some t =>
      simp only [Option.map_some, below, shownBelow]
      split
      · simp [Text.ofString]
      · simp [Text.ofString]
  · simp only [shown]
    cases r.transposed <;> rfl

theorem Product.symbols_display_ofFactors (first : Reference) (others : List Reference) :
    (ofFactors first others).display.symbols = joined ((first :: others).map Reference.shown) := by
  have hfold (p : Product) : (others.foldl (fun p r => .times p (.single r)) p).display.symbols =
      p.display.symbols ++ starred (others.map Reference.shown) := by
    induction others generalizing p with
    | nil => simp [starred]
    | cons r others ih =>
      rw [List.foldl_cons, ih, display, Text.symbols_append, Text.symbols_append, display,
        r.symbols_display, List.map_cons, starred, starred, List.flatMap_cons, List.append_assoc,
        List.append_assoc]
      rfl
  rw [ofFactors, hfold, display, first.symbols_display, List.map_cons, joined_cons]

/-- What holds of a reference that a lexeme stands for: its base is as the grammar wants it, and
its subscript, if there is one, can be shown. -/
structure Reference.IsSpelled (r : Reference) : Prop where
  base : IsBase r.base
  subscript : r.subscript = .absent ∨ ∃ t, r.subscript.IsShownAs t

theorem isSpelled_of_toReference {position : Nat} (hl : l.IsShaped)
    (h : l.toReference position = .ok r) : r.IsSpelled := by
  obtain ⟨subscript, hread, rfl⟩ := toReference_eq_ok_iff.1 h
  refine ⟨hl.base, ?_⟩
  cases hs : l.subscript with
  | none =>
    rw [hs] at hread
    exact .inl (Except.ok.inj hread).symm
  | some s =>
    obtain ⟨inner, hinner⟩ := hl.subscript s hs
    rw [hs] at hread
    exact .inr (exists_isShownAs hinner hread)

theorem isSpelled_of_readFrom {start : Nat} (hls : ∀ l ∈ ls, l.IsShaped)
    (h : ReadFrom start ls rs) : ∀ r ∈ rs, r.IsSpelled := by
  induction ls generalizing start rs with
  | nil =>
    obtain rfl := readFrom_nil_iff.1 h
    exact nofun
  | cons l ls ih =>
    obtain ⟨hl, hls⟩ := List.forall_mem_cons.1 hls
    obtain ⟨r, rs', rfl, hr, hrest⟩ := readFrom_cons_iff.1 h
    exact List.forall_mem_cons.2 ⟨isSpelled_of_toReference hl hr, ih hls hrest⟩

/-- **A legible reference** is shown as a token that stands for it, wherever it is. -/
theorem Reference.IsSpelled.shown_spec (h : r.IsSpelled) (hlegible : r.IsLegible) :
    r.shown.IsShaped ∧
      ∀ position : Nat, r.shown.toReference position = .ok { r with position := position } := by
  rcases h.subscript with habsent | ⟨t, ht⟩
  · have hshown : r.shown.subscript = none := by rw [shown, habsent]; rfl
    refine ⟨⟨h.base, fun s hs => by rw [hshown] at hs; cases hs⟩, fun position => ?_⟩
    rw [toReference_eq_ok_iff, hshown]
    exact ⟨.absent, rfl, by rw [← habsent]; rfl⟩
  · have hshown : r.shown.subscript = some (shownBelow t) := by rw [shown, ht.text?]; rfl
    have hencloses := ht.encloses hlegible
    refine ⟨⟨h.base, fun s hs => ?_⟩, fun position => ?_⟩
    · rw [hshown] at hs
      cases hs
      exact ⟨t.symbols, hencloses⟩
    · rw [toReference_eq_ok_iff, hshown, Option.getD_some, hencloses.read_eq]
      exact ⟨r.subscript, ht.ofInner, rfl⟩

/-! ### Blanks -/

/-- No letter, digit, sign or brace of a token is blank. -/
theorem isBlank_eq_false {c : Char} (h : 33 ≤ c.toNat ∧ c.toNat ≤ 126) :
    Text.isBlank c = false := by
  simp [Text.isBlank, Text.isSpace]
  omega

theorem holds_isBlank_of_isBase {base : Text} (h : IsBase base) :
    ∀ x ∈ base.symbols, x.holds Text.isBlank = false := by
  obtain ⟨c, cs, hbase, hupper, hlower⟩ := h
  rw [hbase]
  refine List.forall_mem_cons.2 ⟨isBlank_eq_false ?_, fun x hx => ?_⟩
  · have hrange : 'A'.val ≤ c.val ∧ c.val ≤ 'Z'.val := of_decide_eq_true hupper
    have hc : 65 ≤ c.toNat ∧ c.toNat ≤ 90 := hrange
    omega
  · cases x with
    | surrogate k => rfl
    | char d =>
      have hrange : (decide ('a'.val ≤ d.val) && decide (d.val ≤ 'z'.val)) = true := hlower _ hx
      rw [Bool.and_eq_true, decide_eq_true_eq, decide_eq_true_eq] at hrange
      have hd : 97 ≤ d.toNat ∧ d.toNat ≤ 122 := hrange
      exact isBlank_eq_false (by omega)

/-- A subscript that was read from a text without blanks is shown without blanks. -/
theorem Subscript.IsRead.holds_isBlank (h : subscript.IsRead) {t : Text}
    (ht : subscript.text? = some t) : ∀ x ∈ t.symbols, x.holds Text.isBlank = false := by
  cases subscript with
  | absent => cases ht
  | number k =>
    cases ht
    obtain ⟨n, rfl, -⟩ := h.of_number
    refine forall_mem_symbols_toString (fun c hdigit => ?_) n
    rw [Char.isDigit, Bool.and_eq_true, decide_eq_true_eq, decide_eq_true_eq] at hdigit
    have hc : 48 ≤ c.toNat ∧ c.toNat ≤ 57 := hdigit
    exact isBlank_eq_false (by omega)
  | current =>
    cases ht
    decide
  | next =>
    cases ht
    decide
  | label text =>
    cases ht
    exact h.of_label.2

/-- A reference that was read is shown without blanks. -/
theorem Reference.IsRead.holds_isBlank (h : r.IsRead) :
    ∀ x ∈ r.shown.text, x.holds Text.isBlank = false := by
  have hbelow : ∀ x ∈ below r.shown.subscript, x.holds Text.isBlank = false := by
    rw [shown]
    cases ht : r.subscript.text? with
    | none => exact nofun
    | some t =>
      have hblank := h.subscript.holds_isBlank ht
      rw [Option.map_some, below, shownBelow]
      refine List.forall_mem_cons.2 ⟨rfl, ?_⟩
      split
      · exact List.forall_mem_append.2
          ⟨List.forall_mem_cons.2 ⟨rfl, hblank⟩, List.forall_mem_singleton.2 rfl⟩
      · exact hblank
  rw [text_eq]
  refine List.forall_mem_append.2
    ⟨holds_isBlank_of_isBase h.isBase, List.forall_mem_append.2 ⟨hbelow, ?_⟩⟩
  change ∀ x ∈ mark r.transposed, x.holds Text.isBlank = false
  cases r.transposed <;> decide

theorem withoutBlanks_joined (h : ∀ r ∈ rs, r.IsRead) :
    Text.withoutBlanks (joined (rs.map Reference.shown)) = joined (rs.map Reference.shown) := by
  have hstarred : ∀ x ∈ starred (rs.map Reference.shown), x.holds Text.isBlank = false := by
    intro x hx
    obtain ⟨l, hl, hx⟩ := List.mem_flatMap.1 hx
    obtain ⟨r, hr, rfl⟩ := List.mem_map.1 hl
    rcases List.mem_cons.1 hx with rfl | hx
    · rfl
    · exact (h r hr).holds_isBlank x hx
  have hjoined : ∀ x ∈ joined (rs.map Reference.shown), x.holds Text.isBlank = false := by
    cases rs with
    | nil => exact nofun
    | cons r rs =>
      intro x hx
      refine hstarred x (List.mem_cons_of_mem (Symbol.char '*') ?_)
      rwa [List.map_cons, joined_cons] at hx
  exact List.filter_eq_self.2 fun x hx => by rw [hjoined x hx]; rfl

/-! ### Products that are shown -/

/-- Legible references are shown as a product of tokens that stand for them. -/
theorem exists_readFrom_shown (hrs : ∀ r ∈ rs, r.IsSpelled) (hlegible : ∀ r ∈ rs, r.IsLegible)
    (start : Nat) : (∀ l ∈ rs.map Reference.shown, l.IsShaped) ∧
      ∃ rs', ReadFrom start (rs.map Reference.shown) rs' ∧
        rs'.map Reference.unplaced = rs.map Reference.unplaced := by
  induction rs generalizing start with
  | nil => exact ⟨nofun, [], readFrom_nil_iff.2 rfl, rfl⟩
  | cons r rs ih =>
    obtain ⟨hr, hrs⟩ := List.forall_mem_cons.1 hrs
    obtain ⟨hrlegible, hlegible⟩ := List.forall_mem_cons.1 hlegible
    obtain ⟨hshaped, hread⟩ := hr.shown_spec hrlegible
    obtain ⟨hall, rs', hrs', heq⟩ := ih hrs hlegible (start + r.shown.text.length + 1)
    refine ⟨List.forall_mem_cons.2 ⟨hshaped, hall⟩, { r with position := start } :: rs',
      readFrom_cons_iff.2 ⟨_, rs', rfl, hread start, hrs'⟩, ?_⟩
    rw [List.map_cons, heq]
    rfl

/-- A token for the same reference, in a text that begins as the reference is shown, shows that it
is legible: a label that may not stand bare has braces around it in the token, and in the text it
has none. -/
theorem isLegible_of_text_append {position : Nat} {r' : Reference} {rest rest' : List Symbol}
    (hl : l.IsShaped) (hr' : l.toReference position = .ok r') (hsame : r'.unplaced = r.unplaced)
    (hrest : CanFollow rest) (htext : r.shown.text ++ rest = l.text ++ rest') : r.IsLegible := by
  intro x hx
  obtain ⟨subscript, hread, rfl⟩ := toReference_eq_ok_iff.1 hr'
  obtain ⟨hbase, hsubscript⟩ : l.base = r.base.symbols ∧ subscript = r.subscript :=
    ⟨congrArg (·.base.symbols) hsame, congrArg (·.subscript) hsame⟩
  rw [hsubscript, hx] at hread
  cases hs : l.subscript with
  | none =>
    rw [hs] at hread
    cases hread
  | some s =>
    obtain ⟨inner, hinner⟩ := hl.subscript s hs
    rw [hs, Option.getD_some, hinner.read_eq] at hread
    obtain rfl : inner = [x] := symbols_of_ofInner_eq_label hread
    cases hinner with
    | bare hne hlabel => exact hlabel x List.mem_cons_self
    | braced hne hbrace =>
      have hshown : r.shown.subscript = some [x] := by rw [Reference.shown, hx]; rfl
      rw [text_eq, text_eq, hs, hshown, hbase] at htext
      simp only [Reference.shown, below, List.append_assoc, List.cons_append,
        List.append_cancel_left_eq, List.cons.injEq, true_and, List.nil_append] at htext
      obtain ⟨rfl, htail⟩ := htext
      have hhead : Symbol.char '{' ∈ (mark r.transposed ++ rest).head? := by
        rw [htail]
        rfl
      rcases head?_mark_append hrest r.transposed hhead with h | h <;> cases h

/-- **Where the references are read again**, whatever product of tokens the shown text is, they are
legible. -/
theorem isLegible_of_starred_shown (hrs : ∀ r ∈ rs, r.IsSpelled) {start : Nat}
    {rs' : List Reference} (hls : ∀ l ∈ ls, l.IsShaped) (hread : ReadFrom start ls rs')
    (hsame : rs'.map Reference.unplaced = rs.map Reference.unplaced)
    (htext : starred (rs.map Reference.shown) = starred ls) : ∀ r ∈ rs, r.IsLegible := by
  induction rs generalizing start ls rs' with
  | nil => exact nofun
  | cons r rs ih =>
    cases ls with
    | nil => cases htext
    | cons l ls =>
      obtain ⟨hr, hrs⟩ := List.forall_mem_cons.1 hrs
      obtain ⟨hl, hls⟩ := List.forall_mem_cons.1 hls
      obtain ⟨r', rs', rfl, hr', hread⟩ := readFrom_cons_iff.1 hread
      obtain ⟨hhead, hsame⟩ := List.cons.inj hsame
      have hrest := canFollow_starred (rs.map Reference.shown)
      have htail : r.shown.text ++ starred (rs.map Reference.shown) = l.text ++ starred ls :=
        (List.cons.inj htext).2
      have hlegible := isLegible_of_text_append hl hr' hhead hrest htail
      have hscan := scan_text_append (hr.shown_spec hlegible).1 hrest
      rw [htail, scan_text_append hl (canFollow_starred ls), Option.some.injEq,
        Prod.mk.injEq] at hscan
      exact List.forall_mem_cons.2 ⟨hlegible, ih hrs hls hread hsame hscan.2.symm⟩

/-- **Products that are shown.** The references of a text, made into a product and shown, are read
again, each of them as it was but for its place, exactly if no label of one symbol is other than
the labels that may stand bare. -/
theorem readFactors_display {p : Product} (h : readFactors xs = .ok rs)
    (hp : Product.ofFactors? rs = some p) :
    (∃ rs', readFactors p.display.symbols = .ok rs' ∧
      rs'.map Reference.unplaced = rs.map Reference.unplaced) ↔ ∀ r ∈ rs, r.IsLegible := by
  have hisRead := isRead_of_readFactors h
  obtain ⟨ls, hls, -, hread⟩ := readFactors_eq_ok_iff.1 h
  have hspelled := isSpelled_of_readFrom (fun l hl => (hls l hl).isShaped) hread
  cases rs with
  | nil => cases hp
  | cons first others =>
    cases hp
    simp only [Product.symbols_display_ofFactors, readFactors_eq_ok_iff,
      withoutBlanks_joined hisRead]
    constructor
    · rintro ⟨rs', ⟨ls', hls', htext, hread'⟩, hsame⟩
      cases ls' with
      | nil =>
        obtain rfl := readFrom_nil_iff.1 hread'
        cases hsame
      | cons l' ls' =>
        refine isLegible_of_starred_shown hspelled (fun l hl => (hls' l hl).isShaped) hread'
          hsame ?_
        rw [List.map_cons, joined_cons, joined_cons] at htext
        exact congrArg (Symbol.char '*' :: ·) htext
    · intro hlegible
      obtain ⟨hshaped, rs', hread', hsame⟩ := exists_readFrom_shown hspelled hlegible 0
      exact ⟨rs', ⟨_, hread'.isToken hshaped, rfl, hread'⟩, hsame⟩

/-- Numbers and labels with braces around them are shown with as few braces as can be, and are read
again. -/
theorem readFactors_display_braced :
    ∃ rs, readFactors (Text.symbols "A_\x7b12\x7d * K_n+1^T*Bc_\x7b7\x7d") = .ok rs ∧
      (∀ r ∈ rs, r.IsLegible) ∧ ∃ p, Product.ofFactors? rs = some p ∧
        p.display = "A_\x7b12\x7d*K_\x7bn+1\x7d^T*Bc_7" ∧
        ∃ rs', readFactors p.display.symbols = .ok rs' ∧
          rs'.map Reference.unplaced = rs.map Reference.unplaced := by
  have hread : readFactors (Text.symbols "A_\x7b12\x7d * K_n+1^T*Bc_\x7b7\x7d") =
      .ok [⟨"A", .number 12, false, 0⟩, ⟨"K", .next, true, 7⟩, ⟨"Bc", .number 7, false, 15⟩] := by
    decide +kernel
  have hlegible : ∀ r ∈ ([⟨"A", .number 12, false, 0⟩, ⟨"K", .next, true, 7⟩,
      ⟨"Bc", .number 7, false, 15⟩] : List Reference), r.IsLegible := by
    simp [Reference.IsLegible, Subscript.IsLegible]
  exact ⟨_, hread, hlegible, _, rfl, by decide +kernel,
    (readFactors_display hread rfl).2 hlegible⟩

/-- A label that is one star is shown bare, and what is shown is no product. -/
example : (readFactors (Text.symbols "A_\x7b*\x7d")).toOption.map (·.map Reference.display) =
    some [("A_*" : Text)] ∧ (readFactors (Text.symbols "A_*")).toOption = none := by
  decide +kernel

end CellLineage.Formula
