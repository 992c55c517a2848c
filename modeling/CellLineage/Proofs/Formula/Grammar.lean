import CellLineage.Proofs.Formula.Written
import Mathlib.Logic.ExistsUnique

/-!
# The grammar of products

A *token* is the text of a reference: a base, then perhaps an underscore with a subscript, which
stands in braces or is bare, then perhaps a transpose mark. A product is one token, or several with
one star between any two.

Reading a product goes from one upper-case letter to the next, takes as long a lexeme as there is
and looks at what it skipped. It accepts the same texts. What follows a token in a product is a star
or nothing, and neither can be part of the token unless braces are open; so the longest lexeme is
the token (`Lexeme.scan_text_append`). This also shows that a text is a product of tokens in one way
only (`Lexeme.starred_inj`).

## Main definitions

* `Lexeme.Encloses`: how a subscript is written.
* `Lexeme.IsToken`: the tokens.
* `Lexeme.joined`: the text of a product of tokens.
* `Lexeme.Spells`, `Lexeme.ReadFrom`: a text as a product of tokens, and tokens as references.

## Main results

* `Lexeme.scan_text_append`, `Lexeme.of_scan`: the longest lexemes are the tokens.
* `readFactors_eq_ok_iff`: what reading a product accepts, and what it makes of that.
* `readFactors_grammar`: the reader accepts just the products of tokens.
-/

namespace CellLineage.Formula

/-- The longest beginning that passes a test ends where a symbol fails it. -/
theorem takeWhile_append_of_head? {α : Type} {test : α → Bool} {xs rest : List α}
    (h : ∀ x ∈ xs, test x = true) (hrest : ∀ x ∈ rest.head?, test x = false) :
    (xs ++ rest).takeWhile test = xs ∧ (xs ++ rest).dropWhile test = rest := by
  rw [List.takeWhile_append_of_pos h, List.dropWhile_append_of_pos h]
  cases rest with
  | nil => simp
  | cons x rest => simp [hrest x rfl]

/-- The subscript that a text stands for which is not empty and has no braces around it. -/
def Subscript.ofInner (inner : List Symbol) : Except IndexFault Subscript :=
  if inner.all (·.holds Text.isDigit) then
    match (Text.chars? inner).bind Text.readNat? with
    | some n => .ok (.number n)
    | none => .error .unreadable
  else if inner = [.char 'n'] then .ok .current
  else if inner = [.char 'n', .char '+', .char '1'] then .ok .next
  else .ok (.label ⟨inner⟩)

namespace Lexeme

variable {l : Lexeme} {ls : List Lexeme} {xs rest inner s : List Symbol}

/-! ### Tokens -/

/-- A subscript is written in braces, where it holds no closing brace, or bare, where it is made of
the characters of labels. -/
inductive Encloses : List Symbol → List Symbol → Prop where
  | braced {inner : List Symbol} (hne : inner ≠ []) (hbrace : .char '}' ∉ inner) :
      Encloses (.char '{' :: inner ++ [.char '}']) inner
  | bare {inner : List Symbol} (hne : inner ≠ [])
      (hlabel : ∀ x ∈ inner, x.holds isLabelChar = true) : Encloses inner inner

/-- A text of digit characters only is a number. -/
def IsReadable (inner : List Symbol) : Prop :=
  (∀ x ∈ inner, x.holds Text.isDigit = true) →
    ∃ n, (Text.chars? inner).bind Text.readNat? = some n

/-- The parts of the lexeme are written as the grammar wants them. -/
structure IsShaped (l : Lexeme) : Prop where
  base : IsBase ⟨l.base⟩
  subscript : ∀ s ∈ l.subscript, ∃ inner, Encloses s inner

/-- The lexeme is a token: its parts are written as the grammar wants them, and digits in its
subscript are a number. -/
structure IsToken (l : Lexeme) : Prop where
  base : IsBase ⟨l.base⟩
  subscript : ∀ s ∈ l.subscript, ∃ inner, Encloses s inner ∧ IsReadable inner

theorem IsToken.isShaped (h : l.IsToken) : l.IsShaped :=
  ⟨h.base, fun s hs => (h.subscript s hs).imp fun _ => And.left⟩

theorem Encloses.ne_nil (h : Encloses s inner) : inner ≠ [] := by
  cases h <;> assumption

/-- What a subscript holds has no closing brace in it. -/
theorem Encloses.brace_notMem (h : Encloses s inner) : .char '}' ∉ inner := by
  cases h with
  | braced hne hbrace => exact hbrace
  | bare hne hlabel => exact fun hmem => absurd (hlabel _ hmem) (by decide)

theorem Encloses.withoutBraces_eq (h : Encloses s inner) : Subscript.withoutBraces s = inner := by
  cases h with
  | braced hne hbrace => simp [Subscript.withoutBraces]
  | bare hne hlabel =>
    cases inner with
    | nil => exact absurd rfl hne
    | cons x inner =>
      have hx := hlabel x List.mem_cons_self
      unfold Subscript.withoutBraces
      split
      · next heq =>
        rw [(List.cons.inj heq).1] at hx
        cases hx
      · rfl

/-- The subscript is read from what it holds. -/
theorem Encloses.read_eq (h : Encloses s inner) : Subscript.read s = Subscript.ofInner inner := by
  have hs : s ≠ [] := by
    cases h with
    | braced hne hbrace => exact List.cons_ne_nil _ _
    | bare hne hlabel => exact hne
  rw [Subscript.read, if_neg hs, h.withoutBraces_eq]
  simp only [ne_eq, h.ne_nil, not_false_eq_true, true_and]
  rfl

/-- It can be read exactly if digits in it are a number. -/
theorem Encloses.exists_read_iff (h : Encloses s inner) :
    (∃ subscript, Subscript.read s = .ok subscript) ↔ IsReadable inner := by
  rw [h.read_eq, IsReadable, ← List.all_eq_true (p := fun x : Symbol => x.holds Text.isDigit),
    Subscript.ofInner]
  split
  · next hdigits =>
    cases (Text.chars? inner).bind Text.readNat? <;> simp [hdigits]
  · next hdigits =>
    refine iff_of_true ?_ fun hall => absurd hall hdigits
    split
    · exact ⟨_, rfl⟩
    · split <;> exact ⟨_, rfl⟩

theorem toReference_eq_ok_iff {position : Nat} {r : Reference} :
    l.toReference position = .ok r ↔ ∃ subscript,
      Subscript.read (l.subscript.getD []) = .ok subscript ∧
        r = ⟨⟨l.base⟩, subscript, l.transposed, position⟩ := by
  rw [toReference]
  cases Subscript.read (l.subscript.getD []) with
  | error e => exact iff_of_false nofun nofun
  | ok subscript =>
    constructor
    · intro h
      exact ⟨subscript, rfl, (Except.ok.inj h).symm⟩
    · rintro ⟨_, hs, rfl⟩
      cases hs
      rfl

/-- **The tokens** are the lexemes that are written as the grammar wants them and stand for a
reference. -/
theorem IsShaped.exists_toReference_iff (h : l.IsShaped) (position : Nat) :
    (∃ r, l.toReference position = .ok r) ↔ l.IsToken := by
  have hread : (∃ r, l.toReference position = .ok r) ↔
      ∃ subscript, Subscript.read (l.subscript.getD []) = .ok subscript := by
    simp only [toReference_eq_ok_iff]
    exact ⟨fun ⟨_, s, hs, _⟩ => ⟨s, hs⟩, fun ⟨s, hs⟩ => ⟨_, s, hs, rfl⟩⟩
  rw [hread]
  have hshape := h.subscript
  cases hl : l.subscript with
  | none => exact iff_of_true ⟨.absent, rfl⟩ ⟨h.base, fun s hs => by rw [hl] at hs; cases hs⟩
  | some s =>
    obtain ⟨inner, hinner⟩ := hshape s hl
    rw [Option.getD_some, hinner.exists_read_iff]
    refine ⟨fun hreadable => ⟨h.base, fun s' hs' => ?_⟩, fun htoken => ?_⟩
    · cases Option.some.inj (hl.symm.trans hs')
      exact ⟨inner, hinner, hreadable⟩
    · obtain ⟨inner', hinner', hreadable⟩ := htoken.subscript s hl
      rwa [← hinner.withoutBraces_eq, hinner'.withoutBraces_eq]

/-! ### The longest lexeme -/

/-- A subscript with the underscore before it. -/
def below : Option (List Symbol) → List Symbol
  | some s => .char '_' :: s
  | none => []

/-- The transpose mark, if there is one. -/
def mark (transposed : Bool) : List Symbol :=
  if transposed then [.char '^', .char 'T'] else []

theorem text_eq (l : Lexeme) : l.text = l.base ++ (below l.subscript ++ mark l.transposed) := by
  rw [text, List.append_assoc]
  cases l.subscript <;> rfl

/-- A star follows, or nothing. -/
def CanFollow (rest : List Symbol) : Prop :=
  ∀ x ∈ rest.head?, x = .char '*'

theorem scanTranspose_append (h : CanFollow rest) (transposed : Bool) :
    scanTranspose (mark transposed ++ rest) = (transposed, rest) := by
  cases transposed with
  | true => rfl
  | false =>
    change scanTranspose rest = (false, rest)
    unfold scanTranspose
    split
    · cases h _ rfl
    · rfl

/-- Neither a mark nor what follows a token goes on with its subscript. -/
theorem head?_mark_append (h : CanFollow rest) (transposed : Bool) {x : Symbol}
    (hx : x ∈ (mark transposed ++ rest).head?) : x = .char '^' ∨ x = .char '*' := by
  cases transposed with
  | true => exact .inl (Option.some.inj hx).symm
  | false => exact .inr (h x hx)

theorem scanSubscript_append {s? : Option (List Symbol)} (hs : ∀ s ∈ s?, ∃ inner, Encloses s inner)
    (hrest : ∀ x ∈ rest.head?, x = .char '^' ∨ x = .char '*') :
    scanSubscript (below s? ++ rest) = (s?, rest) := by
  cases s? with
  | none =>
    change scanSubscript rest = (none, rest)
    unfold scanSubscript
    split
    · rcases hrest _ rfl with hx | hx <;> cases hx
    · rcases hrest _ rfl with hx | hx <;> cases hx
    · rfl
  | some s =>
    obtain ⟨inner, hinner⟩ := hs s rfl
    cases hinner with
    | braced hne hbrace =>
      have hspan : (inner ++ .char '}' :: rest).takeWhile (· != Symbol.char '}') = inner ∧
          (inner ++ .char '}' :: rest).dropWhile (· != Symbol.char '}') = .char '}' :: rest :=
        takeWhile_append_of_head? (fun x hx => bne_iff_ne.2 fun he => hbrace (he ▸ hx)) (by simp)
      have htext : below (some (.char '{' :: inner ++ [.char '}'])) ++ rest =
          .char '_' :: .char '{' :: (inner ++ .char '}' :: rest) := by
        simp [below]
      rw [htext, scanSubscript, hspan.1, hspan.2]
      cases inner with
      | nil => exact absurd rfl hne
      | cons x inner => rfl
    | bare hne hlabel =>
      have hspan : (s ++ rest).takeWhile (·.holds isLabelChar) = s ∧
          (s ++ rest).dropWhile (·.holds isLabelChar) = rest :=
        takeWhile_append_of_head? hlabel fun x hx => by
          rcases hrest x hx with rfl | rfl <;> rfl
      cases s with
      | nil => exact absurd rfl hne
      | cons x s =>
        change scanSubscript (.char '_' :: (x :: s ++ rest)) = _
        unfold scanSubscript
        split
        · next heq =>
          have hx := hlabel x List.mem_cons_self
          rw [(List.cons.inj (List.cons.inj heq).2).1] at hx
          cases hx
        · next heq =>
          rw [← (List.cons.inj heq).2, hspan.1, hspan.2]
        · next heq => exact absurd rfl (heq _)

/-- **The longest lexeme** at the front of a token that a star or nothing follows is that token. -/
theorem scan_text_append (h : l.IsShaped) (hrest : CanFollow rest) :
    scan (l.text ++ rest) = some (l, rest) := by
  obtain ⟨c, cs, hbase, hc, hcs⟩ := h.base
  have hafter : ∀ x ∈ (below l.subscript ++ (mark l.transposed ++ rest)).head?,
      x.holds Char.isLower = false := by
    intro x hx
    cases hs : l.subscript with
    | none =>
      rw [hs] at hx
      rcases head?_mark_append hrest l.transposed hx with rfl | rfl <;> rfl
    | some s =>
      rw [hs] at hx
      rw [← Option.some.inj hx]
      rfl
  obtain ⟨htake, hdrop⟩ := takeWhile_append_of_head? hcs hafter
  have htext : l.text ++ rest =
      .char c :: (cs ++ (below l.subscript ++ (mark l.transposed ++ rest))) := by
    rw [text_eq, show l.base = .char c :: cs from hbase]
    simp
  have hupper : (Symbol.char c).holds Char.isUpper = true := hc
  rw [htext, scan, if_pos hupper, hdrop,
    scanSubscript_append h.subscript fun _ => head?_mark_append hrest l.transposed, htake]
  dsimp only
  rw [scanTranspose_append hrest, ← show l.base = .char c :: cs from hbase]

theorem of_scanSubscript (xs : List Symbol) :
    xs = below (scanSubscript xs).1 ++ (scanSubscript xs).2 ∧
      ∀ s ∈ (scanSubscript xs).1, ∃ inner, Encloses s inner := by
  unfold scanSubscript
  split
  · next inner =>
    split
    · exact ⟨rfl, nofun⟩
    · exact ⟨rfl, nofun⟩
    · next brace rest hrest hne =>
      have hsplit := List.takeWhile_append_dropWhile (p := (· != Symbol.char '}')) (l := inner)
      have hbrace : brace = .char '}' := by
        have h := List.head?_dropWhile_not (· != Symbol.char '}') inner
        rw [hrest] at h
        simpa using h
      refine ⟨?_, fun s hs => ?_⟩
      · rw [hrest, hbrace] at hsplit
        simp [below, hbrace, hsplit]
      · cases hs
        rw [hbrace]
        refine ⟨_, .braced hne fun hmem => ?_⟩
        have h := List.all_eq_true.1 List.all_takeWhile _ hmem
        simp at h
  · next inner _ =>
    split
    · exact ⟨rfl, nofun⟩
    · next hne =>
      refine ⟨?_, fun s hs => ?_⟩
      · simp [below]
      · cases hs
        exact ⟨_, .bare hne fun x hx => List.all_eq_true.1 List.all_takeWhile x hx⟩
  · exact ⟨rfl, nofun⟩

theorem of_scanTranspose (xs : List Symbol) :
    xs = mark (scanTranspose xs).1 ++ (scanTranspose xs).2 := by
  unfold scanTranspose
  split <;> rfl

/-- The lexeme at the front of a text is written as the grammar wants it. -/
theorem of_scan (h : scan xs = some (l, rest)) : xs = l.text ++ rest ∧ l.IsShaped := by
  have hbase := isBase_of_scan h
  cases xs with
  | nil => cases h
  | cons x xs =>
    simp only [scan] at h
    split at h
    · cases h
      obtain ⟨hsubscript, hshape⟩ := of_scanSubscript (xs.dropWhile (·.holds Char.isLower))
      refine ⟨?_, hbase, hshape⟩
      have hmark :=
        of_scanTranspose (scanSubscript (xs.dropWhile (·.holds Char.isLower))).2
      rw [text_eq]
      simp only [List.cons_append, List.append_assoc]
      rw [← hmark, ← hsubscript, List.takeWhile_append_dropWhile]
    · cases h

/-! ### Products of tokens -/

/-- The text of a product: the texts of its lexemes with one star between any two. -/
def joined (ls : List Lexeme) : List Symbol :=
  [.char '*'].intercalate (ls.map text)

/-- The texts of further factors, each after a star. -/
def starred (ls : List Lexeme) : List Symbol :=
  ls.flatMap fun l => .char '*' :: l.text

/-- The texts of factors that another one follows, each before a star. -/
def leading (ls : List Lexeme) : List Symbol :=
  ls.flatMap fun l => l.text ++ [.char '*']

theorem joined_cons (l : Lexeme) (ls : List Lexeme) : joined (l :: ls) = l.text ++ starred ls := by
  induction ls generalizing l with
  | nil => simp [joined, starred]
  | cons l' ls ih =>
    rw [joined, List.map_cons, List.map_cons, List.intercalate_cons_cons]
    have htail : [.char '*'].intercalate (l'.text :: ls.map text) = l'.text ++ starred ls := ih l'
    rw [htail, starred, starred, List.flatMap_cons]
    simp

/-- In a product each factor stands after those that come before it, with a star after each. -/
theorem joined_append_cons (before : List Lexeme) (l : Lexeme) (after : List Lexeme) :
    joined (before ++ l :: after) = leading before ++ (l.text ++ starred after) := by
  induction before with
  | nil => exact joined_cons l after
  | cons l' before ih =>
    have htail : joined (before ++ l :: after) = leading before ++ (l.text ++ starred after) := ih
    rw [List.cons_append, joined_cons, leading, List.flatMap_cons, List.append_assoc,
      show before.flatMap (fun l => l.text ++ [.char '*']) = leading before from rfl, ← htail,
      List.append_assoc]
    cases before <;> simp [starred, joined_cons]

theorem canFollow_starred (ls : List Lexeme) : CanFollow (starred ls) := by
  cases ls with
  | nil => exact nofun
  | cons l ls => exact fun x hx => (Option.some.inj hx).symm

/-- **A text is a product of tokens in one way only.** -/
theorem starred_inj {ls ls' : List Lexeme} (hls : ∀ l ∈ ls, l.IsShaped)
    (hls' : ∀ l ∈ ls', l.IsShaped) (h : starred ls = starred ls') : ls = ls' := by
  induction ls generalizing ls' with
  | nil =>
    cases ls' with
    | nil => rfl
    | cons l' ls' => cases h
  | cons l ls ih =>
    cases ls' with
    | nil => cases h
    | cons l' ls' =>
      obtain ⟨hl, hls⟩ := List.forall_mem_cons.1 hls
      obtain ⟨hl', hls'⟩ := List.forall_mem_cons.1 hls'
      have htail : l.text ++ starred ls = l'.text ++ starred ls' := (List.cons.inj h).2
      have hscan := scan_text_append hl (canFollow_starred ls)
      rw [htail, scan_text_append hl' (canFollow_starred ls'), Option.some.injEq,
        Prod.mk.injEq] at hscan
      rw [hscan.1, ih hls hls' hscan.2.symm]

/-- The text is a product of these tokens. -/
structure Spells (ls : List Lexeme) (xs : List Symbol) : Prop where
  ne_nil : ls ≠ []
  isToken : ∀ l ∈ ls, l.IsToken
  eq_joined : xs = joined ls

theorem Spells.isShaped (h : Spells ls xs) : ∀ l ∈ ls, l.IsShaped :=
  fun l hl => (h.isToken l hl).isShaped

theorem Spells.unique {ls' : List Lexeme} (h : Spells ls xs) (h' : Spells ls' xs) : ls = ls' := by
  cases ls with
  | nil => exact absurd rfl h.ne_nil
  | cons l ls =>
    cases ls' with
    | nil => exact absurd rfl h'.ne_nil
    | cons l' ls' =>
      refine starred_inj h.isShaped h'.isShaped ?_
      have heq := h.eq_joined.symm.trans h'.eq_joined
      rw [joined_cons, joined_cons] at heq
      exact congrArg (Symbol.char '*' :: ·) heq

/-- The references are those that the lexemes of a product stand for, in order, each at its place in
the text of the product (`joined_append_cons`), before which there are `start` symbols. -/
structure ReadFrom (start : Nat) (ls : List Lexeme) (rs : List Reference) : Prop where
  length_eq : rs.length = ls.length
  getElem? : ∀ before l after, ls = before ++ l :: after →
    ∃ r, rs[before.length]? = some r ∧ l.toReference (start + (leading before).length) = .ok r

theorem readFrom_nil_iff {start : Nat} {rs : List Reference} : ReadFrom start [] rs ↔ rs = [] := by
  refine ⟨fun h => List.eq_nil_of_length_eq_zero h.length_eq, ?_⟩
  rintro rfl
  exact ⟨rfl, fun before l after h => by simp at h⟩

theorem readFrom_cons_iff {start : Nat} {rs : List Reference} :
    ReadFrom start (l :: ls) rs ↔ ∃ r rs', rs = r :: rs' ∧ l.toReference start = .ok r ∧
      ReadFrom (start + l.text.length + 1) ls rs' := by
  have hstart (l' : Lexeme) (before : List Lexeme) :
      start + (leading (l' :: before)).length =
        start + l'.text.length + 1 + (leading before).length := by
    simp [leading]
    omega
  constructor
  · intro h
    obtain ⟨r, hr, hl⟩ := h.getElem? [] l ls rfl
    obtain ⟨rs', rfl⟩ : ∃ rs', rs = r :: rs' := by
      cases rs with
      | nil => cases hr
      | cons r' rs' => exact ⟨rs', by rw [Option.some.inj hr]⟩
    refine ⟨r, rs', rfl, hl, Nat.succ.inj h.length_eq, fun before l' after heq => ?_⟩
    obtain ⟨r', hr', hl'⟩ := h.getElem? (l :: before) l' after (congrArg (l :: ·) heq)
    exact ⟨r', hr', hstart l before ▸ hl'⟩
  · rintro ⟨r, rs', rfl, hl, hrest⟩
    refine ⟨congrArg (· + 1) hrest.length_eq, fun before l' after heq => ?_⟩
    cases before with
    | nil =>
      obtain ⟨rfl, -⟩ := List.cons.inj heq
      exact ⟨r, rfl, hl⟩
    | cons b before =>
      obtain ⟨hb, htail⟩ := List.cons.inj heq
      subst hb
      obtain ⟨r', hr', hl'⟩ := hrest.getElem? before l' after htail
      exact ⟨r', hr', (hstart l before).symm ▸ hl'⟩

/-- Tokens stand for references wherever they are. -/
theorem exists_readFrom (hls : ∀ l ∈ ls, l.IsToken) (start : Nat) :
    ∃ rs, ReadFrom start ls rs := by
  induction ls generalizing start with
  | nil => exact ⟨[], readFrom_nil_iff.2 rfl⟩
  | cons l ls ih =>
    obtain ⟨hl, hls⟩ := List.forall_mem_cons.1 hls
    obtain ⟨r, hr⟩ := (hl.isShaped.exists_toReference_iff start).2 hl
    obtain ⟨rs, hrs⟩ := ih hls (start + l.text.length + 1)
    exact ⟨r :: rs, readFrom_cons_iff.2 ⟨r, rs, rfl, hr, hrs⟩⟩

/-- Lexemes that stand for references are tokens. -/
theorem ReadFrom.isToken {start : Nat} {rs : List Reference} (h : ReadFrom start ls rs)
    (hls : ∀ l ∈ ls, l.IsShaped) : ∀ l ∈ ls, l.IsToken := by
  intro l hl
  obtain ⟨before, after, heq⟩ := List.append_of_mem hl
  obtain ⟨r, -, hr⟩ := h.getElem? before l after heq
  exact ((hls l hl).exists_toReference_iff _).1 ⟨r, hr⟩

end Lexeme

open Lexeme

variable {l : Lexeme} {ls : List Lexeme} {xs rest : List Symbol} {rs : List Reference}

/-! ### Reading products -/

/-- What stands before a factor of a product, directly: a star, or nothing before the first one. -/
def separator (first : Bool) : List Symbol :=
  if first then [] else [.char '*']

theorem checkGap_eq_ok_iff {first : Bool} {between : List Symbol} {u : Unit} :
    checkGap first between l = .ok u ↔ between = separator first := by
  cases first <;> simp [checkGap, separator] <;> grind

theorem checkEnd_eq_ok_iff {first : Bool} {after : List Symbol} {u : Unit} :
    checkEnd first after = .ok u ↔ after = [] := by
  rw [checkEnd]
  by_cases hafter : after = []
  · exact iff_of_true (if_pos hafter) hafter
  · rw [if_neg hafter]
    refine iff_of_false (fun h => ?_) hafter
    split at h <;> cases h

theorem gap_append_afterGap (xs : List Symbol) : gap xs ++ afterGap xs = xs :=
  List.takeWhile_append_dropWhile

/-- Where no lexeme is found the whole text is skipped. -/
theorem afterGap_eq_nil_of_scan (h : scan (afterGap xs) = none) : afterGap xs = [] := by
  have hhead := List.head?_dropWhile_not (fun x : Symbol => !x.holds Char.isUpper) xs
  cases hafter : afterGap xs with
  | nil => rfl
  | cons x rest =>
    rw [show xs.dropWhile (fun x : Symbol => !x.holds Char.isUpper) = x :: rest from hafter]
      at hhead
    have hupper : x.holds Char.isUpper = true := by simpa using hhead
    rw [hafter, scan, if_pos hupper] at h
    cases h

/-- The gap before a token is what stands there directly. -/
theorem gap_separator_append (h : l.IsShaped) (first : Bool) (rest : List Symbol) :
    gap (separator first ++ (l.text ++ rest)) = separator first ∧
      afterGap (separator first ++ (l.text ++ rest)) = l.text ++ rest := by
  obtain ⟨c, cs, hbase, hc, -⟩ := h.base
  refine takeWhile_append_of_head? (fun x hx => ?_) fun x hx => ?_
  · cases first with
    | true => cases hx
    | false =>
      rw [List.mem_singleton.1 hx]
      rfl
  · rw [text_eq, show l.base = .char c :: cs from hbase] at hx
    rw [← Option.some.inj hx]
    simpa [Symbol.holds] using hc

/-- **One step of reading** takes the token at the front. -/
theorem readFactorsFrom_append (h : l.IsShaped) (hrest : CanFollow rest) (first : Bool)
    (position : Nat) : readFactorsFrom first position (separator first ++ (l.text ++ rest)) = (do
      let r ← (l.toReference (position + (separator first).length)).mapError .index
      let rs ← readFactorsFrom false (position + (separator first).length + l.text.length) rest
      return r :: rs) := by
  obtain ⟨hgap, hafter⟩ := gap_separator_append h first rest
  have hscan := scan_text_append h hrest
  rw [readFactorsFrom]
  split
  · next hnone =>
    rw [hafter, hscan] at hnone
    cases hnone
  · next l' rest' hsome =>
    rw [hafter, hscan] at hsome
    cases hsome
    rw [hgap, checkGap_eq_ok_iff (u := ()).2 rfl]
    rfl

/-- The text of a product, or of the factors that come after others. -/
def factorsText (first : Bool) (ls : List Lexeme) : List Symbol :=
  if first then joined ls else starred ls

theorem factorsText_cons (first : Bool) (l : Lexeme) (ls : List Lexeme) :
    factorsText first (l :: ls) = separator first ++ (l.text ++ factorsText false ls) := by
  cases first with
  | true => exact joined_cons l ls
  | false => rfl

/-- Tokens are read as what they stand for. -/
theorem readFactorsFrom_factorsText (hls : ∀ l ∈ ls, l.IsShaped) {first : Bool} {position : Nat}
    (h : ReadFrom (position + (separator first).length) ls rs) :
    readFactorsFrom first position (factorsText first ls) = .ok rs := by
  induction ls generalizing first position rs with
  | nil =>
    obtain rfl := readFrom_nil_iff.1 h
    have hnil : factorsText first [] = [] := by cases first <;> rfl
    rw [hnil, readFactorsFrom]
    cases first <;> rfl
  | cons l ls ih =>
    obtain ⟨hl, hls⟩ := List.forall_mem_cons.1 hls
    obtain ⟨r, rs', rfl, hr, hrest⟩ := readFrom_cons_iff.1 h
    have hfollow : CanFollow (factorsText false ls) := canFollow_starred ls
    rw [factorsText_cons, readFactorsFrom_append hl hfollow, hr, ih hls hrest]
    rfl

/-- What is read as references is a product of the tokens that they stand for. -/
theorem exists_of_readFactorsFrom {first : Bool} {position : Nat}
    (h : readFactorsFrom first position xs = .ok rs) :
    ∃ ls, (∀ l ∈ ls, l.IsShaped) ∧ xs = factorsText first ls ∧
      ReadFrom (position + (separator first).length) ls rs := by
  fun_induction readFactorsFrom first position xs generalizing rs with
  | case1 first position xs hscan =>
    obtain ⟨u, hend, h⟩ := exists_of_bind_eq_ok h
    cases h
    have hxs : xs = [] := by
      rw [← gap_append_afterGap xs, afterGap_eq_nil_of_scan hscan,
        checkEnd_eq_ok_iff.1 (eq_ok_of_mapError hend)]
      rfl
    refine ⟨[], List.forall_mem_nil _, ?_, readFrom_nil_iff.2 rfl⟩
    cases first <;> exact hxs
  | case2 first position xs l rest hscan ih =>
    obtain ⟨u, hgap, h⟩ := exists_of_bind_eq_ok h
    obtain ⟨r, hr, h⟩ := exists_of_bind_eq_ok h
    obtain ⟨rs', hrs, h⟩ := exists_of_bind_eq_ok h
    cases h
    have hgap := checkGap_eq_ok_iff.1 (eq_ok_of_mapError hgap)
    obtain ⟨hafter, hl⟩ := of_scan hscan
    obtain ⟨ls, hls, rfl, hread⟩ := ih hrs
    rw [hgap] at hr hread
    refine ⟨l :: ls, List.forall_mem_cons.2 ⟨hl, hls⟩, ?_,
      readFrom_cons_iff.2 ⟨r, rs', rfl, eq_ok_of_mapError hr, hread⟩⟩
    rw [factorsText_cons, ← hafter, ← hgap, gap_append_afterGap]

/-- **What reading a product accepts**, and the references that it gives. -/
theorem readFactors_eq_ok_iff :
    readFactors xs = .ok rs ↔ ∃ ls, (∀ l ∈ ls, l.IsToken) ∧
      Text.withoutBlanks xs = joined ls ∧ ReadFrom 0 ls rs := by
  constructor
  · intro h
    obtain ⟨ls, hls, htext, hread⟩ := exists_of_readFactorsFrom h
    exact ⟨ls, hread.isToken hls, htext, hread⟩
  · rintro ⟨ls, hls, htext, hread⟩
    rw [readFactors, htext]
    have hread : ReadFrom (0 + (separator true).length) ls rs := hread
    exact readFactorsFrom_factorsText (fun l hl => (hls l hl).isShaped) hread

theorem readFactors_eq_ok_nil_iff : readFactors xs = .ok [] ↔ Text.withoutBlanks xs = [] := by
  rw [readFactors_eq_ok_iff]
  constructor
  · rintro ⟨ls, -, htext, hread⟩
    rw [htext, List.eq_nil_of_length_eq_zero hread.length_eq.symm]
    rfl
  · intro htext
    exact ⟨[], nofun, htext, readFrom_nil_iff.2 rfl⟩

theorem readFactors_eq_ok_and_ne_nil_iff : readFactors xs = .ok rs ∧ rs ≠ [] ↔
    ∃ ls, Spells ls (Text.withoutBlanks xs) ∧ ReadFrom 0 ls rs := by
  rw [readFactors_eq_ok_iff]
  constructor
  · rintro ⟨⟨ls, hls, htext, hread⟩, hne⟩
    refine ⟨ls, ⟨?_, hls, htext⟩, hread⟩
    rintro rfl
    exact hne (readFrom_nil_iff.1 hread)
  · rintro ⟨ls, ⟨hne, hls, htext⟩, hread⟩
    refine ⟨⟨ls, hls, htext, hread⟩, ?_⟩
    rintro rfl
    exact hne (List.eq_nil_of_length_eq_zero hread.length_eq.symm)

/-- A text is read as one reference if it is one token. -/
theorem readReference_eq_ok_iff {r : Reference} :
    readReference xs = .ok (some r) ↔
      ∃ l : Lexeme, l.IsToken ∧ Text.withoutBlanks xs = l.text ∧ l.toReference 0 = .ok r := by
  constructor
  · intro h
    unfold readReference at h
    split at h
    · next l hscan =>
      obtain ⟨r', hr, h⟩ := exists_of_bind_eq_ok h
      cases h
      obtain ⟨htext, hl⟩ := of_scan hscan
      rw [List.append_nil] at htext
      exact ⟨l, (hl.exists_toReference_iff 0).1 ⟨r, hr⟩, htext, hr⟩
    · cases h
  · rintro ⟨l, hl, htext, hr⟩
    have hscan : scan (l.text ++ []) = some (l, []) := scan_text_append hl.isShaped nofun
    rw [List.append_nil] at hscan
    rw [readReference, htext, hscan]
    dsimp only
    rw [hr]
    rfl

/-- A text that is one reference has it as a product, too. -/
theorem readFactors_of_readReference {r : Reference} (h : readReference xs = .ok (some r)) :
    readFactors xs = .ok [r] := by
  obtain ⟨l, hl, htext, hr⟩ := readReference_eq_ok_iff.1 h
  have hread : ReadFrom 0 [l] [r] :=
    readFrom_cons_iff.2 ⟨r, [], rfl, hr, readFrom_nil_iff.2 rfl⟩
  refine readFactors_eq_ok_iff.2 ⟨[l], List.forall_mem_singleton.2 hl, ?_, hread⟩
  rw [htext, joined_cons]
  exact (List.append_nil _).symm

/-- **The reader accepts just the products of tokens.** A text, apart from blanks, is read as some
references exactly if it is a product of tokens, which it then is in one way; they are what the
tokens stand for, each with the number of symbols before its token as its position. A text of blanks
has no references, and all other texts are refused. A text is read as one reference exactly if it is
one token, and that is the reference that it has as a product. -/
theorem readFactors_grammar (xs : List Symbol) :
    (∀ rs, readFactors xs = .ok rs ∧ rs ≠ [] ↔
      ∃ ls, Spells ls (Text.withoutBlanks xs) ∧ ReadFrom 0 ls rs) ∧
    ((∃ rs, readFactors xs = .ok rs ∧ rs ≠ []) ↔ ∃! ls, Spells ls (Text.withoutBlanks xs)) ∧
    (readFactors xs = .ok [] ↔ Text.withoutBlanks xs = []) ∧
    ((∃ fault, readFactors xs = .error fault) ↔
      Text.withoutBlanks xs ≠ [] ∧ ¬∃ ls, Spells ls (Text.withoutBlanks xs)) ∧
    ((∃ r, readReference xs = .ok (some r)) ↔
      ∃ l : Lexeme, l.IsToken ∧ Text.withoutBlanks xs = l.text) ∧
    ∀ r, readReference xs = .ok (some r) ↔
      (∃ l : Lexeme, l.IsToken ∧ Text.withoutBlanks xs = l.text) ∧ readFactors xs = .ok [r] := by
  have hexists : (∃ rs, readFactors xs = .ok rs ∧ rs ≠ []) ↔
      ∃ ls, Spells ls (Text.withoutBlanks xs) := by
    simp only [readFactors_eq_ok_and_ne_nil_iff]
    refine ⟨fun ⟨rs, ls, hls, _⟩ => ⟨ls, hls⟩, fun ⟨ls, hls⟩ => ?_⟩
    obtain ⟨rs, hrs⟩ := exists_readFrom hls.isToken 0
    exact ⟨rs, ls, hls, hrs⟩
  have hreference : (∃ r, readReference xs = .ok (some r)) ↔
      ∃ l : Lexeme, l.IsToken ∧ Text.withoutBlanks xs = l.text := by
    simp only [readReference_eq_ok_iff]
    refine ⟨fun ⟨r, l, hl, htext, _⟩ => ⟨l, hl, htext⟩, fun ⟨l, hl, htext⟩ => ?_⟩
    obtain ⟨r, hr⟩ := (hl.isShaped.exists_toReference_iff 0).2 hl
    exact ⟨r, l, hl, htext, hr⟩
  refine ⟨fun rs => readFactors_eq_ok_and_ne_nil_iff, ?unique, readFactors_eq_ok_nil_iff, ?refused,
    hreference, fun r => ⟨fun hr => ⟨hreference.1 ⟨r, hr⟩, ?same⟩, ?single⟩⟩
  case unique =>
    rw [hexists]
    exact ⟨fun ⟨ls, hls⟩ => ⟨ls, hls, fun ls' hls' => hls'.unique hls⟩,
      fun ⟨ls, hls, _⟩ => ⟨ls, hls⟩⟩
  case refused =>
    rw [← hexists, ne_eq, ← readFactors_eq_ok_nil_iff]
    cases readFactors xs with
    | error fault => exact iff_of_true ⟨fault, rfl⟩ ⟨nofun, nofun⟩
    | ok rs =>
      refine iff_of_false nofun fun hno => hno.2 ⟨rs, rfl, ?_⟩
      rintro rfl
      exact hno.1 rfl
  case same => exact readFactors_of_readReference hr
  case single =>
    rintro ⟨htoken, hread⟩
    obtain ⟨r', hr'⟩ := hreference.2 htoken
    have hsame := hread.symm.trans (readFactors_of_readReference hr')
    rw [hr', (List.cons.inj (Except.ok.inj hsame)).1]

/-- Neither a star nor a plus between braces ends a lexeme, and a mark after them still counts. -/
example : (readFactors (Text.symbols "A_\x7bx*B+C\x7d^T * D")).toOption.map
    (·.map fun r => (r.name, r.transposed, r.position)) =
      some [(("A_x*B+C" : Text), true, (0 : Int)), ("D", false, 12)] := by
  decide +kernel

end CellLineage.Formula
