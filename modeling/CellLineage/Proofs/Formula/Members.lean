import CellLineage.Proofs.Formula.Written
import Mathlib.Data.List.Basic
import Mathlib.Data.List.Induction
import Mathlib.Data.List.Pairwise
import Mathlib.Data.Nat.Digits.Defs
import Std.Data.String.ToInt

/-!
# The last member of a family

A relative reference means the member of its family at an index, but at most the last one. Which one
is the last depends only on which of the names are members, not on their order or on other names. It
is not known if some member has digits that make no number; no member that a formula names has.

## Main definitions

* `lastIndex?`: the index of the last member of a family.

## Main results

* `getLast?_memberIndices`: the list of all indices ends with that of the last member.
* `memberDigits?_memberName`: the name of a member tells its index.
* `lastIndex?_congr`: only the members of a family count.
* `exists_memberIndices`: the members that formulas name all have an index.
-/

namespace CellLineage.Formula

variable {base name : Text} {names names' : List Text}

/-- The index of the last member of a family among the names, if the family has one. -/
def lastIndex? (names : List Text) (base : Text) : Except IndexFault (Option Nat) := do
  return (← (names.filterMap (memberDigits? base)).mapM readIndex).max?

/-- Numbers are read from digits as long as all of them are numbers. -/
theorem mapM_readIndex (ds : List (List Char)) : ds.mapM readIndex =
    if ∀ d ∈ ds, (Text.readNat? d).isSome then .ok (ds.filterMap Text.readNat?)
    else .error .unreadable := by
  induction ds with
  | nil => rfl
  | cons d ds ih =>
    rw [List.mapM_cons, ih, readIndex]
    simp only [List.forall_mem_cons]
    cases h : Text.readNat? d with
    | none =>
      have hnone : ¬((none : Option Nat).isSome = true ∧
          ∀ d ∈ ds, (Text.readNat? d).isSome = true) := fun hall => Bool.false_ne_true hall.1
      rw [if_neg hnone]
      rfl
    | some n =>
      by_cases hds : ∀ d ∈ ds, (Text.readNat? d).isSome
      · rw [if_pos hds, if_pos ⟨rfl, hds⟩, List.filterMap_cons_some h]
        rfl
      · rw [if_neg hds, if_neg fun hall => hds hall.2]
        rfl

/-- A sorted list ends with its greatest number. -/
theorem getLast?_mergeSort (ns : List Nat) : ns.mergeSort.getLast? = ns.max? := by
  have hperm := List.mergeSort_perm ns fun a b => decide (a ≤ b)
  cases hs : ns.mergeSort with
  | nil =>
    rw [hs] at hperm
    obtain rfl := hperm.nil_eq
    rfl
  | cons m ms =>
    have hne : ns.mergeSort ≠ [] := by simp [hs]
    have hsorted : ns.mergeSort.Pairwise (· ≤ ·) := by
      have h : ns.mergeSort.Pairwise fun a b => decide (a ≤ b) = true :=
        List.pairwise_mergeSort (fun a b c => by simpa using Nat.le_trans)
          (fun a b => by simpa using Nat.le_total a b) ns
      exact h.imp of_decide_eq_true
    rw [← hs, List.getLast?_eq_some_getLast hne, eq_comm, List.max?_eq_some_iff]
    refine ⟨hperm.mem_iff.1 (List.getLast_mem hne), fun b hb => ?_⟩
    exact hsorted.rel_getLast (hperm.mem_iff.2 hb)

/-- The list of all indices of a family ends with that of its last member. -/
theorem getLast?_memberIndices (names : List Text) (base : Text) :
    (memberIndices names base).map List.getLast? = lastIndex? names base := by
  rw [memberIndices, lastIndex?]
  cases (names.filterMap (memberDigits? base)).mapM readIndex with
  | error e => rfl
  | ok ns => exact congrArg Except.ok (getLast?_mergeSort ns)

/-- The greatest number of a list only depends on which numbers are in it. -/
theorem max?_congr {ns ns' : List Nat} (h : ∀ n, n ∈ ns ↔ n ∈ ns') : ns.max? = ns'.max? := by
  refine Option.ext fun m => ?_
  rw [List.max?_eq_some_iff, List.max?_eq_some_iff]
  simp only [h]

/-- The last member of a family only depends on which members there are. -/
theorem lastIndex?_congr
    (h : ∀ name, (memberDigits? base name).isSome → (name ∈ names ↔ name ∈ names')) :
    lastIndex? names base = lastIndex? names' base := by
  have hdigits : ∀ d, d ∈ names.filterMap (memberDigits? base) ↔
      d ∈ names'.filterMap (memberDigits? base) := by
    intro d
    rw [List.mem_filterMap, List.mem_filterMap]
    refine exists_congr fun name => and_congr_left fun hd => h name ?_
    rw [hd]
    rfl
  have hall : (∀ d ∈ names.filterMap (memberDigits? base), (Text.readNat? d).isSome) ↔
      ∀ d ∈ names'.filterMap (memberDigits? base), (Text.readNat? d).isSome := by
    simp only [hdigits]
  rw [lastIndex?, lastIndex?, mapM_readIndex, mapM_readIndex]
  by_cases hs : ∀ d ∈ names'.filterMap (memberDigits? base), (Text.readNat? d).isSome
  · rw [if_pos hs, if_pos (hall.2 hs)]
    refine congrArg Except.ok (max?_congr fun n => ?_)
    rw [List.mem_filterMap, List.mem_filterMap]
    simp only [hdigits]
  · rw [if_neg hs, if_neg (hall.not.2 hs)]

theorem eq_or_eq_of_withoutLineEnd (xs : List Symbol) :
    xs = withoutLineEnd xs ∨ xs = withoutLineEnd xs ++ [.char '\n'] := by
  unfold withoutLineEnd
  split
  · next h =>
    obtain ⟨ys, rfl⟩ := List.getLast?_eq_some_iff.1 h
    exact .inr (by rw [List.dropLast_concat])
  · exact .inl rfl

theorem eq_map_char_of_chars? {xs : List Symbol} {cs : List Char} (h : Text.chars? xs = some cs) :
    xs = cs.map .char := by
  induction xs generalizing cs with
  | nil =>
    cases h
    rfl
  | cons x xs ih =>
    rw [Text.chars?, List.mapM_cons, Option.bind_eq_bind, Option.bind_eq_some_iff] at h
    obtain ⟨c, hc, h⟩ := h
    rw [Option.bind_eq_bind, Option.bind_eq_some_iff] at h
    obtain ⟨cs', hcs, h⟩ := h
    cases h
    rw [List.map_cons, ih hcs]
    cases x with
    | char d =>
      cases hc
      rfl
    | surrogate k => cases hc

/-- The name of a member is its base, an underscore, decimal digits and perhaps a line end. -/
theorem symbols_of_memberDigits? {ds : List Char} (h : memberDigits? base name = some ds) :
    (∀ c ∈ ds, Text.isDecimal c = true) ∧
      (name.symbols = (base ++ "_").symbols ++ ds.map .char ∨
        name.symbols = (base ++ "_").symbols ++ (ds.map .char ++ [.char '\n'])) := by
  unfold memberDigits? at h
  split at h
  · cases h
  · next rest hrest =>
    split at h
    · cases h
    · next digits hdigits =>
      split at h
      · next hd =>
        cases h
        rw [List.isPrefixOf?_eq_some_iff_append_eq] at hrest
        rw [← eq_map_char_of_chars? hdigits, ← hrest]
        refine ⟨List.all_eq_true.1 hd.2, (eq_or_eq_of_withoutLineEnd rest).imp ?_ ?_⟩
        · exact congrArg _
        · exact congrArg _
      · cases h

/-! ### The name of a member -/

/-- The ten digits of numbers that are shown have the values that they show. -/
theorem decimalValue?_of_isDigit {c : Char} (h : c.isDigit = true) :
    Text.decimalValue? c = some (c.toNat - '0'.toNat) := by
  have hc : 0x30 ≤ c.toNat ∧ c.toNat ≤ 0x30 + 9 := by
    rw [Char.isDigit, Bool.and_eq_true, decide_eq_true_eq, decide_eq_true_eq] at h
    exact h
  have hfind : Text.decimalZeros.find? (fun z => z ≤ c.toNat && c.toNat ≤ z + 9) = some 0x30 :=
    List.find?_cons_of_pos (by simpa using hc)
  rw [Text.decimalValue?, hfind]
  rfl

theorem isDecimal_of_isDigit {c : Char} (h : c.isDigit = true) : Text.isDecimal c = true := by
  rw [Text.isDecimal, decimalValue?_of_isDigit h, Option.isSome_some]

theorem isDigit_of_mem_toDigits {n : Nat} {c : Char} (hc : c ∈ Nat.toDigits 10 n) :
    c.isDigit = true :=
  Nat.isDigit_of_mem_toDigits (by decide) (by decide) hc

/-- All digits that a number is shown with are decimal. -/
theorem all_isDecimal_toDigits (n : Nat) : (Nat.toDigits 10 n).all Text.isDecimal = true :=
  List.all_eq_true.2 fun _ hc => isDecimal_of_isDigit (isDigit_of_mem_toDigits hc)

theorem decimalNat_toDigits (n : Nat) : Text.decimalNat (Nat.toDigits 10 n) = n := by
  have hdigit : ∀ c ∈ Nat.toDigits 10 n, c.isDigit = true := fun c => isDigit_of_mem_toDigits
  have hfold (cs : List Char) (hcs : ∀ c ∈ cs, c.isDigit = true) (m : Nat) :
      cs.foldl (fun n c => 10 * n + (Text.decimalValue? c).getD 0) m =
        Nat.ofDigitChars 10 cs m := by
    induction cs generalizing m with
    | nil => rfl
    | cons c cs ih =>
      obtain ⟨hc, hcs⟩ := List.forall_mem_cons.1 hcs
      rw [List.foldl_cons, decimalValue?_of_isDigit hc, Option.getD_some, ih hcs]
      rfl
  rw [Text.decimalNat, hfold _ hdigit, Nat.ofDigitChars_ten_toDigits]

theorem eq_of_readNat?_toDigits {m n : Nat} (h : Text.readNat? (Nat.toDigits 10 n) = some m) :
    m = n := by
  unfold Text.readNat? at h
  split at h
  · cases h
    exact decimalNat_toDigits n
  · cases h

theorem chars?_map_char (cs : List Char) : Text.chars? (cs.map .char) = some cs := by
  induction cs with
  | nil => rfl
  | cons c cs ih => simp_all [Text.chars?, Symbol.char?]

/-- A number is shown with its digits. -/
theorem symbols_toString_natCast (n : Nat) :
    (toString (n : Int) : Text).symbols = (Nat.toDigits 10 n).map .char := by
  rw [Int.toString_eq_repr, Int.repr_eq_if, if_pos (Int.natCast_nonneg n), Int.toNat_natCast,
    Nat.repr]
  exact congrArg (List.map Symbol.char) (String.toList_ofList ..)

/-- What holds of all digits holds of the symbols with which a number is shown. -/
theorem forall_mem_symbols_toString {p : Symbol → Prop}
    (h : ∀ c : Char, c.isDigit = true → p (.char c)) (n : Nat) :
    ∀ x ∈ (toString (n : Int) : Text).symbols, p x := by
  rw [symbols_toString_natCast]
  intro x hx
  obtain ⟨c, hc, rfl⟩ := List.mem_map.1 hx
  exact h c (isDigit_of_mem_toDigits hc)

/-- The name of a member is that of a member of its family. -/
theorem memberDigits?_memberName (base : Text) (n : Nat) :
    memberDigits? base (memberName base n) = some (Nat.toDigits 10 n) := by
  have hsymbols : (base ++ "_").symbols ++ (Nat.toDigits 10 n).map .char =
      (memberName base n).symbols := by
    rw [memberName, Text.symbols_append, Text.symbols_append, Text.symbols_append,
      symbols_toString_natCast]
  have hprefix := List.isPrefixOf?_eq_some_iff_append_eq.2 hsymbols
  have hend : withoutLineEnd ((Nat.toDigits 10 n).map .char) =
      (Nat.toDigits 10 n).map Symbol.char := by
    refine if_neg fun hlast => ?_
    obtain ⟨c, hc, he⟩ := List.mem_map.1 (List.mem_of_getLast? hlast)
    cases he
    exact absurd (isDigit_of_mem_toDigits hc) (by decide)
  have hall : Nat.toDigits 10 n ≠ [] ∧ (Nat.toDigits 10 n).all Text.isDecimal = true :=
    ⟨Nat.toDigits_ne_nil, all_isDecimal_toDigits n⟩
  simp only [memberDigits?, hprefix, hend, chars?_map_char]
  exact if_pos hall

/-- A member among the names is not beyond the last one. -/
theorem exists_le_of_lastIndex? {last? : Option Nat} {n : Nat}
    (h : lastIndex? names base = .ok last?) (hn : memberName base n ∈ names) :
    ∃ last, last? = some last ∧ n ≤ last := by
  have hdigits : Nat.toDigits 10 n ∈ names.filterMap (memberDigits? base) :=
    List.mem_filterMap.2 ⟨_, hn, memberDigits?_memberName base n⟩
  rw [lastIndex?, mapM_readIndex] at h
  split at h
  · next hall =>
    cases h
    obtain ⟨m, hm⟩ := Option.isSome_iff_exists.1 (hall _ hdigits)
    obtain rfl := eq_of_readNat?_toDigits hm
    have hmem : m ∈ (names.filterMap (memberDigits? base)).filterMap Text.readNat? :=
      List.mem_filterMap.2 ⟨_, hdigits, hm⟩
    obtain ⟨last, hlast⟩ := Option.isSome_iff_exists.1 (List.isSome_max?_of_mem hmem)
    exact ⟨last, hlast, (List.max?_eq_some_iff.1 hlast).2 m hmem⟩
  · cases h

/-! ### Members that formulas name -/

theorem decimalValue?_le {c : Char} {d : Nat} (h : Text.decimalValue? c = some d) : d ≤ 9 := by
  obtain ⟨z, hz, rfl⟩ := Option.map_eq_some_iff.1 h
  have hz := List.find?_some hz
  rw [Bool.and_eq_true, decide_eq_true_eq, decide_eq_true_eq] at hz
  omega

/-- A number is less than the power of ten that its digits allow. -/
theorem decimalNat_lt (cs : List Char) : Text.decimalNat cs < 10 ^ cs.length := by
  induction cs using List.reverseRecOn with
  | nil => exact Nat.one_pos
  | append_singleton cs c ih =>
    have hdigit : (Text.decimalValue? c).getD 0 ≤ 9 := by
      cases hd : Text.decimalValue? c with
      | none => exact Nat.zero_le 9
      | some d => exact decimalValue?_le hd
    have hlast : Text.decimalNat (cs ++ [c]) =
        10 * Text.decimalNat cs + (Text.decimalValue? c).getD 0 := List.foldl_concat ..
    rw [hlast, List.length_append, List.length_singleton, Nat.pow_succ]
    omega

/-- A number is read from the digits that it is shown with, unless these are too many. -/
theorem isSome_readNat?_of_length_le {n : Nat}
    (h : (Nat.toDigits 10 n).length ≤ Text.maxDigits) :
    (Text.readNat? (Nat.toDigits 10 n)).isSome := by
  rw [Text.readNat?, if_pos ⟨Nat.toDigits_ne_nil, all_isDecimal_toDigits n, h⟩, Option.isSome_some]

/-- A number that was read is also read from the digits that it is shown with. -/
theorem isSome_readNat?_toDigits {cs : List Char} {n : Nat} (h : Text.readNat? cs = some n) :
    (Text.readNat? (Nat.toDigits 10 n)).isSome := by
  unfold Text.readNat? at h
  split at h
  · next hcs =>
    cases h
    have hlength : (Nat.toDigits 10 (Text.decimalNat cs)).length ≤ Text.maxDigits :=
      (Nat.toDigits_length 10 _ _ (List.length_pos_iff.2 hcs.1) (decimalNat_lt cs)).trans hcs.2.2
    exact isSome_readNat?_of_length_le hlength
  · cases h

theorem Subscript.withoutBraces_subset (xs : List Symbol) : withoutBraces xs ⊆ xs := by
  unfold withoutBraces
  split
  · split
    · exact fun x hx => List.mem_cons_of_mem _ ((List.dropLast_sublist _).subset hx)
    · exact fun _ hx => hx
  · exact fun _ hx => hx

/-- A number that was read as a subscript makes a number again. -/
theorem Subscript.IsRead.of_number {k : Int} (h : (number k).IsRead) :
    ∃ n : Nat, k = n ∧ (Text.readNat? (Nat.toDigits 10 n)).isSome := by
  obtain ⟨xs, -, h⟩ := h
  unfold Subscript.read at h
  dsimp only at h
  split at h
  · cases h
  · split at h
    · split at h
      · next n hn =>
        cases h
        obtain ⟨cs, -, hcs⟩ := Option.bind_eq_some_iff.1 hn
        exact ⟨n, rfl, isSome_readNat?_toDigits hcs⟩
      · cases h
    · split at h
      · cases h
      · split at h <;> cases h

/-- A label that was read as a subscript is no text of digits and has no blank. -/
theorem Subscript.IsRead.of_label {t : Text} (h : (label t).IsRead) :
    ¬(t.symbols ≠ [] ∧ t.symbols.all (·.holds Text.isDigit) = true) ∧
      ∀ x ∈ t.symbols, x.holds Text.isBlank = false := by
  obtain ⟨xs, hblank, h⟩ := h
  unfold Subscript.read at h
  dsimp only at h
  split at h
  · cases h
  · split at h
    · split at h <;> cases h
    · next hdigits =>
      split at h
      · cases h
      · split at h
        · cases h
        · cases h
          exact ⟨hdigits, fun x hx => hblank x (withoutBraces_subset xs hx)⟩

/-- Whatever of a name counts as the digits of a member is not empty. -/
theorem ne_nil_of_memberDigits? {ds : List Char} (h : memberDigits? base name = some ds) :
    ds ≠ [] := by
  unfold memberDigits? at h
  split at h
  · cases h
  · split at h
    · cases h
    · split at h
      · next hd =>
        cases h
        exact hd.1
      · cases h

/-- A member that a formula names has digits that make a number. -/
theorem Reference.IsRead.isSome_readNat? {r : Reference} (hr : r.IsRead) (hbase : IsBase base)
    {ds : List Char} (h : memberDigits? base r.name = some ds) : (Text.readNat? ds).isSome := by
  obtain ⟨hdecimal, hsymbols⟩ := symbols_of_memberDigits? h
  have hsubscript := hr.subscript
  -- the base stands before the only underscore
  have hsplit : ∃ zs, r.name.symbols = base.symbols ++ .char '_' :: zs ∧
      (zs = ds.map .char ∨ zs = ds.map .char ++ [.char '\n']) := by
    rcases hsymbols with hs | hs
    · exact ⟨_, hs.trans (List.append_assoc ..), .inl rfl⟩
    · exact ⟨_, hs.trans (List.append_assoc ..), .inr rfl⟩
  obtain ⟨zs, hname, hzs⟩ := hsplit
  have hdigits : .char '_' ∉ ds.map Symbol.char := by
    intro hmem
    obtain ⟨c, hc, he⟩ := List.mem_map.1 hmem
    cases he
    exact absurd (hdecimal _ hc) (by decide)
  have hnotMem : .char '_' ∉ zs := by
    rcases hzs with rfl | rfl
    · exact hdigits
    · rw [List.mem_append, not_or]
      exact ⟨hdigits, by decide⟩
  have hbare (hb : r.name = r.base) : (Text.readNat? ds).isSome := by
    rw [hb] at hname
    refine absurd ?_ (hr.isBase.notMem (c := '_') rfl rfl)
    rw [hname]
    exact List.mem_append_right _ List.mem_cons_self
  have hbelow {ys : List Symbol} (hys : r.name.symbols = r.base.symbols ++ .char '_' :: ys) :
      base = r.base ∧ zs = ys := by
    have he := (List.append_cons_inj_of_notMem (hbase.notMem rfl rfl) hnotMem).1
      (hname.symm.trans hys)
    exact ⟨congrArg Text.mk he.1, he.2.2⟩
  cases hs : r.subscript with
  | absent => exact hbare (by rw [Reference.name, hs])
  | current => exact hbare (by rw [Reference.name, hs])
  | next => exact hbare (by rw [Reference.name, hs])
  | number k =>
    rw [hs] at hsubscript
    obtain ⟨n, rfl, hn⟩ := hsubscript.of_number
    have hmember : r.name = memberName r.base n := by rw [Reference.name, hs]
    have hys : r.name.symbols =
        r.base.symbols ++ .char '_' :: (toString (n : Int) : Text).symbols := by
      rw [hmember]
      exact List.append_assoc ..
    obtain ⟨rfl, -⟩ := hbelow hys
    rw [hmember, memberDigits?_memberName] at h
    exact Option.some.inj h ▸ hn
  | label t =>
    rw [hs] at hsubscript
    obtain ⟨hlabel, hblank⟩ := hsubscript.of_label
    have hys : r.name.symbols = r.base.symbols ++ .char '_' :: t.symbols := by
      rw [Reference.name, hs]
      exact List.append_assoc ..
    obtain ⟨-, ht⟩ := hbelow hys
    rw [← ht] at hlabel hblank
    rcases hzs with rfl | rfl
    · refine absurd ⟨?_, List.all_eq_true.2 fun x hx => ?_⟩ hlabel
      · rw [ne_eq, List.map_eq_nil_iff]
        exact ne_nil_of_memberDigits? h
      · obtain ⟨c, hc, rfl⟩ := List.mem_map.1 hx
        exact Text.isDigit_of_isDecimal (hdecimal c hc)
    · cases hblank (.char '\n') (List.mem_append_right _ List.mem_cons_self)

/-- **The members that formulas name** all have an index. -/
theorem exists_memberIndices (hbase : IsBase base)
    (hnames : ∀ name ∈ names, ∃ r : Reference, r.IsRead ∧ name = r.name) :
    ∃ indices, memberIndices names base = .ok indices := by
  have hall : ∀ ds ∈ names.filterMap (memberDigits? base), (Text.readNat? ds).isSome := by
    intro ds hds
    obtain ⟨name, hname, hdigits⟩ := List.mem_filterMap.1 hds
    obtain ⟨r, hr, rfl⟩ := hnames name hname
    exact hr.isSome_readNat? hbase hdigits
  rw [memberIndices, mapM_readIndex, if_pos hall]
  exact ⟨_, rfl⟩

end CellLineage.Formula
