import CellLineage.Evaluation.Evaluate
import CellLineage.Proofs.Formula.Members
import CellLineage.Proofs.Graph.Lookup
import Mathlib.Data.List.Basic
import Std.Data.String.ToInt

/-!
# Names of intermediate matrices

Evaluating a product writes matrices that no formula names: an instance of each occurrence, the
transpose of an instance, and the intermediate results. Instances are named after the number of
their occurrence behind the last at sign of the name, so that one name never stands for two of them,
and intermediate results have names without an at sign. All other names are *public*.

Occurrences and intermediate results are counted upwards. A name is *settled* at some counts if
nothing that is evaluated from there on is given this name. Public names are always settled, and
other ones as soon as the counts have passed them.

## Main definitions

* `temporaryName`: the names of the intermediate results.
* `IsPublic`: the names that formulas and settings may use.
* `IsSettled`: the names that are not written any more.

## Main results

* `instanceName_inj`, `instanceName_ne_transposeName`, `temporaryName_inj`: names do not clash.
* `IsPublic.isSettled`, `isSettled_instanceName`, `isSettled_temporaryName`: which names are
  settled.
-/

namespace CellLineage

open CellLineage.Graph Formula

/-- The name of the intermediate result with a number. -/
def temporaryName (k : Nat) : Text :=
  "_TEMP_" ++ toString k

/-- The name holds no at sign and does not begin as the name of an intermediate result. -/
def IsPublic (name : Text) : Prop :=
  .char '@' ∉ name.symbols ∧ ¬Text.symbols "_TEMP_" <+: name.symbols

instance : DecidablePred IsPublic := fun name =>
  inferInstanceAs (Decidable (.char '@' ∉ name.symbols ∧ ¬Text.symbols "_TEMP_" <+: name.symbols))

/-- Evaluating from an occurrence on, after a number of intermediate results, writes no matrix of
the name. -/
structure IsSettled (occurrence : Int) (temporaries : Nat) (name : Text) : Prop where
  ne_instanceName : ∀ other k, occurrence ≤ k → name ≠ instanceName other k
  ne_transposeName : ∀ other k, occurrence ≤ k → name ≠ transposeName (instanceName other k)
  ne_temporaryName : ∀ k, temporaries < k → name ≠ temporaryName k

/-! ### Numbers in names -/

theorem symbols_ofString (s : String) : (s : Text).symbols = s.toList.map .char :=
  rfl

theorem ofString_inj {s t : String} : (s : Text) = t ↔ s = t := by
  refine ⟨fun h => ?_, congrArg _⟩
  have h := congrArg Text.toString? h
  rw [Text.toString?_ofString, Text.toString?_ofString] at h
  exact Option.some.inj h

/-- A number is shown with digits and a minus sign only. -/
theorem isDigit_of_mem_toString {k : Int} {c : Char} (h : c ∈ (toString k).toList) :
    c.isDigit = true ∨ c = '-' := by
  have hnat {n : Nat} (h : c ∈ n.repr.toList) : c.isDigit = true := by
    rw [Nat.repr, String.toList_ofList] at h
    exact Nat.isDigit_of_mem_toDigits (by decide) (by decide) h
  rw [Int.toString_eq_repr, Int.repr_eq_if] at h
  split at h
  · exact .inl (hnat h)
  · rw [String.toList_append, List.mem_append] at h
    rcases h with h | h
    · exact .inr (by simpa using h)
    · exact .inl (hnat h)

theorem notMem_toString {k : Int} {c : Char} (hd : c.isDigit = false) (hc : c ≠ '-') :
    Symbol.char c ∉ (toString k : Text).symbols := by
  rw [symbols_ofString, List.mem_map]
  rintro ⟨d, hmem, hdc⟩
  cases hdc
  rcases isDigit_of_mem_toString hmem with h | h
  · rw [hd] at h
    cases h
  · exact hc h

/-! ### Names with an at sign -/

/-- What stands before and behind the last at sign of a text is determined. -/
theorem append_at_inj {s t u v : Text} (hu : .char '@' ∉ u.symbols) (hv : .char '@' ∉ v.symbols) :
    s ++ "@" ++ u = t ++ "@" ++ v ↔ s = t ∧ u = v := by
  refine ⟨fun h => ?_, by rintro ⟨rfl, rfl⟩; rfl⟩
  have h : s.symbols ++ (.char '@' :: u.symbols) = t.symbols ++ (.char '@' :: v.symbols) := by
    simpa [symbols_ofString] using congrArg Text.symbols h
  obtain ⟨s⟩ := s
  obtain ⟨t⟩ := t
  obtain ⟨u⟩ := u
  obtain ⟨v⟩ := v
  dsimp only at h hu hv
  rcases List.append_eq_append_iff.1 h with ⟨w, rfl, hw⟩ | ⟨w, rfl, hw⟩
  · cases w with
    | nil => simp_all
    | cons x w =>
      obtain ⟨-, rfl⟩ := List.cons_eq_cons.1 hw
      exact absurd (by simp) hu
  · cases w with
    | nil => simp_all
    | cons x w =>
      obtain ⟨-, rfl⟩ := List.cons_eq_cons.1 hw
      exact absurd (by simp) hv

/-- Instances of different occurrences have different names. -/
theorem instanceName_inj {n n' : Text} {k k' : Int} :
    instanceName n k = instanceName n' k' ↔ n = n' ∧ k = k' := by
  have hat (k : Int) : .char '@' ∉ (toString k : Text).symbols := notMem_toString rfl (by decide)
  rw [instanceName, instanceName, append_at_inj (hat k) (hat k'), ofString_inj,
    Int.toString_eq_repr, Int.toString_eq_repr, Int.repr_inj]

theorem transposeName_inj {n n' : Text} : transposeName n = transposeName n' ↔ n = n' := by
  refine ⟨fun h => ?_, congrArg _⟩
  cases n
  cases n'
  have h := congrArg Text.symbols h
  simp only [transposeName, Text.symbols_append, List.append_left_inj] at h
  rw [h]

/-- No instance is named as the transpose of an instance. -/
theorem instanceName_ne_transposeName {n n' : Text} {k k' : Int} :
    instanceName n k ≠ transposeName (instanceName n' k') := by
  have hassoc : transposeName (instanceName n' k') = n' ++ "@" ++ ((toString k' : Text) ++ "_T") :=
    congrArg Text.mk (List.append_assoc ..)
  have hat (k : Int) : .char '@' ∉ (toString k : Text).symbols := notMem_toString rfl (by decide)
  have hat' : .char '@' ∉ ((toString k' : Text) ++ ("_T" : Text)).symbols := by
    rw [Text.symbols_append, List.mem_append, not_or]
    exact ⟨hat k', by decide⟩
  rw [hassoc, instanceName, ne_eq, append_at_inj (hat k) hat', not_and]
  intro _ h
  have hmem : Symbol.char '_' ∈ (toString k : Text).symbols := by
    rw [h, Text.symbols_append]
    exact List.mem_append_right _ (by decide)
  exact notMem_toString rfl (by decide) hmem

theorem at_mem_instanceName (n : Text) (k : Int) : .char '@' ∈ (instanceName n k).symbols := by
  simp [instanceName, symbols_ofString]

theorem at_mem_transposeName {n : Text} (h : .char '@' ∈ n.symbols) :
    .char '@' ∈ (transposeName n).symbols :=
  List.mem_append_left _ h

/-! ### Names of intermediate results -/

theorem at_notMem_temporaryName (k : Nat) : .char '@' ∉ (temporaryName k).symbols := by
  rw [temporaryName, Text.symbols_append, List.mem_append, not_or]
  exact ⟨by decide, notMem_toString (k := k) rfl (by decide)⟩

theorem temporaryName_inj {k k' : Nat} : temporaryName k = temporaryName k' ↔ k = k' := by
  refine ⟨fun h => ?_, congrArg _⟩
  have h := congrArg Text.symbols h
  simp only [temporaryName, Text.symbols_append, List.append_cancel_left_eq] at h
  have h : (toString k : Text) = toString k' := congrArg Text.mk h
  exact toString_nat_inj.1 (ofString_inj.1 h)

/-! ### Names of members -/

theorem memberName_inj {base : Text} {k k' : Int} :
    memberName base k = memberName base k' ↔ k = k' := by
  refine ⟨fun h => ?_, congrArg _⟩
  have h := congrArg Text.symbols h
  simp only [memberName, Text.symbols_append, List.append_cancel_left_eq] at h
  have h : (toString k : Text) = toString k' := congrArg Text.mk h
  rw [ofString_inj, Int.toString_eq_repr, Int.toString_eq_repr, Int.repr_inj] at h
  exact h

theorem eq_memberName_of_memberName? {base name : Text} {k : Int}
    (h : memberName? base k = .ok name) : name = memberName base k := by
  rw [memberName?] at h
  split at h
  · cases h
    rfl
  · cases h

/-! ### Names of formulas -/

/-- A name that begins as the grammar wants it is public unless it holds an at sign. -/
theorem isPublic_of_isBase {base name : Text} (hbase : IsBase base)
    (hname : base.symbols <+: name.symbols) (h : .char '@' ∉ name.symbols) : IsPublic name := by
  refine ⟨h, fun ht => ?_⟩
  obtain ⟨c, cs, hc, hupper, -⟩ := hbase
  obtain ⟨xs, hxs⟩ := hname
  obtain ⟨ys, hys⟩ := ht
  have h : Symbol.char c :: (cs ++ xs) = .char '_' :: ([.char 'T', .char 'E', .char 'M', .char 'P',
      .char '_'] ++ ys) := by
    rw [← List.cons_append, ← hc, hxs, ← hys]
    rfl
  obtain rfl : c = '_' := by simpa using (List.cons_eq_cons.1 h).1
  cases hupper

theorem isPublic_name {r : Reference} (hr : IsBase r.base) (h : .char '@' ∉ r.name.symbols) :
    IsPublic r.name :=
  isPublic_of_isBase hr r.base_isPrefix_name h

theorem at_notMem_of_isBase {base : Text} (h : IsBase base) : .char '@' ∉ base.symbols :=
  h.notMem rfl rfl

/-- The names of the members of a family are public. -/
theorem isPublic_memberName {base : Text} (h : IsBase base) (index : Int) :
    IsPublic (memberName base index) := by
  refine isPublic_of_isBase h ?_ ?_
  · rw [memberName, Text.symbols_append, Text.symbols_append, List.append_assoc]
    exact List.prefix_append ..
  · rw [memberName, Text.symbols_append, Text.symbols_append, List.mem_append, List.mem_append,
      not_or, not_or]
    exact ⟨⟨at_notMem_of_isBase h, by decide⟩, notMem_toString rfl (by decide)⟩

theorem isPublic_of_memberName? {base name : Text} {index : Int} (h : IsBase base)
    (hname : memberName? base index = .ok name) : IsPublic name := by
  rw [eq_memberName_of_memberName? hname]
  exact isPublic_memberName h index

/-- Whatever counts as a member of a family has a public name. -/
theorem isPublic_of_memberDigits? {base name : Text} (h : IsBase base)
    (hname : (memberDigits? base name).isSome) : IsPublic name := by
  obtain ⟨ds, hds⟩ := Option.isSome_iff_exists.1 hname
  obtain ⟨hdecimal, hsymbols⟩ := symbols_of_memberDigits? hds
  have hat : .char '@' ∉ (base ++ "_").symbols := by
    rw [Text.symbols_append, List.mem_append, not_or]
    exact ⟨at_notMem_of_isBase h, by decide⟩
  have hdigits : .char '@' ∉ ds.map Symbol.char := by
    intro hmem
    obtain ⟨c, hc, he⟩ := List.mem_map.1 hmem
    cases he
    exact absurd (hdecimal _ hc) (by decide)
  have hprefix : base.symbols <+: (base ++ "_").symbols := by
    rw [Text.symbols_append]
    exact List.prefix_append ..
  rcases hsymbols with hsymbols | hsymbols
  · refine isPublic_of_isBase h (hsymbols ▸ hprefix.trans (List.prefix_append ..)) ?_
    rw [hsymbols, List.mem_append, not_or]
    exact ⟨hat, hdigits⟩
  · refine isPublic_of_isBase h (hsymbols ▸ hprefix.trans (List.prefix_append ..)) ?_
    rw [hsymbols, List.mem_append, List.mem_append, not_or, not_or]
    exact ⟨hat, hdigits, by decide⟩

/-! ### Names that are not written any more -/

theorem IsSettled.mono {o o' : Int} {m m' : Nat} {name : Text} (h : IsSettled o m name)
    (ho : o ≤ o') (hm : m ≤ m') : IsSettled o' m' name where
  ne_instanceName other k hk := h.ne_instanceName other k (Int.le_trans ho hk)
  ne_transposeName other k hk := h.ne_transposeName other k (Int.le_trans ho hk)
  ne_temporaryName k hk := h.ne_temporaryName k (Nat.lt_of_le_of_lt hm hk)

/-- A public name is none that evaluating writes. -/
theorem IsPublic.isSettled {name : Text} (h : IsPublic name) (o : Int) (m : Nat) :
    IsSettled o m name where
  ne_instanceName other k _ he := h.1 (he ▸ at_mem_instanceName other k)
  ne_transposeName other k _ he := h.1 (he ▸ at_mem_transposeName (at_mem_instanceName other k))
  ne_temporaryName _ _ he := h.2 (he ▸ List.prefix_append ..)

theorem isSettled_instanceName {n : Text} {k o : Int} (hk : k < o) (m : Nat) :
    IsSettled o m (instanceName n k) where
  ne_instanceName other k' hk' he := by
    obtain ⟨-, rfl⟩ := instanceName_inj.1 he
    omega
  ne_transposeName other k' _ := instanceName_ne_transposeName
  ne_temporaryName k' _ he := at_notMem_temporaryName k' (he ▸ at_mem_instanceName n k)

theorem isSettled_transposeName {n : Text} {k o : Int} (hk : k < o) (m : Nat) :
    IsSettled o m (transposeName (instanceName n k)) where
  ne_instanceName other k' _ := instanceName_ne_transposeName.symm
  ne_transposeName other k' hk' he := by
    obtain ⟨-, rfl⟩ := instanceName_inj.1 (transposeName_inj.1 he)
    omega
  ne_temporaryName k' _ he :=
    at_notMem_temporaryName k' (he ▸ at_mem_transposeName (at_mem_instanceName n k))

theorem isSettled_temporaryName {k m : Nat} (hk : k ≤ m) (o : Int) :
    IsSettled o m (temporaryName k) where
  ne_instanceName other k' _ he := at_notMem_temporaryName k (he ▸ at_mem_instanceName other k')
  ne_transposeName other k' _ he :=
    at_notMem_temporaryName k (he ▸ at_mem_transposeName (at_mem_instanceName other k'))
  ne_temporaryName k' hk' he := by
    obtain rfl := temporaryName_inj.1 he
    omega

/-! ### Names of instances and of input matrices -/

/-- The name is none of an intermediate result or of a transpose of an instance. -/
def IsOriginal (name : Text) : Prop :=
  (∀ k, name ≠ temporaryName k) ∧ ∀ other k, name ≠ transposeName (instanceName other k)

theorem IsPublic.isOriginal {name : Text} (h : IsPublic name) : IsOriginal name :=
  ⟨fun _ he => h.2 (he ▸ List.prefix_append ..),
    fun other k he => h.1 (he ▸ at_mem_transposeName (at_mem_instanceName other k))⟩

theorem isOriginal_instanceName (other : Text) (k : Int) : IsOriginal (instanceName other k) :=
  ⟨fun _ he => at_notMem_temporaryName _ (he ▸ at_mem_instanceName other k),
    fun _ _ => instanceName_ne_transposeName⟩

end CellLineage
