import CellLineage.Proofs.Formula.Inputs
import Mathlib.Data.List.TakeWhile

/-!
# Blanks in formulas

A formula may be spread out with blanks anywhere, even inside of names. Reading meets them in several
places: a formula of blanks alone is none at all, the parts between commas and the two sides of an
equals sign are trimmed, parts without anything else are skipped, and a product or a reference is
read from its text without any blanks. None of these places makes a difference: two texts that are
the same without blanks have the same pieces without blanks, and what is read of a piece depends on
nothing else. So two such formulas are read the same, up to the raw texts that a plan keeps.

## Main definitions

* `Plan.content`: what a plan says, without its raw texts.
* `IterativePlan.sides?`: the two sides of an assignment.

## Main results

* `Text.pieces_filter`: splitting a text that some symbols were left out of.
* `Plan.map_content_read_congr`: formulas that are the same without blanks are read the same.
* `Plan.read_ignores_blanks`: whether they are read, and what the plans say and use.
-/

namespace CellLineage

/-! ### Texts without blanks -/

namespace Text

variable {xs ys : List Symbol}

/-- The pieces of a list that some members were left out of, if the separators were not. -/
theorem pieces_filter {α : Type} [DecidableEq α] {separator : α} {keep : α → Bool}
    (h : keep separator = true) (cs : List α) :
    pieces separator (cs.filter keep) = (pieces separator cs).map (List.filter keep) := by
  induction cs with
  | nil => rfl
  | cons c cs ih =>
    by_cases hc : c = separator
    · subst hc
      rw [List.filter_cons_of_pos h, pieces, pieces, if_pos rfl, if_pos rfl, ih, List.map_cons,
        List.filter_nil]
    · obtain ⟨p, ps, hp⟩ := List.exists_cons_of_ne_nil (pieces_ne_nil separator cs)
      rw [hp, List.map_cons] at ih
      by_cases hk : keep c = true
      · simp only [List.filter_cons_of_pos hk, pieces, if_neg hc, ih, hp, List.map_cons]
      · simp only [List.filter_cons_of_neg hk, pieces, if_neg hc, ih, hp, List.map_cons]

/-- The pieces of a text without blanks are those of the text without blanks. -/
theorem pieces_withoutBlanks {separator : Symbol} (h : separator.holds isBlank = false)
    (xs : List Symbol) :
    pieces separator (withoutBlanks xs) = (pieces separator xs).map withoutBlanks :=
  pieces_filter (by rw [h]; rfl) xs

theorem pieces_congr {separator : Symbol} (h : separator.holds isBlank = false)
    (hxs : withoutBlanks xs = withoutBlanks ys) :
    (pieces separator xs).map withoutBlanks = (pieces separator ys).map withoutBlanks := by
  rw [← pieces_withoutBlanks h, hxs, pieces_withoutBlanks h]

theorem mem_withoutBlanks {x : Symbol} (h : x.holds isBlank = false) :
    x ∈ withoutBlanks xs ↔ x ∈ xs := by
  simp [withoutBlanks, h]

theorem withoutBlanks_eq_nil_iff : withoutBlanks xs = [] ↔ xs.all (·.holds isBlank) = true := by
  simp [withoutBlanks, List.filter_eq_nil_iff]

theorem withoutBlanks_dropWhile (xs : List Symbol) :
    withoutBlanks (xs.dropWhile (·.holds isBlank)) = withoutBlanks xs := by
  induction xs with
  | nil => rfl
  | cons x xs ih =>
    by_cases hx : x.holds isBlank = true
    · rw [List.dropWhile_cons_of_pos hx, ih, withoutBlanks, withoutBlanks,
        List.filter_cons_of_neg (by simp [hx])]
    · rw [List.dropWhile_cons_of_neg hx]

/-- Trimming takes away blanks only. -/
@[simp] theorem withoutBlanks_trim (xs : List Symbol) :
    withoutBlanks (trim xs) = withoutBlanks xs := by
  rw [trim, dropEnd, withoutBlanks, List.filter_reverse, ← withoutBlanks, withoutBlanks_dropWhile,
    withoutBlanks, List.filter_reverse, List.reverse_reverse, ← withoutBlanks,
    withoutBlanks_dropWhile]

/-- Trimming takes all away from a text of blanks, and from no other one. -/
theorem trim_eq_nil_iff : trim xs = [] ↔ withoutBlanks xs = [] := by
  refine ⟨fun h => ?_, fun h => ?_⟩
  · rw [← withoutBlanks_trim, h, withoutBlanks_nil]
  · rw [withoutBlanks_eq_nil_iff, List.all_eq_true] at h
    rw [trim, List.dropWhile_eq_nil_iff.2 h]
    rfl

end Text

namespace Formula

/-! ### What a plan says -/

/-- What a statement says: its target, its factors and their product. -/
structure Assignment where
  target : Reference
  factors : List Reference
  product? : Option Product

/-- What an iterative plan says. -/
structure IterativeContent where
  baseCases : List Assignment
  recurrence? : Option Assignment
  constants : List Reference
  /-- The numbered names that were met. -/
  explicit : List Text
  /-- How many warnings there are. -/
  warnings : Nat
  /-- Something is wrong with the formula. -/
  isFaulty : Bool

/-- What a plan says, without its raw texts. The references know their places in the expression; the
names that a simple plan reads are theirs. -/
inductive Content where
  | simple (factors : List Reference) (product? : Option Product) (isFaulty : Bool)
  | iterative (content : IterativeContent)

/-- What a statement says. -/
def Statement.content (s : Statement) : Assignment :=
  ⟨s.target, s.factors, s.product?⟩

/-- What an iterative plan says. -/
def IterativePlan.content (p : IterativePlan) : IterativeContent :=
  ⟨p.baseCases.map Statement.content, p.recurrence?.map Statement.content,
    p.constants.map Constant.reference, p.explicit, p.warnings.length, p.fault?.isSome⟩

/-- What a plan says. -/
def Plan.content : Plan → Content
  | .simple p => .simple p.factors p.product? p.fault?.isSome
  | .iterative p => .iterative p.content

/-- Computations whose results look the same go on the same if nothing else is looked at. -/
theorem map_bind_congr {ε α β γ δ : Type} {x y : Except ε α} {f k : α → Except ε β} {c : α → γ}
    {d : β → δ} (h : x.map c = y.map c)
    (hk : ∀ a b, c a = c b → (f a).map d = (k b).map d) : (x >>= f).map d = (y >>= k).map d := by
  cases x with
  | error e =>
    cases y with
    | error e' => exact congrArg Except.error (Except.error.inj h)
    | ok b => cases h
  | ok a =>
    cases y with
    | error e => cases h
    | ok b => exact hk a b (Except.ok.inj h)

variable {xs ys : List Symbol}

/-! ### Products and references -/

theorem readFactors_congr (h : Text.withoutBlanks xs = Text.withoutBlanks ys) :
    readFactors xs = readFactors ys := by
  rw [readFactors, readFactors, h]

theorem readReference_congr (h : Text.withoutBlanks xs = Text.withoutBlanks ys) :
    readReference xs = readReference ys := by
  rw [readReference, readReference, h]

/-! ### Parts -/

namespace IterativePlan

variable {p q : IterativePlan}

theorem content_eq_iff : p.content = q.content ↔
    p.baseCases.map Statement.content = q.baseCases.map Statement.content ∧
    p.recurrence?.map Statement.content = q.recurrence?.map Statement.content ∧
    p.constants.map Constant.reference = q.constants.map Constant.reference ∧
    p.explicit = q.explicit ∧ p.replaced.length = q.replaced.length ∧
    p.fault?.isSome = q.fault?.isSome := by
  simp only [content, warnings, List.length_map, IterativeContent.mk.injEq]

theorem content_refuse_congr (h : p.content = q.content) (m m' : Malformed) :
    (p.refuse m).content = (q.refuse m').content :=
  congrArg (fun c => { c with isFaulty := true }) h

/-- Whether a statement takes the place of another one does not depend on its text. -/
theorem content_assign_congr (h : p.content = q.content) (target : Reference)
    (left left' : Text) (factors : List Reference) (text text' : Text) :
    (p.assign target left factors text).content =
      (q.assign target left' factors text').content := by
  obtain ⟨hbase, hrec, hconstants, hexplicit, hreplaced, hfault⟩ := content_eq_iff.1 h
  have hnames : p.explicit ++ numberedNames factors = q.explicit ++ numberedNames factors := by
    rw [hexplicit]
  unfold assign
  cases target.subscript
  case current | next =>
    refine content_eq_iff.2 ⟨hbase, rfl, hconstants, hnames, ?_, hfault⟩
    cases hp : p.recurrence? <;> cases hq : q.recurrence? <;> rw [hp, hq] at hrec
    case none.none => exact hreplaced
    case some.some => simp only [List.length_append, List.length_singleton, hreplaced]
    case none.some | some.none => cases hrec
  case number =>
    refine content_eq_iff.2 ⟨?_, hrec, hconstants, congrArg (· ++ [target.name]) hnames, hreplaced,
      hfault⟩
    rw [List.map_append, List.map_append, hbase]
    rfl
  case absent | label =>
    exact content_eq_iff.2 ⟨hbase, hrec, hconstants, hnames, hreplaced, rfl⟩

/-- The two sides of an assignment, if there are exactly two and neither is blank. -/
def sides? (part : List Symbol) : Option (List Symbol × List Symbol) :=
  match (Text.pieces (.char '=') part).map Text.trim with
  | [left, right] => if left = [] ∨ right = [] then none else some (left, right)
  | _ => none

theorem addAssignment_eq (plan : IterativePlan) (part : List Symbol) :
    plan.addAssignment part = (match sides? part with
      | none => .ok (plan.refuse (.assignment ⟨part⟩))
      | some (left, right) => do
        match ← readReference left with
        | none => return plan.refuse (.target ⟨left⟩)
        | some target =>
          if target.transposed then return plan.refuse (.target ⟨left⟩)
          else
            absorb (do return plan.assign target ⟨left⟩ (← readFactors right) ⟨part⟩)
              plan.refuse) := by
  unfold addAssignment sides?
  generalize (Text.pieces (.char '=') part).map Text.trim = ps
  rcases ps with _ | ⟨left, _ | ⟨right, _ | ⟨third, rest⟩⟩⟩
  · rfl
  · rfl
  · dsimp only
    split <;> rfl
  · rfl

/-- Assignments that are the same without blanks have the same sides without blanks. -/
theorem sides?_congr (h : Text.withoutBlanks xs = Text.withoutBlanks ys) :
    (sides? xs).map (Prod.map Text.withoutBlanks Text.withoutBlanks) =
      (sides? ys).map (Prod.map Text.withoutBlanks Text.withoutBlanks) := by
  have hview (part : List Symbol) :
      (sides? part).map (Prod.map Text.withoutBlanks Text.withoutBlanks) =
      match (Text.pieces (.char '=') part).map Text.withoutBlanks with
      | [left, right] => if left = [] ∨ right = [] then none else some (left, right)
      | _ => none := by
    unfold sides?
    generalize Text.pieces (.char '=') part = ps
    rcases ps with _ | ⟨left, _ | ⟨right, _ | ⟨third, rest⟩⟩⟩
    · rfl
    · rfl
    · simp only [List.map_cons, List.map_nil, Text.trim_eq_nil_iff]
      split
      · rfl
      · simp only [Option.map_some, Prod.map, Text.withoutBlanks_trim]
    · rfl
  rw [hview, hview, Text.pieces_congr (by decide) h]

theorem content_addAssignment_congr (h : p.content = q.content)
    (hxs : Text.withoutBlanks xs = Text.withoutBlanks ys) :
    (p.addAssignment xs).map content = (q.addAssignment ys).map content := by
  have hsides := sides?_congr hxs
  rw [addAssignment_eq, addAssignment_eq]
  rcases hs : sides? xs with _ | ⟨left, right⟩ <;>
    rcases hs' : sides? ys with _ | ⟨left', right'⟩ <;>
    rw [hs, hs'] at hsides
  case none.none => exact congrArg Except.ok (content_refuse_congr h _ _)
  case none.some => cases hsides
  case some.none => cases hsides
  case some.some =>
    obtain ⟨hleft, hright⟩ := Prod.mk.inj (Option.some.inj hsides)
    dsimp only
    rw [readReference_congr hleft, readFactors_congr hright]
    rcases readReference left' with i | _ | target
    · rfl
    · exact congrArg Except.ok (content_refuse_congr h _ _)
    · simp only [bind, Except.bind]
      split
      · exact congrArg Except.ok (content_refuse_congr h _ _)
      · rcases readFactors right' with (m | i) | factors
        · exact congrArg Except.ok (content_refuse_congr h _ _)
        · rfl
        · exact congrArg Except.ok (content_assign_congr h target _ _ factors _ _)

theorem content_addConstant_congr (h : p.content = q.content)
    (hxs : Text.withoutBlanks xs = Text.withoutBlanks ys) :
    (p.addConstant xs).map content = (q.addConstant ys).map content := by
  rw [addConstant, addConstant, readReference_congr hxs]
  rcases readReference ys with i | _ | r
  · rfl
  · exact congrArg Except.ok (content_refuse_congr h _ _)
  · simp only [bind, Except.bind]
    split
    · obtain ⟨hbase, hrec, hconstants, hexplicit, hreplaced, hfault⟩ := content_eq_iff.1 h
      refine congrArg Except.ok (content_eq_iff.2 ⟨hbase, hrec, ?_,
        congrArg (· ++ [r.name]) hexplicit, hreplaced, hfault⟩)
      rw [List.map_append, List.map_append, hconstants]
      rfl
    · exact congrArg Except.ok (content_refuse_congr h _ _)

theorem content_addPart_congr (h : p.content = q.content)
    (hxs : Text.withoutBlanks xs = Text.withoutBlanks ys) :
    (p.addPart xs).map content = (q.addPart ys).map content := by
  have hmem : .char '=' ∈ xs ↔ .char '=' ∈ ys := by
    rw [← Text.mem_withoutBlanks (by decide), hxs, Text.mem_withoutBlanks (by decide)]
  unfold addPart
  simp only [hmem]
  split
  · exact content_addAssignment_congr h hxs
  · exact content_addConstant_congr h hxs

/-- **Parts that are the same without blanks** are read the same, one after another, up to the first
one that does not fit. -/
theorem content_addParts_congr {parts parts' : List (List Symbol)} (h : p.content = q.content)
    (hparts : parts.map Text.withoutBlanks = parts'.map Text.withoutBlanks) :
    (p.addParts parts).map content = (q.addParts parts').map content := by
  induction parts generalizing parts' p q with
  | nil =>
    obtain rfl := List.map_eq_nil_iff.1 hparts.symm
    exact congrArg Except.ok h
  | cons part parts ih =>
    obtain ⟨part', parts', rfl, hpart, hparts⟩ := List.map_eq_cons_iff.1 hparts.symm
    refine map_bind_congr (content_addPart_congr h hpart.symm) fun a b hab => ?_
    have hfault : a.fault?.isSome = b.fault?.isSome := congrArg IterativeContent.isFaulty hab
    simp only [hfault]
    split
    · exact congrArg Except.ok hab
    · exact ih hab hparts.symm

/-- Formulas that are the same without blanks have the same parts without blanks. -/
theorem partsOf_congr {formula other : Text}
    (h : Text.withoutBlanks formula.symbols = Text.withoutBlanks other.symbols) :
    (partsOf formula).map Text.withoutBlanks = (partsOf other).map Text.withoutBlanks := by
  have hview (formula : Text) : (partsOf formula).map Text.withoutBlanks =
      ((Text.pieces (.char ',') formula.symbols).map Text.withoutBlanks).filter (· != []) := by
    have htest : ((· != []) ∘ Text.trim) = ((· != []) ∘ Text.withoutBlanks) := by
      funext xs
      rw [Bool.eq_iff_iff]
      simp only [Function.comp_apply, bne_iff_ne, ne_eq, Text.trim_eq_nil_iff]
    rw [partsOf, List.filter_map, List.filter_map, List.map_map, htest]
    exact List.map_congr_left fun xs _ => Text.withoutBlanks_trim xs
  rw [hview, hview, Text.pieces_congr (by decide) h]

theorem content_read_congr {formula other : Text}
    (h : Text.withoutBlanks formula.symbols = Text.withoutBlanks other.symbols) :
    (read formula).map content = (read other).map content := by
  have hparts := partsOf_congr h
  unfold read
  cases hf : partsOf formula with
  | nil =>
    rw [hf] at hparts
    rw [List.map_eq_nil_iff.1 hparts.symm]
    rfl
  | cons part parts =>
    rw [hf] at hparts
    obtain ⟨part', parts', ho, -⟩ := List.map_eq_cons_iff.1 hparts.symm
    rw [ho] at hparts ⊢
    exact content_addParts_congr rfl hparts

end IterativePlan

/-! ### Formulas -/

namespace Plan

/-- **Formulas that are the same without blanks** are both refused, or both are read, as plans that
say the same. -/
theorem map_content_read_congr {formula other : Text}
    (h : Text.withoutBlanks formula.symbols = Text.withoutBlanks other.symbols) :
    (read formula).map content = (read other).map content := by
  have hblank : formula.symbols.all (·.holds Text.isBlank) =
      other.symbols.all (·.holds Text.isBlank) := by
    rw [Bool.eq_iff_iff, ← Text.withoutBlanks_eq_nil_iff, h, Text.withoutBlanks_eq_nil_iff]
  have hmem {x : Symbol} (hx : x.holds Text.isBlank = false) :
      x ∈ formula.symbols ↔ x ∈ other.symbols := by
    rw [← Text.mem_withoutBlanks hx, h, Text.mem_withoutBlanks hx]
  have hview (x : Except IndexFault IterativePlan) :
      (x.map Plan.iterative).map content = (x.map IterativePlan.content).map .iterative := by
    cases x <;> rfl
  simp only [read, hblank, hmem (x := .char '=') (by decide), hmem (x := .char ',') (by decide)]
  split
  · rfl
  · split
    · rw [hview, hview, IterativePlan.content_read_congr h]
    · rw [SimplePlan.read, SimplePlan.read, readFactors_congr h]
      rcases readFactors other.symbols with (m | i) | factors <;> rfl

end Plan

/-! ### What plans use -/

/-- Iterative plans that say the same say the same in their statements. -/
theorem IterativePlan.content_statements_congr {p q : IterativePlan} (h : p.content = q.content) :
    p.statements.map Statement.content = q.statements.map Statement.content := by
  have hbase := congrArg IterativeContent.baseCases h
  have hrec := congrArg IterativeContent.recurrence? h
  simp only [content] at hbase hrec
  rw [statements, statements, List.map_append, List.map_append, ← Option.toList_map,
    ← Option.toList_map, hbase, hrec]

namespace Plan

variable {p q : Plan}

/-- Plans that say the same are both simple or both iterative. -/
theorem content_cases (h : p.content = q.content) :
    (∃ s t : SimplePlan, p = .simple s ∧ q = .simple t ∧ s.factors = t.factors ∧
      s.fault?.isSome = t.fault?.isSome) ∨
    ∃ s t : IterativePlan, p = .iterative s ∧ q = .iterative t ∧ s.content = t.content := by
  cases p <;> cases q <;> simp only [content, Content.simple.injEq, Content.iterative.injEq,
    reduceCtorEq] at h
  case simple.simple s t => exact .inl ⟨s, t, rfl, rfl, h.1, h.2.2⟩
  case iterative.iterative s t => exact .inr ⟨s, t, rfl, rfl, h⟩

theorem isSome_fault?_congr (h : p.content = q.content) : p.fault?.isSome = q.fault?.isSome := by
  obtain ⟨s, t, rfl, rfl, -, hfault⟩ | ⟨s, t, rfl, rfl, hst⟩ := content_cases h
  · exact hfault
  · exact congrArg IterativeContent.isFaulty hst

/-- Plans that say the same have the same references. -/
theorem references_congr (h : p.content = q.content) : p.references = q.references := by
  obtain ⟨s, t, rfl, rfl, hfactors, -⟩ | ⟨s, t, rfl, rfl, hst⟩ := content_cases h
  · exact hfactors
  · have hview (ss : List Statement) :
        ss.flatMap Statement.factors = (ss.map Statement.content).flatMap Assignment.factors := by
      rw [List.flatMap_map]
      rfl
    rw [references, references, hview, IterativePlan.content_statements_congr hst, ← hview]

/-- Plans that say the same read the same input matrices. -/
theorem baseMatrices_congr (h : p.content = q.content) : p.baseMatrices = q.baseMatrices := by
  have hreferences := references_congr h
  unfold baseMatrices
  rw [isSome_fault?_congr h]
  obtain ⟨s, t, rfl, rfl, hfactors, -⟩ | ⟨s, t, rfl, rfl, hst⟩ := content_cases h
  · simp only [hfactors]
  · have hexplicit : s.explicit = t.explicit := congrArg IterativeContent.explicit hst
    have htargets : s.targetNames = t.targetNames := by
      have hbase : s.baseCases.map Statement.content = t.baseCases.map Statement.content :=
        congrArg IterativeContent.baseCases hst
      have hnames := congrArg (List.map fun a => a.target.name) hbase
      rwa [List.map_map, List.map_map] at hnames
    simp only [hreferences, hexplicit, htargets]

theorem usedNames_congr (h : p.content = q.content) : p.usedNames = q.usedNames := by
  obtain ⟨s, t, rfl, rfl, hfactors, -⟩ | ⟨s, t, rfl, rfl, hst⟩ := content_cases h
  · rw [usedNames, usedNames, hfactors]
  · have hconstants : s.constants.map (fun c => c.reference.name) =
        t.constants.map fun c => c.reference.name := by
      have hnames := congrArg (List.map Reference.name) (congrArg IterativeContent.constants hst)
      rwa [IterativePlan.content, IterativePlan.content, List.map_map, List.map_map] at hnames
    have hview (ss : List Statement) :
        ss.flatMap Statement.factors ++ ss.map Statement.target =
          (ss.map Statement.content).flatMap Assignment.factors ++
            (ss.map Statement.content).map Assignment.target := by
      rw [List.flatMap_map, List.map_map]
      rfl
    rw [usedNames, usedNames, hview, hview, IterativePlan.content_statements_congr hst, hconstants]

/-- Plans that say the same read and assign the same matrices. -/
theorem uses_congr (h : p.content = q.content) (name : Text) : p.uses name = q.uses name := by
  rw [uses, uses, ← Option.not_isSome, ← Option.not_isSome, isSome_fault?_congr h,
    usedNames_congr h]

/-- **Blanks do not matter to a formula.** Of two formulas that are the same without blanks, both are
refused with the same fault, or both are read. The plans then say the same: they are both simple or
both iterative, something is wrong with both or with none, and their factors and products, or their
base cases, recurrence, constants, numbered names and the number of warnings, are the same. So they
have the same references, read the same input matrices, and use the same matrices. -/
theorem read_ignores_blanks {formula other : Text}
    (h : Text.withoutBlanks formula.symbols = Text.withoutBlanks other.symbols) :
    (∀ fault, read formula = .error fault ↔ read other = .error fault) ∧
    ∀ p q, read formula = .ok p → read other = .ok q →
      p.content = q.content ∧ p.references = q.references ∧ p.baseMatrices = q.baseMatrices ∧
        ∀ name, p.uses name = q.uses name := by
  have hread := map_content_read_congr h
  refine ⟨fun fault => ?_, fun p q hp hq => ?_⟩
  · have hview (x : Except IndexFault Plan) : x = .error fault ↔ x.map content = .error fault := by
      cases x <;> simp only [Except.map, reduceCtorEq]
    rw [hview, hread, ← hview]
  · rw [hp, hq] at hread
    have hcontent : p.content = q.content := Except.ok.inj hread
    exact ⟨hcontent, references_congr hcontent, baseMatrices_congr hcontent, uses_congr hcontent⟩

/-- A formula with blanks at both ends, around its signs, inside of a subscript and in a part of its
own. -/
def spreadFormula : Text :=
  " K_0 = A , ,K_\x7bn + 1\x7d =\tB ^ T*K_n "

/-- The formula without its blanks is read as the same plan with other texts. -/
theorem read_ignores_blanks_sample : ∃ p q, read spreadFormula = .ok (.iterative p) ∧
    read "K_0=A,,K_\x7bn+1\x7d=B^T*K_n" = .ok (.iterative q) ∧ p.text ≠ q.text ∧
    p.content = q.content ∧ (Plan.iterative p).baseMatrices = (["A", "B"] : List Text) ∧
    (Plan.iterative p).uses "K_0" = true := by
  have hp : read spreadFormula = .ok (.iterative (iterativeOf spreadFormula)) := by decide +kernel
  have hq : read "K_0=A,,K_\x7bn+1\x7d=B^T*K_n" =
      .ok (.iterative (iterativeOf "K_0=A,,K_\x7bn+1\x7d=B^T*K_n")) := by decide +kernel
  have hblanks : Text.withoutBlanks spreadFormula.symbols =
      Text.withoutBlanks (Text.symbols "K_0=A,,K_\x7bn+1\x7d=B^T*K_n") := by decide +kernel
  obtain ⟨hcontent, -, hbase, huses⟩ := (read_ignores_blanks hblanks).2 _ _ hp hq
  refine ⟨_, _, hp, hq, by decide +kernel, Content.iterative.inj hcontent, ?_, ?_⟩
  · exact hbase.trans (by decide +kernel)
  · exact (huses "K_0").trans (by decide +kernel)

end Plan

end Formula

end CellLineage
