import CellLineage.Proofs.Formula.Written
import Mathlib.Data.List.Sort

/-!
# The input matrices of a plan

What an iterative plan takes as input is collected while its formula is read, part by part. At that
time it is not known yet which recurrence will count. So the numbered names of a recurrence that is
replaced later are collected too, though nothing reads them, and they stay.

## Main definitions

* `recurrenceOf?`: the recurrence that a part of a formula is.
* `IterativePlan.replacedRecurrences`: the recurrences that did not count.
* `IterativePlan.namesRead`: the names that the plan reads.

## Main results

* `IterativePlan.isAccounted_of_read`: where each of the collected names comes from.
* `Plan.baseMatrices_of_read`: the input matrices of a plan.
-/

namespace CellLineage.Formula

open IterativePlan

/-- The recurrence that a part of a formula is, if it is one. -/
def recurrenceOf? (part : Text) : Option Statement :=
  match (empty part).addPart part.symbols with
  | .ok plan => plan.recurrence?
  | .error _ => none

namespace IterativePlan

variable {plan plan' : IterativePlan} {name : Text}

/-- The recurrences of the formula that did not count. -/
def replacedRecurrences (plan : IterativePlan) : List Statement :=
  (plan.replaced.map Prod.fst).filterMap recurrenceOf?

/-- The names that a plan reads: the constants, and the references on the right of the base cases
and of the recurrence that counts, apart from relative ones. -/
def namesRead (plan : IterativePlan) : List Text :=
  plan.constants.map (fun c => c.reference.name) ++
    Plan.fixedNames (plan.statements.flatMap Statement.factors)

/-- The numbered names on the right of some statements. -/
def numberedIn (ss : List Statement) : List Text :=
  numberedNames (ss.flatMap Statement.factors)

theorem numberedIn_append (ss ts : List Statement) :
    numberedIn (ss ++ ts) = numberedIn ss ++ numberedIn ts := by
  simp [numberedIn, numberedNames]

theorem numberedIn_singleton (s : Statement) : numberedIn [s] = numberedNames s.factors := by
  rw [numberedIn, List.flatMap_singleton]

/-! ### Reading one part -/

/-- A part that fits is a constant, or an assignment that means the same in every plan. -/
theorem addPart_cases {part : List Symbol} (h : plan.addPart part = .ok plan')
    (hfault : plan'.fault? = none) :
    (∃ r : Reference, plan' = { plan with
      constants := plan.constants ++ [⟨r, ⟨part⟩⟩], explicit := plan.explicit ++ [r.name] }) ∨
    ∃ target left factors, plan' = plan.assign target left factors ⟨part⟩ ∧
      ∀ other : IterativePlan,
        other.addPart part = .ok (other.assign target left factors ⟨part⟩) := by
  unfold addPart at h
  split at h
  · next heq =>
    unfold addAssignment at h
    split at h
    · next left right hsides =>
      split at h
      · cases h
        cases hfault
      · next hne =>
        obtain ⟨target?, htarget, h⟩ := exists_of_bind_eq_ok h
        cases target? with
        | none =>
          cases h
          cases hfault
        | some target =>
          dsimp only at h
          split at h
          · cases h
            cases hfault
          · next htransposed =>
            rcases absorb_eq_ok h with h | ⟨m, -, rfl⟩
            · obtain ⟨factors, hfactors, h⟩ := exists_of_bind_eq_ok h
              cases h
              refine .inr ⟨target, ⟨left⟩, factors, rfl, fun other => ?_⟩
              rw [addPart, if_pos heq, addAssignment, hsides]
              dsimp only
              rw [if_neg hne, htarget]
              simp only [bind, Except.bind, if_neg htransposed, hfactors]
              rfl
            · cases hfault
    · cases h
      cases hfault
  · obtain ⟨r?, hr, h⟩ := exists_of_bind_eq_ok h
    cases r? with
    | none =>
      cases h
      cases hfault
    | some r =>
      dsimp only at h
      split at h
      · cases h
        exact .inl ⟨r, rfl⟩
      · cases h
        cases hfault

/-- What the plan without parts has, and each part that fits preserves, a plan without fault has. -/
theorem of_read_of_addPart {P : IterativePlan → Prop} {formula : Text} (hempty : P (empty formula))
    (hstep : ∀ {plan plan' : IterativePlan} {part : List Symbol}, P plan →
      plan.addPart part = .ok plan' → plan'.fault? = none → P plan')
    (h : IterativePlan.read formula = .ok plan) (hfault : plan.fault? = none) : P plan := by
  have hparts {parts : List (List Symbol)} {plan₀ : IterativePlan} (h₀ : P plan₀)
      (h : plan₀.addParts parts = .ok plan) : P plan := by
    induction parts generalizing plan₀ with
    | nil =>
      cases h
      exact h₀
    | cons part parts ih =>
      obtain ⟨next, hnext, h⟩ := exists_of_bind_eq_ok h
      split at h
      · next hsome =>
        cases h
        rw [hfault] at hsome
        cases hsome
      · next hnone => exact ih (hstep h₀ hnext (Option.not_isSome_iff_eq_none.1 hnone)) h
  unfold IterativePlan.read at h
  split at h
  · cases h
    cases hfault
  · exact hparts hempty h

/-! ### Where the collected names come from -/

/-- It is known where each of the numbered names that were met comes from, and the recurrences can
be read again from their texts. -/
structure IsAccounted (plan : IterativePlan) : Prop where
  recurrence : ∀ s, plan.recurrence? = some s → recurrenceOf? s.text = some s
  replaced : plan.replacedRecurrences.map Statement.text = plan.replaced.map Prod.fst
  mem_explicit_iff : ∀ name, name ∈ plan.explicit ↔
    name ∈ plan.constants.map (fun c => c.reference.name) ∨ name ∈ plan.targetNames ∨
      name ∈ numberedIn plan.statements ∨ name ∈ numberedIn plan.replacedRecurrences

theorem isAccounted_empty (formula : Text) : (empty formula).IsAccounted where
  recurrence s hs := by cases hs
  replaced := rfl
  mem_explicit_iff name := by
    simp [empty, targetNames, statements, replacedRecurrences, numberedIn, numberedNames]

theorem IsAccounted.constant (h : plan.IsAccounted) (r : Reference) (text : Text) :
    IsAccounted { plan with
      constants := plan.constants ++ [⟨r, text⟩], explicit := plan.explicit ++ [r.name] } where
  recurrence := h.recurrence
  replaced := h.replaced
  mem_explicit_iff name := by
    have hmem := h.mem_explicit_iff name
    rw [List.mem_append, hmem]
    simp only [statements, replacedRecurrences, targetNames, List.mem_append, List.map_append,
      List.map_cons, List.map_nil, List.mem_singleton]
    exact iff_of_eq (by ac_rfl)

/-- **An assignment** is accounted for. The text of a recurrence that it replaces is kept. -/
theorem IsAccounted.assign (h : plan.IsAccounted) {target : Reference} {left : Text}
    {factors : List Reference} {part : List Symbol}
    (hfault : (plan.assign target left factors ⟨part⟩).fault? = none)
    (hpart : ∀ other : IterativePlan,
      other.addPart part = .ok (other.assign target left factors ⟨part⟩)) :
    (plan.assign target left factors ⟨part⟩).IsAccounted := by
  -- both kinds of relative targets make the statement the recurrence
  have hrelative {replaced : List (Text × Text)}
      (hrel : target.subscript = .current ∨ target.subscript = .next)
      (hall : replaced = plan.replaced ++ plan.recurrence?.toList.map fun old =>
        (old.text, ⟨part⟩)) :
      IsAccounted { plan with
        explicit := plan.explicit ++ numberedNames factors
        recurrence? := some ⟨target, factors, ⟨part⟩⟩
        replaced } := by
    have hold : (plan.recurrence?.toList.map Statement.text).filterMap recurrenceOf? =
        plan.recurrence?.toList := by
      cases hold : plan.recurrence? with
      | none => rfl
      | some old => exact List.filterMap_cons_some (h.recurrence old hold)
    have hreplaced : (replaced.map Prod.fst).filterMap recurrenceOf? =
        plan.replacedRecurrences ++ plan.recurrence?.toList := by
      rw [hall, List.map_append, List.filterMap_append, List.map_map]
      exact congrArg (plan.replacedRecurrences ++ ·) hold
    refine ⟨fun s hs => ?_, ?_, fun name => ?_⟩
    · cases hs
      rw [recurrenceOf?, hpart]
      rcases hrel with hrel | hrel <;> simp only [IterativePlan.assign, hrel]
    · rw [replacedRecurrences, hreplaced, List.map_append, h.replaced, hall, List.map_append,
        List.map_map]
      rfl
    · rw [List.mem_append, h.mem_explicit_iff name]
      simp only [statements, replacedRecurrences, targetNames, hreplaced, Option.toList_some,
        numberedIn_append, numberedIn_singleton, List.mem_append]
      exact iff_of_eq (by ac_rfl)
  unfold IterativePlan.assign at hfault ⊢
  dsimp only at hfault ⊢
  split
  · next hrel => exact hrelative (.inl hrel) (by cases plan.recurrence? <;> simp)
  · next hrel => exact hrelative (.inr hrel) (by cases plan.recurrence? <;> simp)
  · refine ⟨h.recurrence, h.replaced, fun name => ?_⟩
    have hmem := h.mem_explicit_iff name
    rw [List.mem_append, List.mem_append, hmem]
    simp only [statements, replacedRecurrences, targetNames, numberedIn_append,
      numberedIn_singleton, List.mem_append, List.map_append, List.map_cons, List.map_nil,
      List.mem_singleton]
    exact iff_of_eq (by ac_rfl)
  · next hcurrent hnext hnumber =>
    split at hfault
    · next hrel => exact absurd hrel hcurrent
    · next hrel => exact absurd hrel hnext
    · next k hrel => exact absurd hrel (hnumber k)
    · cases hfault

theorem isAccounted_of_read {formula : Text} (h : IterativePlan.read formula = .ok plan)
    (hfault : plan.fault? = none) : plan.IsAccounted := by
  refine of_read_of_addPart (isAccounted_empty formula) (fun hplan hpart hfault => ?_) h hfault
  rcases addPart_cases hpart hfault with ⟨r, rfl⟩ | ⟨target, left, factors, rfl, hother⟩
  · exact hplan.constant r _
  · exact hplan.assign hfault hother

/-- Numbered names that are read are among the names read. -/
theorem numberedIn_subset_namesRead : numberedIn plan.statements ⊆ plan.namesRead := by
  intro name hname
  obtain ⟨r, hr, rfl⟩ := List.mem_map.1 hname
  obtain ⟨hr, hnumber⟩ := List.mem_filter.1 hr
  have hrel : (!r.isRelative) = true := by
    unfold Reference.isRelative
    cases hs : r.subscript <;> simp_all [Subscript.isNumber, Subscript.isRelative]
  exact List.mem_append_right _ (List.mem_map.2 ⟨r, List.mem_filter.2 ⟨hr, hrel⟩, rfl⟩)

end IterativePlan

/-- A list that ascends strictly is the sorted one of its members. -/
theorem eq_sortedNames {names names' : List Text}
    (hsorted : names.Pairwise fun a b => compare a b = .lt)
    (hmem : ∀ name, name ∈ names ↔ name ∈ names') : names = sortedNames names' := by
  have hirrefl : Std.Irrefl fun a b : Text => compare a b = .lt := by
    refine ⟨fun a h => ?_⟩
    have heq : compare a a = .eq := Std.ReflCmp.compare_self
    rw [heq] at h
    cases h
  have hantisymm : Std.Antisymm fun a b : Text => compare a b = .lt := by
    refine ⟨fun a b h h' => ?_⟩
    rw [Std.OrientedCmp.gt_of_lt h] at h'
    cases h'
  refine hsorted.eq_of_mem_iff (pairwise_sortedNames names') fun name => ?_
  rw [mem_sortedNames, hmem]

/-- **The input matrices of a plan** that was read are what it reads, together with the numbered
names on the right of recurrences that were replaced, without the targets of its base cases. So they
are just what it reads if and only if each of those names is read, or a target, anyway. -/
theorem Plan.baseMatrices_of_read {formula : Text} {plan : IterativePlan}
    (hread : Plan.read formula = .ok (.iterative plan)) (hfault : plan.fault? = none) :
    plan.replacedRecurrences.map Statement.text = plan.replaced.map Prod.fst ∧
    (Plan.iterative plan).baseMatrices = sortedNames
      ((plan.namesRead ++ numberedIn plan.replacedRecurrences).filter (· ∉ plan.targetNames)) ∧
    ((Plan.iterative plan).baseMatrices =
        sortedNames (plan.namesRead.filter (· ∉ plan.targetNames)) ↔
      ∀ name ∈ numberedIn plan.replacedRecurrences,
        name ∈ plan.namesRead ∨ name ∈ plan.targetNames) := by
  have haccount := isAccounted_of_read (Plan.iterative_of_read hread) hfault
  have hbase : (Plan.iterative plan).baseMatrices = sortedNames
      ((plan.namesRead ++ numberedIn plan.replacedRecurrences).filter (· ∉ plan.targetNames)) := by
    have hnone : (Plan.iterative plan).fault?.isSome = false := by
      rw [Plan.fault?, hfault, Option.isSome_none]
    rw [baseMatrices, hnone, if_neg Bool.false_ne_true]
    refine eq_sortedNames ((pairwise_sortedNames _).filter _) fun name => ?_
    have hsubset := @numberedIn_subset_namesRead plan name
    simp only [List.mem_filter, mem_sortedNames, List.mem_append, decide_eq_true_eq,
      haccount.mem_explicit_iff, namesRead, references] at hsubset ⊢
    tauto
  refine ⟨haccount.replaced, hbase, ?_⟩
  rw [hbase]
  constructor
  · intro heq name hname
    by_contra hnot
    rw [not_or] at hnot
    have hmem := congrArg (name ∈ ·) heq
    simp only [mem_sortedNames, List.mem_filter, List.mem_append, decide_eq_true_eq] at hmem
    exact hnot.1 (hmem.mp ⟨.inr hname, hnot.2⟩).1
  · intro hall
    refine eq_sortedNames (pairwise_sortedNames _) fun name => ?_
    rw [mem_sortedNames]
    simp only [List.mem_filter, List.mem_append, decide_eq_true_eq]
    refine and_congr_left fun htarget => or_iff_left_of_imp fun hname => ?_
    exact (hall name hname).resolve_right htarget

/-- The iterative plan of a formula, if it is one. -/
def iterativeOf (formula : Text) : IterativePlan :=
  match Plan.read formula with
  | .ok (.iterative plan) => plan
  | .ok (.simple _) | .error _ => empty formula

/-- The recurrence that is replaced reads `B_1`, and so does the one that counts. -/
def sharingPlan : IterativePlan :=
  iterativeOf "K_0=A,K_\x7bn+1\x7d=B_1*K_n,K_\x7bn+1\x7d=C_0*B_1*K_n"

theorem Plan.baseMatrices_of_read_sample :
    sharingPlan.replacedRecurrences ≠ [] ∧
      (Plan.iterative sharingPlan).baseMatrices = ["A", "B_1", "C_0"] := by
  have hread : Plan.read "K_0=A,K_\x7bn+1\x7d=B_1*K_n,K_\x7bn+1\x7d=C_0*B_1*K_n" =
      .ok (.iterative sharingPlan) := by decide +kernel
  have hfault : sharingPlan.fault? = none := by decide +kernel
  have hnames : ∀ name ∈ numberedIn sharingPlan.replacedRecurrences,
      name ∈ sharingPlan.namesRead ∨ name ∈ sharingPlan.targetNames := by decide +kernel
  obtain ⟨-, -, hiff⟩ := Plan.baseMatrices_of_read hread hfault
  rw [hiff.2 hnames]
  decide +kernel

/-- Only the recurrence that is replaced reads `B_1`. -/
def droppingPlan : IterativePlan :=
  iterativeOf "K_0=A,K_\x7bn+1\x7d=B_1*K_n,K_\x7bn+1\x7d=C*K_n"

/-- The plan does not read `B_1`, yet it takes it as input. -/
theorem Plan.baseMatrices_unread :
    Plan.read "K_0=A,K_\x7bn+1\x7d=B_1*K_n,K_\x7bn+1\x7d=C*K_n" = .ok (.iterative droppingPlan) ∧
    droppingPlan.fault? = none ∧
    (Plan.iterative droppingPlan).baseMatrices = ["A", "B_1", "C"] ∧
    sortedNames (droppingPlan.namesRead.filter (· ∉ droppingPlan.targetNames)) = ["A", "C"] := by
  decide +kernel

end CellLineage.Formula
