import CellLineage.Proofs.Evaluation.Writes
import CellLineage.Proofs.Graph.Acyclic

/-!
# Evaluating closes no cycle

Evaluating a product reads public names, and writes names that are not settled yet. As the counts of
occurrences and of intermediate results go up, what was written becomes settled and may be read
then, but it is not written any more. So the free names of the graph are those that are *pending*,
and the graph stays tiered by them, however the evaluation ends.

## Main definitions

* `pendingNames`: the names that evaluating may still write.
* `Graph.Ends`: a run ends as it is to end, or stops part-way with an acyclic graph.

## Main results

* `Graph.evaluate_ends`: an evaluation keeps the graph tiered by the pending names.
-/

namespace CellLineage

open Formula

/-- The names that evaluating from an occurrence on, after a number of intermediate results, may
write. -/
def pendingNames (occurrence : Int) (temporaries : Nat) : Set Text :=
  {name | ¬IsSettled occurrence temporaries name}

theorem pendingNames_subset {o o' : Int} {m m' : Nat} (ho : o ≤ o') (hm : m ≤ m') :
    pendingNames o' m' ⊆ pendingNames o m :=
  fun _ h hsettled => h (hsettled.mono ho hm)

theorem IsSettled.notMem_pendingNames {o : Int} {m : Nat} {name : Text} (h : IsSettled o m name) :
    name ∉ pendingNames o m :=
  fun hpending => hpending h

theorem instanceName_mem_pendingNames (name : Text) (o : Int) (m : Nat) :
    instanceName name o ∈ pendingNames o m :=
  fun h => h.ne_instanceName name o (Int.le_refl o) rfl

theorem transposeName_mem_pendingNames (name : Text) (o : Int) (m : Nat) :
    Graph.transposeName (instanceName name o) ∈ pendingNames o m :=
  fun h => h.ne_transposeName name o (Int.le_refl o) rfl

theorem temporaryName_mem_pendingNames (o : Int) (m : Nat) :
    temporaryName (m + 1) ∈ pendingNames o m :=
  fun h => h.ne_temporaryName (m + 1) (Nat.lt_succ_self m) rfl

namespace Graph

variable {g g' g₁ : Graph} {o : Int}

/-! ### Runs that may stop part-way -/

section Ends

variable {α β : Type} {Q : α → Graph → Prop} {R : β → Graph → Prop}

/-- A run ends with a result and a graph as they are to be, or stops part-way with an acyclic
graph. -/
def Ends (Q : α → Graph → Prop) : EStateM.Result Fault Graph α → Prop
  | .ok a g => Q a g
  | .error _ g => g.IsAcyclic

theorem Ends.bind {x : Run α} {f : α → Run β} (hx : Ends Q (x g))
    (hf : ∀ a g₁, x g = .ok a g₁ → Q a g₁ → Ends R (f a g₁)) : Ends R ((x >>= f) g) := by
  cases h : x g with
  | ok a g₁ =>
    rw [h] at hx
    rw [bind_eq_of_ok h]
    exact hf a g₁ h hx
  | error e g₁ =>
    rw [h] at hx
    rwa [bind_eq_of_error h]

/-- A fault of an index leaves the graph as it is. -/
theorem ends_liftIndex (h : g.IsAcyclic) (x : Except IndexFault α) :
    Ends (fun a g' => x = .ok a ∧ g' = g) (liftIndex x g) := by
  cases x with
  | error e => exact h
  | ok a => exact ⟨rfl, rfl⟩

/-- However a run ends that leaves a tiered graph, that graph is acyclic. -/
theorem ends_of_isTiered {x : Run α} {free : Set Text} (h : (after x g).IsTiered free) :
    Ends (fun _ g' => g'.IsTiered free) (x g) := by
  unfold after at h
  cases hx : x g with
  | ok a g₁ =>
    rw [hx] at h
    exact h
  | error e g₁ =>
    rw [hx] at h
    exact h.isAcyclic

end Ends

/-! ### Evaluating products -/

/-- After an evaluation from an occurrence on the graph `g'` is tiered by what is still pending, and
the result is not. -/
structure Settles (o : Int) (g : Graph) (e : Evaluated) (g' : Graph) : Prop where
  isTiered : g'.IsTiered (pendingNames e.occurrence g'.temporaries)
  occurrence_le : o ≤ e.occurrence
  temporaries_le : g.temporaries ≤ g'.temporaries
  isSettled : ∀ name, e.result? = some name → IsSettled e.occurrence g'.temporaries name

theorem evaluateReference_ends {r : Reference} (hr : IsPublic r.name)
    (h : g.IsTiered (pendingNames o g.temporaries)) :
    Ends (Settles o g) (evaluateReference r o g) := by
  have hle : o ≤ o + 1 := by omega
  have hrun {f : Graph → Run Evaluated} : (get >>= f) g = f g g := rfl
  rw [evaluateReference, hrun]
  cases hinst : g.instantiate r.name (instanceName r.name o) with
  | none =>
    exact ⟨h.mono (pendingNames_subset hle (Nat.le_refl _)), hle, Nat.le_refl _,
      fun _ hname => by cases hname⟩
  | some g₁ =>
    obtain ⟨h₁, htemp₁⟩ := h.instantiate hinst (hr.isSettled o g.temporaries).notMem_pendingNames
      (instanceName_mem_pendingNames r.name o g.temporaries)
    have hnext : pendingNames (o + 1) g₁.temporaries ⊆ pendingNames o g.temporaries :=
      pendingNames_subset hle htemp₁.ge
    have hinstance := isSettled_instanceName (n := r.name) (Int.lt_succ o) g₁.temporaries
    cases ht : r.transposed with
    | false =>
      change Settles o g ⟨some (instanceName r.name o), o + 1, []⟩ g₁
      refine ⟨h₁.mono hnext, hle, htemp₁.ge, fun name hname => ?_⟩
      cases hname
      exact hinstance
    | true =>
      -- the instance is read now, so it is free no longer
      have h₁' : g₁.IsTiered (pendingNames o g.temporaries \ {instanceName r.name o}) :=
        h₁.mono fun _ hname => hname.1
      have hnext' : pendingNames (o + 1) g₁.temporaries ⊆
          pendingNames o g.temporaries \ {instanceName r.name o} := fun name hname =>
        ⟨hnext hname, fun he => hname (he ▸ hinstance)⟩
      cases htrans : g₁.transpose (instanceName r.name o) with
      | none =>
        simp only [if_true, htrans]
        exact ⟨h₁.mono hnext, hle, htemp₁.ge, fun _ hname => by cases hname⟩
      | some p =>
        obtain ⟨target, g₂⟩ := p
        obtain ⟨rfl, h₂, htemp₂⟩ := h₁'.transpose htrans (fun hmem => hmem.2 rfl)
          ⟨transposeName_mem_pendingNames r.name o g.temporaries,
            instanceName_ne_transposeName.symm⟩
        simp only [if_true, htrans]
        have htemp : g₂.temporaries = g.temporaries := htemp₂.trans htemp₁
        refine ⟨h₂.mono (htemp₂ ▸ hnext'), hle, htemp.ge, fun name hname => ?_⟩
        cases hname
        exact isSettled_transposeName (Int.lt_succ o) _

theorem evaluateTimes_ends {left right : Text} (expression : Text)
    (h : g.IsTiered (pendingNames o g.temporaries)) (hl : IsSettled o g.temporaries left)
    (hr : IsSettled o g.temporaries right) :
    Ends (fun a g' => g'.IsTiered (pendingNames o g'.temporaries) ∧
      g.temporaries ≤ g'.temporaries ∧ ∀ name, a.1 = some name → IsSettled o g'.temporaries name)
      (evaluateTimes left right expression g) := by
  let g₁ : Graph := { g with temporaries := g.temporaries + 1 }
  have h₁ : g₁.IsTiered (pendingNames o g.temporaries) := h.describe _ g.descriptions
  obtain ⟨h₂, htemp⟩ := h₁.multiply hl.notMem_pendingNames hr.notMem_pendingNames
    (temporaryName_mem_pendingNames o g.temporaries) false
  refine Ends.bind (g := g₁) (ends_of_isTiered h₂) fun issue? g₂ hmultiply hg₂ => ?_
  have htemp₂ : g₂.temporaries = g.temporaries + 1 :=
    (congrArg temporaries (after_of_ok hmultiply)).symm.trans htemp
  have hsubset : pendingNames o g₂.temporaries ⊆ pendingNames o g.temporaries :=
    pendingNames_subset (Int.le_refl o) (by omega)
  cases issue? with
  | some issue => exact ⟨hg₂.mono hsubset, by omega, nofun⟩
  | none =>
    refine ⟨(hg₂.mono hsubset).describe g₂.temporaries _, Nat.le_of_succ_le htemp₂.ge, ?_⟩
    intro name hname
    cases hname
    exact isSettled_temporaryName htemp₂.ge o

/-- **An evaluation** of public names keeps the graph tiered by what is pending. -/
theorem evaluate_ends {p : Product} (hp : ∀ r ∈ p.references, IsPublic r.name)
    (h : g.IsTiered (pendingNames o g.temporaries)) : Ends (Settles o g) (evaluate p o g) := by
  induction p generalizing o g with
  | single r => exact evaluateReference_ends (hp r List.mem_cons_self) h
  | times p q ihp ihq =>
    refine Ends.bind (ihp (fun r hr => hp r (List.mem_append_left _ hr)) h) fun l g₁ _ hl => ?_
    refine Ends.bind (ihq (fun r hr => hp r (List.mem_append_right _ hr)) hl.isTiered)
      fun r g₂ _ hr => ?_
    have hocc := Int.le_trans hl.occurrence_le hr.occurrence_le
    have htemp := Nat.le_trans hl.temporaries_le hr.temporaries_le
    cases hleft : l.result? with
    | none => exact ⟨hr.isTiered, hocc, htemp, nofun⟩
    | some left =>
      cases hright : r.result? with
      | none => exact ⟨hr.isTiered, hocc, htemp, nofun⟩
      | some right =>
        refine Ends.bind (evaluateTimes_ends _ hr.isTiered
          ((hl.isSettled left hleft).mono hr.occurrence_le hr.temporaries_le)
          (hr.isSettled right hright)) fun a g₃ _ h₃ => ?_
        exact ⟨h₃.1, hocc, Nat.le_trans htemp h₃.2.1, h₃.2.2⟩

end Graph

end CellLineage
