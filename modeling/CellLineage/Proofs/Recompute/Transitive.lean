import CellLineage.Proofs.Graph.Transitive
import CellLineage.Proofs.Recompute.Acyclic

/-!
# A recompute closes every lineage

After a recompute each cell lists all that it derives from, and not only what it was written from:
the search from a cell finds the cell and its direct dependencies, and nothing else. The rebuilt
input has no edges, and from there on every matrix that is written is one that nothing derives from
yet, so that no list is changed that others were taken over from. Which matrices these are has been
said for cycles (`Graph.IsUnderway`), and a run keeps the graph transitive under the same
conditions, also if it stops part-way.

The output must not be a matrix that is read. If it is, the instances of that matrix still list its
cells, but not what these derive from since (`Graph.recompute_not_transitive`).

## Main results

* `Graph.isTransitive_evaluate`: evaluations keep a graph transitive.
* `Graph.isTransitive_runBaseCases`, `Graph.isTransitive_runRecurrence`: so do statements.
* `Graph.recompute_lineage_closed`: the lineages after a recompute are closed.
-/

namespace CellLineage

open Formula

namespace Graph

variable {g g' : Graph} {config : Config} {plan : Plan} {progress : Progress} {name : Text}
  {o : Int}

/-- What holds of a run that ends as it is to end. -/
theorem Ends.of_ok {α : Type} {Q : α → Graph → Prop} {x : Run α} {a : α} (h : Ends Q (x g))
    (hx : x g = .ok a g') : Q a g' := by
  rwa [hx] at h

/-- Whether an index is there or not changes nothing. -/
theorem after_liftIndex {α : Type} (x : Except IndexFault α) (g : Graph) :
    after (liftIndex x) g = g := by
  cases x <;> rfl

/-! ### Evaluating products -/

theorem isTransitive_evaluateReference {r : Reference} (hr : IsPublic r.name)
    (h : g.IsTiered (pendingNames o g.temporaries)) (ht : g.IsTransitive) :
    (after (evaluateReference r o) g).IsTransitive := by
  have hsettled := (hr.isSettled o g.temporaries).notMem_pendingNames
  have hpending := instanceName_mem_pendingNames r.name o g.temporaries
  cases hinst : g.instantiate r.name (instanceName r.name o) with
  | none =>
    have hrun : after (evaluateReference r o) g = g := by
      simp only [after, evaluateReference, get_bind_eq, hinst]
      rfl
    rwa [hrun]
  | some g₁ =>
    have ht₁ := ht.instantiate h.isWellFormed hinst fun he => (he ▸ hsettled) hpending
    obtain ⟨h₁, -⟩ := h.instantiate hinst hsettled hpending
    have hrun : after (evaluateReference r o) g = if r.transposed then
        ((g₁.transpose (instanceName r.name o)).map Prod.snd).getD g₁ else g₁ := by
      simp only [after, evaluateReference, get_bind_eq, hinst]
      cases r.transposed with
      | false => rfl
      | true => cases g₁.transpose (instanceName r.name o) <;> rfl
    rw [hrun]
    split
    · cases htrans : g₁.transpose (instanceName r.name o) with
      | none => exact ht₁
      | some p =>
        exact ht₁.transpose h₁.isWellFormed htrans
          (h₁.isUnread _ (transposeName_mem_pendingNames r.name o g.temporaries))
    · exact ht₁

theorem isTransitive_evaluateTimes {left right : Text} (expression : Text)
    (h : g.IsTiered (pendingNames o g.temporaries)) (ht : g.IsTransitive)
    (hl : IsSettled o g.temporaries left) (hr : IsSettled o g.temporaries right) :
    (after (evaluateTimes left right expression) g).IsTransitive := by
  let g₁ : Graph := { g with temporaries := g.temporaries + 1 }
  have h₁ : g₁.IsTiered (pendingNames o g.temporaries) := h.describe _ g.descriptions
  have htarget := temporaryName_mem_pendingNames o g.temporaries
  have hne {other : Text} (hother : IsSettled o g.temporaries other) :
      other ≠ temporaryName (g.temporaries + 1) := fun he =>
    hother.notMem_pendingNames (he ▸ htarget)
  have hproduct : (after (multiply left right (temporaryName (g.temporaries + 1)) false)
      g₁).IsTransitive :=
    IsTransitive.multiply (g := g₁) ht h₁.isWellFormed (hne hl) (hne hr) (h₁.isUnread _ htarget)
      false
  have hget {k : Graph → Run (Option Text × List Issue)} :
      after (get >>= k) g = after (k g) g := rfl
  have hset {k : Run (Option Text × List Issue)} : after (do set g₁; k) g = after k g₁ := rfl
  rw [evaluateTimes, hget]
  dsimp only [nextTemporary]
  rw [hset]
  refine after_bind_of hproduct fun issue? g₂ _ h₂ => ?_
  cases issue? with
  | some issue => exact h₂
  | none => exact h₂

/-- **An evaluation** of public names keeps the graph transitive. -/
theorem isTransitive_evaluate {p : Product} (hp : ∀ r ∈ p.references, IsPublic r.name)
    (h : g.IsTiered (pendingNames o g.temporaries)) (ht : g.IsTransitive) :
    (after (evaluate p o) g).IsTransitive := by
  induction p generalizing o g with
  | single r => exact isTransitive_evaluateReference (hp r List.mem_cons_self) h ht
  | times p q ihp ihq =>
    have hp₁ : ∀ r ∈ p.references, IsPublic r.name := fun r hr => hp r (List.mem_append_left _ hr)
    have hq₁ : ∀ r ∈ q.references, IsPublic r.name := fun r hr => hp r (List.mem_append_right _ hr)
    refine after_bind_of (ihp hp₁ h ht) fun l g₁ hrun₁ ht₁ => ?_
    have hl := (evaluate_ends hp₁ h).of_ok hrun₁
    refine after_bind_of (ihq hq₁ hl.isTiered ht₁) fun r g₂ hrun₂ ht₂ => ?_
    have hr := (evaluate_ends hq₁ hl.isTiered).of_ok hrun₂
    cases hleft : l.result? with
    | none => exact ht₂
    | some left =>
      cases hright : r.result? with
      | none => exact ht₂
      | some right =>
        exact after_bind_of (isTransitive_evaluateTimes _ hr.isTiered ht₂
          ((hl.isSettled left hleft).mono hr.occurrence_le hr.temporaries_le)
          (hr.isSettled right hright)) fun _ _ _ ht₃ => ht₃

/-! ### Statements -/

theorem isTransitive_evaluateStatement {coming : Set Text}
    (h : IsUnderway config coming progress g) (ht : g.IsTransitive) {p : Product} (hp : p.IsNamed)
    (n : Int) : (after (evaluateStatement p n progress) g).IsTransitive := by
  refine after_bind_of (g := g) (x := liftIndex (g.resolve p n)) ((after_liftIndex _ g).symm ▸ ht)
    fun p' g₁ hlift ht₁ => ?_
  obtain rfl := graph_eq_of_liftIndex hlift
  exact after_bind_of (isTransitive_evaluate
    (hp.isPublic_of_resolve (eq_ok_of_liftIndex hlift)) h.isTiered ht₁) fun _ _ _ ht₂ => ht₂

theorem isTransitive_record {coming : Set Text} (h : IsUnderway config coming progress g)
    (ht : g.IsTransitive) (result : Text) (hname : name ∈ coming) :
    (after (record result name progress) g).IsTransitive := by
  have hrun : after (record result name progress) g = (g.copy result name).getD g := rfl
  rw [hrun]
  cases hcopy : g.copy result name with
  | none => exact ht
  | some g' => exact ht.copy_of_notMem h.isTiered.isWellFormed hcopy (h.coming name hname).2

/-- **Base cases** that assign different matrices keep the graph transitive. -/
theorem isTransitive_runBaseCases {coming : Set Text} {ss : List Statement}
    (h : IsUnderway config coming progress g) (ht : g.IsTransitive) (hout : IsPublic config.output)
    (hfactors : ∀ s ∈ ss, ∀ r ∈ s.factors, r.IsNamed) (htargets : ∀ s ∈ ss, s.target.name ∈ coming)
    (hnodup : (ss.map (·.target.name)).Nodup) :
    (after (runBaseCases ss progress) g).IsTransitive := by
  induction ss generalizing progress g coming with
  | nil => exact ht
  | cons s ss ih =>
    obtain ⟨hs, hss⟩ := List.forall_mem_cons.1 hfactors
    obtain ⟨hts, htss⟩ := List.forall_mem_cons.1 htargets
    obtain ⟨hnotMem, hnodup⟩ := List.nodup_cons.1 hnodup
    unfold runBaseCases
    cases hp : s.product? with
    | none => exact ih h ht hss htss hnodup
    | some p =>
      have hnamed := Product.isNamed_of_ofFactors? hp hs
      refine after_bind_of (isTransitive_evaluateStatement h ht hnamed 0) fun a g₁ hrun₁ ht₁ => ?_
      have h₁ := (evaluateStatement_ends h hout hnamed 0).of_ok hrun₁
      obtain ⟨result?, progress₁⟩ := a
      cases result? with
      | none => exact ih h₁ ht₁ hss htss hnodup
      | some result =>
        refine after_bind_of (isTransitive_record h₁ ht₁ result hts)
          fun progress₂ g₂ hrun₂ ht₂ => ?_
        refine ih ((record_ends h₁ result hts).of_ok hrun₂) ht₂ hss
          (fun s' hs' => ⟨htss s' hs', fun he => hnotMem ?_⟩) hnodup
        exact List.mem_map.2 ⟨s', hs', he⟩

/-- **A recurrence** whose members are not there keeps the graph transitive. -/
theorem isTransitive_runRecurrence {target : Reference} {p : Product} {count : Nat} {index : Int}
    (h : IsUnderway config (membersFrom target.base index) progress g) (ht : g.IsTransitive)
    (hout : IsPublic config.output) (hp : p.IsNamed) :
    (after (runRecurrence target p count index progress) g).IsTransitive := by
  induction count generalizing progress g index with
  | zero => exact ht
  | succ count ih =>
    refine after_bind_of (isTransitive_evaluateStatement h ht hp _) fun a g₁ hrun₁ ht₁ => ?_
    have h₁ := (evaluateStatement_ends h hout hp _).of_ok hrun₁
    obtain ⟨result?, progress₁⟩ := a
    cases result? with
    | none => exact ht₁
    | some result =>
      have hmember : ∀ name, memberName? target.base index = .ok name →
          name = memberName target.base index := fun _ => eq_memberName_of_memberName?
      dsimp only
      -- whether an index may be shown is not to be computed: the bound is a number of 4301 digits
      generalize memberName? target.base index = name? at hmember ⊢
      refine after_bind_of ((after_liftIndex name? g₁).symm ▸ ht₁) fun name g₂ hlift ht₂ => ?_
      obtain rfl := graph_eq_of_liftIndex hlift
      obtain rfl := hmember name (eq_ok_of_liftIndex hlift)
      have hcoming : memberName target.base index ∈ membersFrom target.base index :=
        ⟨index, Int.le_refl index, rfl⟩
      refine after_bind_of (isTransitive_record h₁ ht₂ result hcoming)
        fun progress₂ g₃ hrun₃ ht₃ => ?_
      exact ih (((record_ends h₁ result hcoming).of_ok hrun₃).mono
        (membersFrom_succ_subset target.base index)) ht₃

theorem isTransitive_applyRecurrence {p : IterativePlan} (h : IsUnderway config ∅ progress g)
    (ht : g.IsTransitive) (hout : IsPublic config.output)
    (htarget : ∀ s ∈ p.statements, IsBase s.target.base)
    (hfactors : ∀ s ∈ p.statements, ∀ r ∈ s.factors, r.IsNamed) :
    (after (applyRecurrence p config progress) g).IsTransitive := by
  rcases applyRecurrence_cases p config progress g with hrun | ⟨e, hrun⟩ |
    ⟨s, q, index, count, hs, hq, hindex, hrun⟩
  · rwa [after_of_ok hrun]
  · rwa [after_of_error hrun]
  · have hmem : s ∈ p.statements := List.mem_append_right _ (by simp [hs])
    have hafter : after (applyRecurrence p config progress) g =
        after (runRecurrence s.target q count index progress) g := by simp only [after, hrun]
    rw [hafter]
    refine isTransitive_runRecurrence ⟨h.isTiered, fun name hname => ?_, h.output⟩ ht hout
      (Product.isNamed_of_ofFactors? hq (hfactors s hmem))
    refine ⟨?_, notMem_matrices_of_nextIndex hindex hname⟩
    obtain ⟨k, -, rfl⟩ := hname
    exact isPublic_memberName (htarget s hmem) k

/-! ### Plans -/

/-- **The statements of a plan** keep the graph transitive. -/
theorem isTransitive_runStatements {p : IterativePlan} (hwritten : p.IsWritten)
    (hfactors : ∀ s ∈ p.statements, ∀ r ∈ s.factors, r.IsNamed) (hnodup : p.targetNames.Nodup)
    (hout : IsPublic config.output)
    (hstart : IsUnderway config {name | name ∈ p.targetNames} ⟨0, [], []⟩ g)
    (ht : g.IsTransitive) : (after (runStatements p config) g).IsTransitive := by
  have hcases : ∀ s ∈ p.baseCases, ∀ r ∈ s.factors, r.IsNamed := fun s hs =>
    hfactors s (List.mem_append_left _ hs)
  have htargets : ∀ s ∈ p.baseCases, s.target.name ∈ {name | name ∈ p.targetNames} := fun s hs =>
    List.mem_map_of_mem (f := fun s : Statement => s.target.name) hs
  rw [runStatements_eq]
  refine after_bind_of (isTransitive_runBaseCases hstart ht hout hcases htargets hnodup)
    fun progress g₁ hrun ht₁ => ?_
  have h₁ := (runBaseCases_ends hstart hout hcases htargets hnodup).of_ok hrun
  exact isTransitive_applyRecurrence h₁ ht₁ hout (fun s hs => (hwritten s hs).1) hfactors

/-- **Evaluating a plan** keeps the graph transitive. -/
theorem isTransitive_evaluatePlan {formula : Text} (hread : Plan.read formula = .ok plan)
    (hnames : ∀ r ∈ plan.references, .char '@' ∉ r.name.symbols)
    (htargets : ∀ name ∈ plan.targetNames, .char '@' ∉ name.symbols ∧ name ∉ g.matrices)
    (hnodup : plan.targetNames.Nodup) (hout : IsPublic config.output) (hg : g.IsTiered Set.univ)
    (ht : g.IsTransitive) (hnotMem : config.output ∉ g.matrices) :
    (after (evaluatePlan config plan) g).IsTransitive := by
  have hnamed := isNamed_references hread hnames
  cases plan with
  | simple p =>
    rw [evaluatePlan]
    cases hp : p.product? with
    | none => exact ht
    | some q =>
      have hq := Product.isNamed_of_ofFactors? hp hnamed
      exact after_bind_of (isTransitive_evaluate (fun r hr => (hq r hr).2)
        (hg.mono (Set.subset_univ _)) ht) fun _ _ _ ht₁ => ht₁
  | iterative p =>
    exact after_bind_of (isTransitive_runStatements (Plan.isWritten_of_read hread)
      (fun s hs r hr => hnamed r (List.mem_flatMap.2 ⟨s, hs, hr⟩)) hnodup hout
      (isUnderway_start hread htargets hg hnotMem) ht) fun _ _ _ ht₁ => ht₁

/-- **Making the output** keeps the graph transitive, if it is not there or is the result itself. -/
theorem isTransitive_finish (hg : g.IsWellFormed) (ht : g.IsTransitive)
    (previous : Option (Nat × Nat)) {result? : Option Text}
    (hresult : ∀ result, result? = some result → config.output ∈ g.matrices →
      result = config.output) : (after (finish config previous result?) g).IsTransitive := by
  cases result? with
  | some result =>
    have hrun : after (finish config previous (some result)) g =
        (g.copy result config.output).getD g := rfl
    rw [hrun]
    cases hcopy : g.copy result config.output with
    | none => exact ht
    | some g' =>
      by_cases hout : config.output ∈ g.matrices
      · obtain rfl := hresult result rfl hout
        exact ht.copy_self hg hcopy
      · exact ht.copy_of_notMem hg hcopy hout
  | none =>
    cases previous with
    | none => exact ht
    | some shape =>
      have hrun : after (finish config (some shape) none) g =
          after (if g.hasMatrix config.output then pure ()
            else liftGraph (g.initMatrix config.output shape.1 shape.2)) g := rfl
      rw [hrun]
      split
      · exact ht
      · cases hinit : g.initMatrix config.output shape.1 shape.2 with
        | error e => exact ht
        | ok g' => exact ht.initMatrix hg.toIsMinted hinit

/-- The rebuilt graph has no edges, so it is transitive. -/
theorem isTransitive_rebuild (config : Config) (names : List Text) (g : Graph) :
    (after (rebuild config names) g).IsTransitive := by
  refine isTransitive_of_forall_not ?_
  have hsteps := makes_rebuild config names g
  generalize after (rebuild config names) g = g' at hsteps
  induction hsteps with
  | refl =>
    intro a x
    simp [DependsOn, clear, empty, cell, Cell.blank]
  | tail _ h ih =>
    obtain ⟨name, hmakes⟩ := h
    exact fun a x hax => ih a x (dependsOn_of_makes hmakes hax)

/-- A recompute stops while the input is rebuilt, or while the plan is evaluated, or makes its
output and then reports what was computed. -/
theorem recompute_cases {names : List Text} (hobstacle : plan.obstacle? config.output = none)
    (hinput : inputNames plan config = .ok names) (g : Graph) :
    (∃ e g₁, rebuild config names g = .error e g₁ ∧ after (recompute plan config) g = g₁) ∨
    (∃ g₁ e g₂, rebuild config names g = .ok () g₁ ∧ evaluatePlan config plan g₁ = .error e g₂ ∧
      after (recompute plan config) g = g₂) ∨
    ∃ g₁ results g₂, rebuild config names g = .ok () g₁ ∧
      evaluatePlan config plan g₁ = .ok results g₂ ∧
      after (recompute plan config) g =
        after (finish config (g.shape? config.output) results.result?) g₂ ∧
      ∀ g₃, finish config (g.shape? config.output) results.result? g₂ = .ok () g₃ →
        ∃ o, recompute plan config g = .ok o g₃ ∧ o.computed = results.computed := by
  have hrun := recompute_of_inputNames (g := g) hobstacle hinput
  have hafter : after (recompute plan config) g = after (do
      rebuild config names
      runPlan config (g.shape? config.output) plan) g := by simp only [after, hrun]
  cases hrebuild : rebuild config names g with
  | error e g₁ =>
    exact .inl ⟨e, g₁, rfl, hafter.trans (after_of_error (bind_eq_of_error hrebuild))⟩
  | ok u g₁ =>
    rw [bind_eq_of_ok hrebuild, runPlan_eq] at hrun
    rw [after_bind_of_ok hrebuild, runPlan_eq] at hafter
    cases heval : evaluatePlan config plan g₁ with
    | error e g₂ =>
      exact .inr (.inl ⟨g₁, e, g₂, rfl, heval,
        hafter.trans (after_of_error (bind_eq_of_error heval))⟩)
    | ok results g₂ =>
      rw [bind_eq_of_ok heval] at hrun
      rw [after_bind_of_ok heval, after_bind_of_after_eq fun _ => after_outcome config _ _]
        at hafter
      refine .inr (.inr ⟨g₁, results, g₂, rfl, heval, hafter, fun g₃ hfinish => ?_⟩)
      obtain ⟨o, houtcome, hcomputed, -⟩ := outcome_spec config results.computed results.issues g₃
      rw [bind_eq_of_ok hfinish, houtcome] at hrun
      exact ⟨o, hrun, hcomputed⟩

/-- **A recompute** leaves a transitive graph, also if it stops part-way. -/
theorem isTransitive_recompute {formula : Text} {inputs : List Text}
    (hread : Plan.read formula = .ok plan) (hobstacle : plan.obstacle? config.output = none)
    (hnames : ∀ r ∈ plan.references, .char '@' ∉ r.name.symbols)
    (htargets : ∀ name ∈ plan.targetNames, .char '@' ∉ name.symbols)
    (hnodup : plan.targetNames.Nodup)
    (hout : IsPublic config.output) (hunread : config.output ∉ plan.baseMatrices)
    (hlast : ∀ o g', recompute plan config g = .ok o g' → config.output ∉ o.computed.dropLast)
    (hinput : inputNames plan config = .ok inputs) :
    (after (recompute plan config) g).IsTransitive := by
  have htiered := isTiered_rebuild config inputs g
  have ht := isTransitive_rebuild config inputs g
  have habsent {name : Text} (hname : name ∉ inputs) := notMem_matrices_rebuild config g hname
  rcases recompute_cases hobstacle hinput g with ⟨e, g₁, hrebuild, hafter⟩ |
    ⟨g₁, e, g₂, hrebuild, heval, hafter⟩ | ⟨g₁, results, g₂, hrebuild, heval, hafter, hreport⟩
  · rw [after_of_error hrebuild] at ht
    rwa [hafter]
  all_goals
    rw [after_of_ok hrebuild] at htiered ht habsent
    have htargets₁ : ∀ name ∈ plan.targetNames, .char '@' ∉ name.symbols ∧ name ∉ g₁.matrices :=
      fun name hname =>
        ⟨htargets name hname, habsent fun hmem => (of_mem_inputNames hinput hmem).1 hname⟩
    have hout₁ : config.output ∉ g₁.matrices :=
      habsent fun hmem => hunread ((of_mem_inputNames hinput hmem).2 rfl)
    have ht₂ := isTransitive_evaluatePlan hread hnames htargets₁ hnodup hout htiered ht hout₁
  · rw [after_of_error heval] at ht₂
    rwa [hafter]
  · rw [after_of_ok heval] at ht₂
    obtain ⟨htiered₂, hsame⟩ :=
      (evaluatePlan_ends hread hnames htargets₁ hnodup hout htiered hout₁).of_ok heval
    rw [hafter]
    refine isTransitive_finish htiered₂.isWellFormed ht₂ _ fun result hresult hmem => ?_
    obtain ⟨g₃, hfinish⟩ : ∃ g₃, finish config (g.shape? config.output) results.result? g₂ =
        .ok () g₃ := by
      rw [hresult]
      exact ⟨_, rfl⟩
    obtain ⟨o, hrun, hcomputed⟩ := hreport g₃ hfinish
    exact Option.some.inj (hresult.symm.trans (hsame hmem (hcomputed ▸ hlast o g₃ hrun)))

/-- **After a recompute every lineage is closed**, also if the recompute stops part-way: the search
from a cell finds just the cell and its own dependencies. The matrices that the formula names are to
have no names that evaluating gives, its base cases are to assign different matrices, and the output
is to be no matrix that it reads, or computes before the last one. If the input matrices cannot be
told, the graph stays as it is. -/
theorem recompute_lineage_closed {formula : Text} (hread : Plan.read formula = .ok plan)
    (hobstacle : plan.obstacle? config.output = none) (hg : g.IsReachable)
    (hnames : ∀ r ∈ plan.references, .char '@' ∉ r.name.symbols)
    (htargets : ∀ name ∈ plan.targetNames, .char '@' ∉ name.symbols)
    (hnodup : plan.targetNames.Nodup)
    (hout : IsPublic config.output) (hunread : config.output ∉ plan.baseMatrices)
    (hlast : ∀ o g', recompute plan config g = .ok o g' → config.output ∉ o.computed.dropLast) :
    (∃ e, inputNames plan config = .error e ∧ recompute plan config g = .error (.index e) g) ∨
      let g' := after (recompute plan config) g
      ∀ a ∈ g'.nodes, ∀ x, x ∈ g'.allDependencies a ↔ x = a ∨ x ∈ (g'.cell a).dependencies := by
  cases hinput : inputNames plan config with
  | error e => exact .inl ⟨e, rfl, recompute_of_inputNames_error hobstacle hinput⟩
  | ok inputs =>
    have ht := isTransitive_recompute (g := g) hread hobstacle hnames htargets hnodup hout hunread
      hlast hinput
    have hwf := (edits_recompute plan config g).isWellFormed hg.isWellFormed
    exact .inr fun a ha x => ht.mem_allDependencies_iff hwf.toIsLinked ha

/-- The square of a matrix with one cell: the last cell is that of the output, and it lists the
input, the base case and their instances. -/
theorem recompute_lineage_closed_sample :
    let g' := after (recompute (.iterative powerPlan) Config.standard) unitGraph
    (∀ a ∈ g'.nodes, ∀ x, x ∈ g'.allDependencies a ↔ x = a ∨ x ∈ (g'.cell a).dependencies) ∧
      "elem_7" ∈ g'.nodes ∧ (g'.cell "elem_7").dependencies.length = 4 := by
  have hread : Plan.read "K_0=A,K_\x7bn+1\x7d=A*K_n" = .ok (.iterative powerPlan) := by
    decide +kernel
  have hcomputed : (EStateM.run' (recompute (.iterative powerPlan) Config.standard) unitGraph).map
      Outcome.computed = some (["K_0", "K_1"] : List Text) := by decide +kernel
  have hlast : ∀ o g', recompute (.iterative powerPlan) Config.standard unitGraph = .ok o g' →
      Config.standard.output ∉ o.computed.dropLast := by
    intro o g' hrun
    rw [run'_of_ok hrun] at hcomputed
    have hnames : o.computed = (["K_0", "K_1"] : List Text) := Option.some.inj hcomputed
    rw [hnames]
    decide
  refine ⟨?_, by decide +kernel, by decide +kernel⟩
  rcases recompute_lineage_closed hread (by decide +kernel) ⟨"elem", _, rfl⟩ (by decide +kernel)
    (by decide +kernel) (by decide +kernel) (by decide +kernel) (by decide +kernel) hlast with
    ⟨e, he, -⟩ | h
  · cases he
  · exact h

/-- **Some recomputes leave lineages open.** A formula may read the output by a relative index. The
instance of the output then lists the cell that it was taken from, and this one is written again
afterwards. -/
theorem recompute_not_transitive :
    Plan.read "A_n*B" = .ok (.simple overwritingPlan) ∧
    Config.make "A" (.int 1) [("A", .int 1, .int 2), ("B", .int 2, .int 2)] (.int 1) (.int 1)
      (.int 50) (.int 50) = .ok overwritingConfig ∧
    (Plan.simple overwritingPlan).obstacle? overwritingConfig.output = none ∧
    overwritingGraph.IsReachable ∧
    (∀ r ∈ overwritingPlan.factors, .char '@' ∉ r.name.symbols) ∧
    (∀ name ∈ overwritingConfig.output :: overwritingConfig.shapes.names, IsPublic name) ∧
    let g' := after (recompute (.simple overwritingPlan) overwritingConfig) overwritingGraph
    ∃ a ∈ g'.nodes, ∃ x, x ∈ g'.allDependencies a ∧ ¬(x = a ∨ x ∈ (g'.cell a).dependencies) := by
  let g' := after (recompute (.simple overwritingPlan) overwritingConfig) overwritingGraph
  have hwf : g'.IsWellFormed := (edits_recompute (.simple overwritingPlan) overwritingConfig
    overwritingGraph).isWellFormed isReachable_overwritingGraph.isWellFormed
  obtain ⟨hmem, hfirst, hsecond, hnot⟩ : "elem_6" ∈ g'.nodes ∧
      "elem_0" ∈ (g'.cell "elem_6").dependencies ∧ "elem_7" ∈ (g'.cell "elem_0").dependencies ∧
      ¬("elem_7" = "elem_6" ∨ "elem_7" ∈ (g'.cell "elem_6").dependencies) := by decide +kernel
  have hpath : "elem_7" ∈ g'.allDependencies "elem_6" :=
    (mem_allDependencies_iff_path hwf.toIsLinked).2 ⟨hmem, .tail (.single hfirst) hsecond⟩
  exact ⟨by decide +kernel, rfl, by decide +kernel, isReachable_overwritingGraph,
    by decide +kernel, by decide +kernel, "elem_6", hmem, "elem_7", hpath, hnot⟩

end Graph

end CellLineage
