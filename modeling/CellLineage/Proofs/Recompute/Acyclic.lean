import CellLineage.Proofs.Evaluation.Acyclic
import CellLineage.Proofs.Recompute.Input
import CellLineage.Proofs.Recompute.Iterative

/-!
# A recompute closes no cycle

A recompute starts from input matrices that derive from nothing. From there on evaluations keep the
graph tiered, and what they compute goes to matrices that are not there yet: the base cases assign
different matrices, none of which is input, and the recurrence goes on behind the last member that
is there. The one exception is an output that is the last matrix computed, which is copied to
itself.

All this needs names that evaluating does not write, and an output that is neither read nor computed
on the way. Otherwise matrices may be written from which others derive already, and there may be
cycles (`Graph.recompute_cyclic`).

## Main definitions

* `Graph.IsUnderway`: how far a run has come, and which matrices it is still to make.

## Main results

* `Graph.runBaseCases_ends`, `Graph.runRecurrence_ends`: the statements of a plan close no cycle.
* `Graph.recompute_isAcyclic`: neither does a recompute.
-/

namespace CellLineage

open Formula

namespace Graph

variable {g g' : Graph} {config : Config} {plan : Plan} {progress : Progress}
  {coming coming' : Set Text} {name : Text}

/-! ### The input -/

/-- A graph is rebuilt by making matrices from no sources. -/
theorem makes_rebuild (config : Config) (names : List Text) (g : Graph) :
    Relation.ReflTransGen (fun g₁ g₂ => ∃ name, Makes ∅ name g₁ g₂) g.clear
      (after (rebuild config names) g) := by
  have hrun : after (rebuild config names) g = after (names.forM fun name =>
      restoreInput config name (g.snapshot? name)) g.clear := rfl
  rw [hrun]
  refine steps_forM fun name _ g₁ _ => steps_get_bind ?_
  cases g.snapshot? name with
  | none => exact steps_liftGraph fun g₂ h => .single ⟨name, makes_initMatrix h⟩
  | some s => exact steps_liftGraph fun g₂ h => .single ⟨s.name, makes_restore h⟩

/-- The rebuilt graph has no edges. -/
theorem isTiered_rebuild (config : Config) (names : List Text) (g : Graph) :
    (after (rebuild config names) g).IsTiered Set.univ := by
  have hsteps := makes_rebuild config names g
  generalize after (rebuild config names) g = g' at hsteps
  induction hsteps with
  | refl => exact isTiered_empty g.stem
  | tail _ h ih =>
    obtain ⟨name, hmakes⟩ := h
    exact (hmakes.mono (Set.empty_subset _) : Makes (supply _ ∅) name _ _).isTiered ih
      (fun other ho => absurd ho (Set.notMem_empty other)) (Set.mem_univ name)

/-- The rebuilt graph holds no matrix but the named ones. -/
theorem notMem_matrices_rebuild (config : Config) (g : Graph) {names : List Text} (hname : name ∉ names) :
    name ∉ (after (rebuild config names) g).matrices := by
  have hwrites : Writes {name | name ∈ names} g.clear (after (rebuild config names) g) :=
    writes_rebuild g fun name hname => hname
  have hkeeps := hwrites.keeps (isWellFormed_empty g.stem) hname
  rw [Std.ExtTreeMap.mem_iff_isSome_getElem?, hkeeps.matrices]
  simp [clear, empty]

/-! ### Statements -/

/-- A run has come as far as `progress`. The graph is tiered by what evaluating may still write, the
matrices that are still to be made are not there, and the output only if it was computed. -/
structure IsUnderway (config : Config) (coming : Set Text) (progress : Progress) (g : Graph) :
    Prop where
  isTiered : g.IsTiered (pendingNames progress.occurrence g.temporaries)
  coming : ∀ name ∈ coming, IsPublic name ∧ name ∉ g.matrices
  output : config.output ∈ g.matrices → config.output ∈ progress.computed

theorem IsUnderway.mono (h : IsUnderway config coming progress g) (hc : coming' ⊆ coming) :
    IsUnderway config coming' progress g :=
  ⟨h.isTiered, fun name hname => h.coming name (hc hname), h.output⟩

theorem Keeps.mem_matrices_iff (h : g.Keeps g' name) : name ∈ g'.matrices ↔ name ∈ g.matrices := by
  rw [Std.ExtTreeMap.mem_iff_isSome_getElem?, Std.ExtTreeMap.mem_iff_isSome_getElem?, h.matrices]

/-- **Evaluating a statement** makes none of the matrices to come. -/
theorem evaluateStatement_ends (h : IsUnderway config coming progress g)
    (hout : IsPublic config.output) {p : Product} (hp : p.IsNamed) (n : Int) :
    Ends (fun a g' => IsUnderway config coming a.2 g') (evaluateStatement p n progress g) := by
  refine Ends.bind (g := g) (x := liftIndex (g.resolve p n))
    (ends_liftIndex h.isTiered.isAcyclic _) fun p' g₁ _ hresolve => ?_
  obtain ⟨hresolve, rfl⟩ := hresolve
  refine Ends.bind (evaluate_ends (hp.isPublic_of_resolve hresolve) h.isTiered)
    fun e g' hevaluate hsettles => ?_
  have hmem {name : Text} (hname : IsPublic name) : name ∈ g'.matrices ↔ name ∈ g₁.matrices := by
    have hwrites := writes_evaluate p' progress.occurrence g₁
    rw [after_of_ok hevaluate] at hwrites
    exact (hwrites.keeps h.isTiered.isWellFormed hname.notMem_generatedNames).mem_matrices_iff
  refine ⟨hsettles.isTiered, fun name hname => ?_, fun ho => h.output ((hmem hout).1 ho)⟩
  obtain ⟨hpublic, hnotMem⟩ := h.coming name hname
  exact ⟨hpublic, (hmem hpublic).not.2 hnotMem⟩

/-- **Recording a result** makes one of the matrices to come. -/
theorem record_ends (h : IsUnderway config coming progress g) (result : Text) (hname : name ∈ coming) :
    Ends (IsUnderway config (coming \ {name})) (record result name progress g) := by
  have hrun : record result name progress g =
      .ok { progress with computed := progress.computed ++ [name] }
        ((g.copy result name).getD g) := rfl
  rw [hrun]
  cases hcopy : g.copy result name with
  | none =>
    exact ⟨h.isTiered, fun other hother => h.coming other hother.1,
      fun ho => List.mem_append_left _ (h.output ho)⟩
  | some g' =>
    have hunread := isUnread_of_notMem (h.coming name hname).2
    have htiered := (h.isTiered.insert hunread).copy hcopy (Set.mem_insert _ _)
    have hw := (makes_copy hcopy fun s _ => g.supplies_univ false s).writesOnly
      h.isTiered.isWellFormed
    rw [← hw.temporaries] at htiered
    refine ⟨htiered.mono (Set.subset_insert _ _), fun other hother => ?_, fun ho => ?_⟩
    · obtain ⟨hpublic, hnotMem⟩ := h.coming other hother.1
      exact ⟨hpublic, (hw.keeps other hother.2).mem_matrices_iff.not.2 hnotMem⟩
    · by_cases he : config.output = name
      · exact List.mem_append_right _ (List.mem_singleton.2 he)
      · exact List.mem_append_left _ (h.output ((hw.keeps _ he).mem_matrices_iff.1 ho))

/-- **Base cases** that assign different matrices close no cycle. -/
theorem runBaseCases_ends {ss : List Statement} (h : IsUnderway config coming progress g)
    (hout : IsPublic config.output) (hfactors : ∀ s ∈ ss, ∀ r ∈ s.factors, r.IsNamed)
    (htargets : ∀ s ∈ ss, s.target.name ∈ coming) (hnodup : (ss.map (·.target.name)).Nodup) :
    Ends (IsUnderway config ∅) (runBaseCases ss progress g) := by
  induction ss generalizing progress g coming with
  | nil => exact h.mono (Set.empty_subset _)
  | cons s ss ih =>
    obtain ⟨hs, hss⟩ := List.forall_mem_cons.1 hfactors
    obtain ⟨ht, hts⟩ := List.forall_mem_cons.1 htargets
    obtain ⟨hnotMem, hnodup⟩ := List.nodup_cons.1 hnodup
    unfold runBaseCases
    cases hp : s.product? with
    | none => exact ih h hss hts hnodup
    | some p =>
      refine Ends.bind (evaluateStatement_ends h hout (Product.isNamed_of_ofFactors? hp hs) 0)
        fun a g₁ _ h₁ => ?_
      obtain ⟨result?, progress₁⟩ := a
      cases result? with
      | none => exact ih h₁ hss hts hnodup
      | some result =>
        refine Ends.bind (record_ends h₁ result ht) fun progress₂ g₂ _ h₂ => ?_
        refine ih h₂ hss (fun s' hs' => ⟨hts s' hs', fun he => hnotMem ?_⟩) hnodup
        exact List.mem_map.2 ⟨s', hs', he⟩

/-- **A recurrence** whose members are not there closes no cycle. -/
theorem runRecurrence_ends {target : Reference} {p : Product} {count : Nat} {index : Int}
    (h : IsUnderway config (membersFrom target.base index) progress g)
    (hout : IsPublic config.output) (hp : p.IsNamed) :
    Ends (IsUnderway config ∅) (runRecurrence target p count index progress g) := by
  induction count generalizing progress g index with
  | zero => exact h.mono (Set.empty_subset _)
  | succ count ih =>
    refine Ends.bind (evaluateStatement_ends h hout hp _) fun a g₁ _ h₁ => ?_
    obtain ⟨result?, progress₁⟩ := a
    cases result? with
    | none => exact h₁.mono (Set.empty_subset _)
    | some result =>
      have hmember : ∀ name, memberName? target.base index = .ok name →
          name = memberName target.base index := fun _ => eq_memberName_of_memberName?
      dsimp only
      -- whether an index may be shown is not to be computed: the bound is a number of 4301 digits
      generalize memberName? target.base index = name? at hmember ⊢
      refine Ends.bind (x := liftIndex name?) (ends_liftIndex h₁.isTiered.isAcyclic name?)
        fun name g₂ _ hname => ?_
      obtain ⟨hname, rfl⟩ := hname
      obtain rfl := hmember name hname
      refine Ends.bind (record_ends h₁ result ⟨index, Int.le_refl index, rfl⟩)
        fun progress₂ g₂ _ h₂ => ?_
      exact ih (h₂.mono (membersFrom_succ_subset target.base index))

theorem applyRecurrence_ends {p : IterativePlan} (h : IsUnderway config ∅ progress g)
    (hout : IsPublic config.output) (htarget : ∀ s ∈ p.statements, IsBase s.target.base)
    (hfactors : ∀ s ∈ p.statements, ∀ r ∈ s.factors, r.IsNamed) :
    Ends (IsUnderway config ∅) (applyRecurrence p config progress g) := by
  rcases applyRecurrence_cases p config progress g with hrun | ⟨e, hrun⟩ |
    ⟨s, q, index, count, hs, hq, hindex, hrun⟩
  · rw [hrun]
    exact h
  · rw [hrun]
    exact h.isTiered.isAcyclic
  · have hmem : s ∈ p.statements := List.mem_append_right _ (by simp [hs])
    rw [hrun]
    refine runRecurrence_ends ⟨h.isTiered, fun name hname => ?_, h.output⟩ hout
      (Product.isNamed_of_ofFactors? hq (hfactors s hmem))
    refine ⟨?_, notMem_matrices_of_nextIndex hindex hname⟩
    obtain ⟨k, -, rfl⟩ := hname
    exact isPublic_memberName (htarget s hmem) k

/-! ### Plans -/

/-- **The statements of a plan** close no cycle. -/
theorem runStatements_ends {p : IterativePlan} (hwritten : p.IsWritten)
    (hfactors : ∀ s ∈ p.statements, ∀ r ∈ s.factors, r.IsNamed) (hnodup : p.targetNames.Nodup)
    (hout : IsPublic config.output)
    (hstart : IsUnderway config {name | name ∈ p.targetNames} ⟨0, [], []⟩ g) :
    Ends (IsUnderway config ∅) (runStatements p config g) := by
  rw [runStatements_eq]
  refine Ends.bind (runBaseCases_ends hstart hout
    (fun s hs => hfactors s (List.mem_append_left _ hs))
    (fun s hs => List.mem_map_of_mem (f := fun s : Statement => s.target.name) hs) hnodup)
    fun progress g₁ _ h₁ => ?_
  exact applyRecurrence_ends h₁ hout (fun s hs => (hwritten s hs).1) hfactors

/-- An output that is there and was not computed on the way is the last matrix computed. -/
theorem IsUnderway.getLast?_computed (h : IsUnderway config coming progress g)
    (hmem : config.output ∈ g.matrices) (hlast : config.output ∉ progress.computed.dropLast) :
    progress.computed.getLast? = some config.output := by
  have hcomputed := h.output hmem
  rcases List.eq_nil_or_concat' progress.computed with hc | ⟨earlier, last, hc⟩
  · rw [hc] at hcomputed
    exact absurd hcomputed List.not_mem_nil
  · rw [hc] at hcomputed hlast ⊢
    rw [List.dropLast_concat] at hlast
    have he := (List.mem_append.1 hcomputed).resolve_left hlast
    rw [List.getLast?_concat, List.mem_singleton.1 he]

/-- The references of a plan are named as the grammar wants it, if none of their names holds an at
sign. -/
theorem isNamed_references {formula : Text} (hread : Plan.read formula = .ok plan)
    (hnames : ∀ r ∈ plan.references, .char '@' ∉ r.name.symbols) :
    ∀ r ∈ plan.references, r.IsNamed := by
  intro r hr
  have hbase : IsBase r.base := by
    cases plan with
    | simple p => exact Plan.isBase_of_read hread r hr
    | iterative p =>
      obtain ⟨s, hs, hr⟩ := List.mem_flatMap.1 hr
      exact (Plan.isWritten_of_read hread s hs).2 r hr
  exact ⟨hbase, isPublic_name hbase (hnames r hr)⟩

/-- A run of statements begins with the targets of the base cases still to be made. -/
theorem isUnderway_start {formula : Text} {p : IterativePlan}
    (hread : Plan.read formula = .ok (.iterative p))
    (htargets : ∀ name ∈ p.targetNames, .char '@' ∉ name.symbols ∧ name ∉ g.matrices)
    (hg : g.IsTiered Set.univ) (hnotMem : config.output ∉ g.matrices) :
    IsUnderway config {name | name ∈ p.targetNames} ⟨0, [], []⟩ g := by
  refine ⟨hg.mono (Set.subset_univ _), fun name hname => ?_, fun ho => absurd ho hnotMem⟩
  obtain ⟨hat, habsent⟩ := htargets name hname
  obtain ⟨s, hs, rfl⟩ := List.mem_map.1 hname
  have hbase := (Plan.isWritten_of_read hread s (List.mem_append_left _ hs)).1
  exact ⟨isPublic_name hbase hat, habsent⟩

/-- **Evaluating a plan** closes no cycle. If the output is there at the end and was not computed on
the way, it is the last matrix computed. -/
theorem evaluatePlan_ends {formula : Text} (hread : Plan.read formula = .ok plan)
    (hnames : ∀ r ∈ plan.references, .char '@' ∉ r.name.symbols)
    (htargets : ∀ name ∈ plan.targetNames, .char '@' ∉ name.symbols ∧ name ∉ g.matrices)
    (hnodup : plan.targetNames.Nodup) (hout : IsPublic config.output)
    (hg : g.IsTiered Set.univ) (hnotMem : config.output ∉ g.matrices) :
    Ends (fun results g' => g'.IsTiered ∅ ∧ (config.output ∈ g'.matrices →
      config.output ∉ results.computed.dropLast → results.result? = some config.output))
      (evaluatePlan config plan g) := by
  have hnamed := isNamed_references hread hnames
  cases plan with
  | simple p =>
    rw [evaluatePlan]
    cases hp : p.product? with
    | none => exact ⟨hg.mono (Set.empty_subset _), fun ho => absurd ho hnotMem⟩
    | some q =>
      have hq := Product.isNamed_of_ofFactors? hp hnamed
      refine Ends.bind (evaluate_ends (fun r hr => (hq r hr).2) (hg.mono (Set.subset_univ _)))
        fun e g' hrun hsettles => ?_
      have hkeeps := (writes_evaluate q 0 g).keeps hg.isWellFormed hout.notMem_generatedNames
      rw [after_of_ok hrun] at hkeeps
      exact ⟨hsettles.isTiered.mono (Set.empty_subset _),
        fun ho => absurd (hkeeps.mem_matrices_iff.1 ho) hnotMem⟩
  | iterative p =>
    refine Ends.bind (runStatements_ends (Plan.isWritten_of_read hread)
      (fun s hs r hr => hnamed r (List.mem_flatMap.2 ⟨s, hs, hr⟩)) hnodup hout
      (isUnderway_start hread htargets hg hnotMem)) fun progress g' _ h => ?_
    exact ⟨h.isTiered.mono (Set.empty_subset _), h.getLast?_computed⟩

/-- **Making the output** closes no cycle, if it is not there or is the result itself. -/
theorem isAcyclic_finish (h : g.IsTiered ∅) (previous : Option (Nat × Nat)) {result? : Option Text}
    (hresult : ∀ result, result? = some result → config.output ∈ g.matrices →
      result = config.output) : (after (finish config previous result?) g).IsAcyclic := by
  cases result? with
  | some result =>
    have hrun : after (finish config previous (some result)) g =
        (g.copy result config.output).getD g := rfl
    rw [hrun]
    cases hcopy : g.copy result config.output with
    | none => exact h.isAcyclic
    | some g' =>
      by_cases hmem : config.output ∈ g.matrices
      · obtain rfl := hresult result rfl hmem
        exact h.isAcyclic.of_makes (makes_copy_self h.isWellFormed hcopy)
      · exact ((h.insert (isUnread_of_notMem hmem)).copy hcopy (Set.mem_insert _ _)).isAcyclic
  | none =>
    cases previous with
    | none => exact h.isAcyclic
    | some shape =>
      have hrun : after (finish config (some shape) none) g =
          after (if g.hasMatrix config.output then pure ()
            else liftGraph (g.initMatrix config.output shape.1 shape.2)) g := rfl
      rw [hrun]
      split
      · exact h.isAcyclic
      · cases hinit : g.initMatrix config.output shape.1 shape.2 with
        | error e => exact h.isAcyclic
        | ok g' => exact h.isAcyclic.of_makes (makes_initMatrix hinit)

/-- **A recompute closes no cycle**, also if it stops part-way. The matrices that the formula names
are to have no names that evaluating gives, its base cases are to assign different matrices, and the
output is to be no matrix that it reads, or computes before the last one. If the input matrices
cannot be told, the graph stays as it is. -/
theorem recompute_isAcyclic {formula : Text} (hread : Plan.read formula = .ok plan)
    (hobstacle : plan.obstacle? config.output = none)
    (hnames : ∀ r ∈ plan.references, .char '@' ∉ r.name.symbols)
    (htargets : ∀ name ∈ plan.targetNames, .char '@' ∉ name.symbols)
    (hnodup : plan.targetNames.Nodup)
    (hout : IsPublic config.output) (hunread : config.output ∉ plan.baseMatrices)
    (hlast : ∀ o g', recompute plan config g = .ok o g' → config.output ∉ o.computed.dropLast) :
    (∃ e, inputNames plan config = .error e ∧ recompute plan config g = .error (.index e) g) ∨
      (after (recompute plan config) g).IsAcyclic := by
  cases hinput : inputNames plan config with
  | error e => exact .inl ⟨e, rfl, recompute_of_inputNames_error hobstacle hinput⟩
  | ok inputs =>
    have hrun := recompute_of_inputNames (g := g) hobstacle hinput
    have hafter : after (recompute plan config) g = after (do
        rebuild config inputs
        runPlan config (g.shape? config.output) plan) g := by simp only [after, hrun]
    have htiered := isTiered_rebuild config inputs g
    have hinputs {name : Text} (hname : name ∉ inputs) :=
      notMem_matrices_rebuild config g hname
    refine .inr ?_
    cases hrebuild : rebuild config inputs g with
    | error e g₀ =>
      rw [after_of_error hrebuild] at htiered
      rw [hafter, after_of_error (bind_eq_of_error hrebuild)]
      exact htiered.isAcyclic
    | ok u g₀ =>
      rw [after_of_ok hrebuild] at htiered hinputs
      rw [bind_eq_of_ok hrebuild, runPlan_eq] at hrun
      rw [hafter, after_bind_of_ok hrebuild, runPlan_eq]
      have heval := evaluatePlan_ends hread hnames
        (fun name hname => ⟨htargets name hname,
          hinputs fun hmem => (of_mem_inputNames hinput hmem).1 hname⟩) hnodup hout htiered
        (hinputs fun hmem => hunread ((of_mem_inputNames hinput hmem).2 rfl))
      cases hrun₁ : evaluatePlan config plan g₀ with
      | error e g₁ =>
        rw [hrun₁] at heval
        rwa [after_of_error (bind_eq_of_error hrun₁)]
      | ok results g₁ =>
        rw [hrun₁] at heval
        obtain ⟨htiered₁, hout₁⟩ := heval
        rw [after_bind_of_ok hrun₁, after_bind_of_after_eq fun _ => after_outcome config _ _]
        refine isAcyclic_finish htiered₁ _ fun result hresult hmem => ?_
        obtain ⟨g₂, hfinish⟩ : ∃ g₂, finish config (g.shape? config.output) results.result? g₁ =
            .ok () g₂ := by
          rw [hresult]
          exact ⟨_, rfl⟩
        obtain ⟨o, houtcome, hcomputed, -⟩ :=
          outcome_spec config results.computed results.issues g₂
        rw [bind_eq_of_ok hrun₁, bind_eq_of_ok hfinish, houtcome] at hrun
        have hsame := hout₁ hmem (hcomputed ▸ hlast o g₂ hrun)
        rw [hresult] at hsame
        exact Option.some.inj hsame

/-- Settings in which the output is the member that the one iteration computes. -/
def memberConfig : Config :=
  ⟨"K_1", some 1, [], (2, 2)⟩

/-- A graph in which `A` has one cell only. -/
def unitGraph : Graph :=
  runAll "elem" [.initMatrix "A" 1 1, .update "A" 0 0 (.int 1) none none none]

/-- The output may be the last matrix computed. -/
theorem recompute_isAcyclic_sample :
    (after (recompute (.iterative powerPlan) memberConfig) unitGraph).IsAcyclic := by
  have hread : Plan.read "K_0=A,K_\x7bn+1\x7d=A*K_n" = .ok (.iterative powerPlan) := by
    decide +kernel
  have hcomputed : (match recompute (.iterative powerPlan) memberConfig unitGraph with
      | .ok o _ => o.computed
      | .error _ _ => []) = (["K_0", "K_1"] : List Text) := by decide +kernel
  have hlast : ∀ o g', recompute (.iterative powerPlan) memberConfig unitGraph = .ok o g' →
      memberConfig.output ∉ o.computed.dropLast := by
    intro o g' hrun
    rw [hrun] at hcomputed
    rw [show o.computed = (["K_0", "K_1"] : List Text) from hcomputed]
    decide
  rcases recompute_isAcyclic hread (by decide +kernel) (by decide +kernel) (by decide +kernel)
    (by decide +kernel) (by decide +kernel) (by decide +kernel) hlast with ⟨e, he, -⟩ | h
  · cases he
  · exact h

/-! ### Cycles -/

/-- The plan of `K_0=A,K_0=K_0`, which assigns a matrix twice. -/
def repeatedPlan : IterativePlan where
  baseCases := [⟨⟨"K", .number 0, false, 0⟩, [⟨"A", .absent, false, 0⟩], "K_0=A"⟩,
    ⟨⟨"K", .number 0, false, 0⟩, [⟨"K", .number 0, false, 0⟩], "K_0=K_0"⟩]
  recurrence? := none
  constants := []
  explicit := ["K_0", "K_0", "K_0"]
  replaced := []
  fault? := none
  text := "K_0=A,K_0=K_0"

/-- **Some recomputes close cycles.** A base case may read the matrix that it assigns, and a formula
may read the output by a relative index. -/
theorem recompute_cyclic :
    (Plan.read "K_0=A,K_0=K_0" = .ok (.iterative repeatedPlan) ∧
      Config.make "O" (.int 3) [] (.int 2) (.int 2) (.int 50) (.int 50) = .ok powerConfig ∧
      (Plan.iterative repeatedPlan).obstacle? powerConfig.output = none ∧
      unitGraph.IsReachable ∧
      ¬(after (recompute (.iterative repeatedPlan) powerConfig) unitGraph).IsAcyclic) ∧
    (Plan.read "A_n*B" = .ok (.simple overwritingPlan) ∧
      Config.make "A" (.int 1) [("A", .int 1, .int 2), ("B", .int 2, .int 2)] (.int 1) (.int 1)
        (.int 50) (.int 50) = .ok overwritingConfig ∧
      (Plan.simple overwritingPlan).obstacle? overwritingConfig.output = none ∧
      overwritingGraph.IsReachable ∧
      ¬(after (recompute (.simple overwritingPlan) overwritingConfig) overwritingGraph).IsAcyclic) := by
  refine ⟨⟨by decide +kernel, rfl, by decide +kernel, ⟨"elem", _, rfl⟩, fun h => ?_⟩,
    ⟨by decide +kernel, rfl, by decide +kernel, isReachable_overwritingGraph, fun h => ?_⟩⟩
  · have hself : "elem_2" ∈ ((after (recompute (.iterative repeatedPlan) powerConfig)
        unitGraph).cell "elem_2").dependencies := by decide +kernel
    exact h "elem_2" (.single hself)
  · -- the two cells of the output derive from each other
    have hfirst : "elem_1" ∈ ((after (recompute (.simple overwritingPlan) overwritingConfig)
        overwritingGraph).cell "elem_0").dependencies := by decide +kernel
    have hsecond : "elem_0" ∈ ((after (recompute (.simple overwritingPlan) overwritingConfig)
        overwritingGraph).cell "elem_1").dependencies := by decide +kernel
    exact h "elem_0" (.tail (.single hfirst) hsecond)

end Graph

end CellLineage
