import CellLineage.Proofs.Recompute.Simple

/-!
# The input of a recompute stays

A recompute makes its input matrices anew, painted as before, and then only writes other matrices.
Evaluating writes generated names only, and copying a result writes the target of a base case, a
member of the family of the recurrence, or the output. The first are no input matrices, and the
recurrence goes on behind the last member that is there. So what remains to be asked for is that no
input matrix has a generated name, which takes a subscript with an at sign, and that the output is
none of them.

## Main definitions

* `Formula.Plan.targetNames`: the matrices that the base cases of a plan assign.

## Main results

* `exists_inputNames`: when the input of a formula is just what it reads.
* `Graph.exists_writes_evaluatePlan`: what evaluating a plan leaves alone.
* `Graph.recompute_keeps_input`: what is painted on the input matrices survives a recompute.
-/

namespace CellLineage

namespace Formula

/-- The names of the matrices that the base cases of a plan assign. -/
def Plan.targetNames : Plan → List Text
  | .simple _ => []
  | .iterative p => p.targetNames

end Formula

open Formula

variable {plan : Plan} {config : Config} {names : List Text} {name : Text}

/-! ### The names of input matrices -/

theorem subset_of_withoutMembers {kept families : List Text}
    (h : withoutMembers names families = .ok kept) : kept ⊆ names := by
  induction families generalizing names with
  | nil =>
    cases h
    exact fun _ hname => hname
  | cons family families ih =>
    obtain ⟨members, -, h⟩ := exists_of_bind_eq_ok h
    exact fun _ hname => (List.mem_filter.1 (ih h hname)).1

/-- The input matrices are those that the plan reads and some declared ones, which are neither the
output nor the target of a base case. -/
theorem exists_of_inputNames (h : inputNames plan config = .ok names) :
    ∃ kept, names = sortedNames (kept ++ plan.baseMatrices) ∧
      ∀ name ∈ kept, name ≠ config.output ∧ name ∉ plan.targetNames := by
  cases plan with
  | simple p =>
    cases h
    refine ⟨_, rfl, fun name hname => ⟨?_, List.not_mem_nil⟩⟩
    simpa using (List.mem_filter.1 hname).2
  | iterative p =>
    obtain ⟨kept, hkept, h⟩ := exists_of_bind_eq_ok h
    cases h
    refine ⟨kept, rfl, fun name hname => ?_⟩
    obtain ⟨hname, htarget⟩ := List.mem_filter.1 (subset_of_withoutMembers hkept hname)
    exact ⟨by simpa using (List.mem_filter.1 hname).2, of_decide_eq_true htarget⟩

theorem mem_inputNames_of_mem_baseMatrices (h : inputNames plan config = .ok names)
    (hname : name ∈ plan.baseMatrices) : name ∈ names := by
  obtain ⟨kept, rfl, -⟩ := exists_of_inputNames h
  exact mem_sortedNames.2 (List.mem_append_right _ hname)

theorem notMem_targetNames_of_mem_baseMatrices (hname : name ∈ plan.baseMatrices) :
    name ∉ plan.targetNames := by
  unfold Plan.baseMatrices at hname
  split at hname
  · exact absurd hname List.not_mem_nil
  · cases plan with
    | simple p => exact List.not_mem_nil
    | iterative p => exact of_decide_eq_true (List.mem_filter.1 hname).2

/-- An input matrix is not the target of a base case, and only one that the plan reads may be the
output. -/
theorem of_mem_inputNames (h : inputNames plan config = .ok names) (hname : name ∈ names) :
    name ∉ plan.targetNames ∧ (name = config.output → name ∈ plan.baseMatrices) := by
  obtain ⟨kept, rfl, hkept⟩ := exists_of_inputNames h
  rcases List.mem_append.1 (mem_sortedNames.1 hname) with hname | hname
  · obtain ⟨hne, htarget⟩ := hkept name hname
    exact ⟨htarget, fun he => absurd he hne⟩
  · exact ⟨notMem_targetNames_of_mem_baseMatrices hname, fun _ => hname⟩

/-- Only the members of the families are left out, as long as formulas name all names. -/
theorem exists_withoutMembers {families : List Text} (hfamilies : ∀ family ∈ families, IsBase family)
    (hnames : ∀ name ∈ names, ∃ r : Reference, r.IsRead ∧ name = r.name) :
    ∃ kept, withoutMembers names families = .ok kept := by
  induction families generalizing names with
  | nil => exact ⟨names, rfl⟩
  | cons family families ih =>
    obtain ⟨hfamily, hfamilies⟩ := List.forall_mem_cons.1 hfamilies
    obtain ⟨indices, hindices⟩ := exists_memberIndices hfamily hnames
    rw [withoutMembers, hindices]
    exact ih hfamilies fun name hname => hnames name (List.mem_filter.1 hname).1

/-- **The input of a formula** is known if only matrices that the formula reads are declared: it is
the matrices that it reads. -/
theorem exists_inputNames {formula : Text} (hread : Plan.read formula = .ok plan)
    (hkeys : ∀ name ∈ config.shapes.names, name ∈ plan.baseMatrices) :
    ∃ names, inputNames plan config = .ok names ∧ ∀ name, name ∈ names ↔ name ∈ plan.baseMatrices := by
  have hall (kept : List Text) (hkept : kept ⊆ config.shapes.names) (name : Text) :
      name ∈ sortedNames (kept ++ plan.baseMatrices) ↔ name ∈ plan.baseMatrices := by
    rw [mem_sortedNames, List.mem_append]
    exact or_iff_right_of_imp fun hname => hkeys name (hkept hname)
  have hdeclared : config.shapes.names.filter (· != config.output) ⊆ config.shapes.names :=
    List.filter_sublist.subset
  cases plan with
  | simple p => exact ⟨_, rfl, hall _ hdeclared⟩
  | iterative p =>
    have hothers : (config.shapes.names.filter (· != config.output)).filter (· ∉ p.targetNames) ⊆
        config.shapes.names := fun name hname => hdeclared (List.filter_sublist.subset hname)
    have hfamilies : ∀ family ∈ p.families, IsBase family := by
      intro family hfamily
      obtain ⟨s, hs, rfl⟩ := List.mem_map.1 hfamily
      exact (Plan.isWritten_of_read hread s hs).1
    obtain ⟨kept, hkept⟩ := exists_withoutMembers hfamilies fun name hname =>
      Plan.exists_isRead_of_mem_baseMatrices hread (hkeys name (hothers hname))
    refine ⟨sortedNames (kept ++ (Plan.iterative p).baseMatrices), ?_, hall kept fun name hname =>
      hothers (subset_of_withoutMembers hkept hname)⟩
    rw [inputNames]
    simp only [hkept]
    rfl

/-- The input matrices that a formula reads have no generated names unless one holds an at sign. -/
theorem notMem_generatedNames_of_mem_baseMatrices {formula : Text}
    (hread : Plan.read formula = .ok plan) (hname : name ∈ plan.baseMatrices)
    (hat : .char '@' ∉ name.symbols) : name ∉ generatedNames := by
  obtain ⟨r, hr, rfl⟩ := Plan.exists_isRead_of_mem_baseMatrices hread hname
  exact (isPublic_name hr.isBase hat).notMem_generatedNames

namespace Graph

variable {g g' : Graph}

/-! ### What is written after the input was rebuilt -/

/-- **Evaluating a plan** writes no matrix that is there, but for those of generated names and the
targets of its base cases. -/
theorem exists_writes_evaluatePlan (hg : g.IsWellFormed) (plan : Plan) (config : Config) :
    ∃ written : Set Text, Writes written g (after (evaluatePlan config plan) g) ∧
      ∀ name, name ∉ generatedNames → name ∉ plan.targetNames → name ∈ g.matrices → name ∉ written := by
  cases plan with
  | simple p =>
    refine ⟨generatedNames, ?_, fun name hname _ _ => hname⟩
    rw [evaluatePlan]
    cases p.product? with
    | none => exact steps_bind (steps_pure _) fun _ _ _ => steps_pure _
    | some p => exact steps_bind (writes_evaluate p 0 g) fun _ _ _ => steps_pure _
  | iterative p =>
    let targets : Set Text := {name | name ∈ p.targetNames}
    have hbase : Writes (generatedNames ∪ targets) g (after (runBaseCases p.baseCases ⟨0, [], []⟩) g) :=
      writes_runBaseCases _ g Set.subset_union_left fun s hs =>
        .inr (List.mem_map_of_mem (f := fun s : Statement => s.target.name) hs)
    have hkept {name : Text} (hname : name ∉ generatedNames) (htarget : name ∉ p.targetNames) :
        name ∉ generatedNames ∪ targets := fun h => h.elim hname htarget
    cases hrun : runBaseCases p.baseCases ⟨0, [], []⟩ g with
    | error e g₁ =>
      rw [after_of_error hrun] at hbase
      refine ⟨generatedNames ∪ targets, ?_, fun name hname htarget _ => hkept hname htarget⟩
      have hstop : evaluatePlan config (.iterative p) g = .error e g₁ :=
        bind_eq_of_error (bind_eq_of_error hrun)
      rwa [after_of_error hstop]
    | ok progress g₁ =>
      rw [after_of_ok hrun] at hbase
      -- the members that the recurrence may write are those that are not there when it starts
      let members : Set Text := {name | name ∉ g₁.matrices}
      refine ⟨generatedNames ∪ targets ∪ members, ?_, fun name hname htarget hmem => ?_⟩
      · have hrec : Writes (generatedNames ∪ members) g₁
            (after (applyRecurrence p config progress) g₁) :=
          writes_applyRecurrence config progress Set.subset_union_left
            fun s _ index hindex name hname => .inr (notMem_matrices_of_nextIndex hindex hname)
        have hall : Writes (generatedNames ∪ targets ∪ members) g
            (after (runStatements p config) g) := by
          rw [runStatements_eq]
          refine steps_bind ?_ fun progress' g₂ hrun' => ?_
          · rw [after_of_ok hrun]
            exact hbase.mono Set.subset_union_left
          · rw [hrun] at hrun'
            cases hrun'
            exact hrec.mono (Set.union_subset_union_left _ Set.subset_union_left)
        exact steps_bind hall fun _ _ _ => steps_pure _
      · refine fun h => h.elim (hkept hname htarget) fun hnot => hnot ?_
        have hkeeps := hbase.keeps hg (hkept hname htarget)
        rw [Std.ExtTreeMap.mem_iff_isSome_getElem?] at hmem ⊢
        rw [hkeeps.matrices]
        exact hmem

/-- What is written after the input was rebuilt leaves the input matrices as they were painted, but
for those of generated names and the output. -/
theorem exists_writes_recompute (hconfig : config.HasCells) (hg : g.IsWellFormed)
    (hobstacle : plan.obstacle? config.output = none) (hnames : inputNames plan config = .ok names) :
    ∃ g₀ written, rebuild config names g = .ok () g₀ ∧
      Writes written g₀ (after (recompute plan config) g) ∧
      ∀ name ∈ names, name ∉ generatedNames → name ≠ config.output →
        name ∉ written ∧ g.PaintedFrom (after (recompute plan config) g) name
          (g.inputShape config name) := by
  obtain ⟨g₀, hrebuild, hwf, -, -, hpainted⟩ :=
    rebuild_spec hconfig hg.toIsMinted (nodup_of_inputNames hnames)
  obtain ⟨written, heval, hkept⟩ := exists_writes_evaluatePlan hwf plan config
  have hafter : after (recompute plan config) g =
      after (runPlan config (g.shape? config.output) plan) g₀ := by
    simp only [after, recompute_eq hobstacle hnames hrebuild]
  have hrun : Writes (written ∪ {config.output}) g₀ (after (recompute plan config) g) := by
    rw [hafter]
    exact writes_runPlan (heval.mono Set.subset_union_left) (.inr rfl)
  refine ⟨g₀, written ∪ {config.output}, hrebuild, hrun, fun name hname hgenerated hne => ?_⟩
  have hmem : name ∈ g₀.matrices := by
    obtain ⟨b, hb, -⟩ := hpainted name hname
    rw [Std.ExtTreeMap.mem_iff_isSome_getElem?, hb, Option.isSome_some]
  have hnotMem : name ∉ written ∪ {config.output} := fun h =>
    h.elim (hkept name hgenerated (of_mem_inputNames hnames hname).1 hmem) hne
  exact ⟨hnotMem, (hpainted name hname).of_keeps (hrun.keeps hwf hnotMem)⟩

/-- **Painted input survives a recompute.** If no matrix that the formula reads has a generated name
or is the output, then after a recompute each of them has the shape that was declared, or else the
one it had, or else the default; inside of its old shape it is painted as before, and elsewhere
blank, and its cells derive from nothing. Nothing that is written after the
input was rebuilt goes to one of these matrices. All this also holds of a recompute that stops
part-way. A recompute whose input cannot be told leaves the graph as it is. -/
theorem recompute_keeps_input {output : Text}
    {iterations rows cols sizeLimit iterationLimit : Datum} {sizes : Association (Datum × Datum)}
    (hconfig : Config.make output iterations sizes rows cols sizeLimit iterationLimit = .ok config)
    (hobstacle : plan.obstacle? config.output = none)
    (hgenerated : ∀ name ∈ plan.baseMatrices, name ∉ generatedNames)
    (hout : config.output ∉ plan.baseMatrices) (hg : g.IsReachable) :
    (∃ e, inputNames plan config = .error e ∧ recompute plan config g = .error (.index e) g) ∨
    ∃ names g₀ written, inputNames plan config = .ok names ∧ rebuild config names g = .ok () g₀ ∧
      Writes written g₀ (after (recompute plan config) g) ∧
      ∀ name ∈ plan.baseMatrices, name ∉ written ∧
        g.PaintedFrom (after (recompute plan config) g) name (g.inputShape config name) := by
  cases hnames : inputNames plan config with
  | error e => exact .inl ⟨e, rfl, recompute_of_inputNames_error hobstacle hnames⟩
  | ok names =>
    obtain ⟨g₀, written, hrebuild, hwrites, hkept⟩ :=
      exists_writes_recompute (Config.hasCells_of_make hconfig).2 hg.isWellFormed hobstacle hnames
    refine .inr ⟨names, g₀, written, rfl, hrebuild, hwrites, fun name hname => ?_⟩
    exact hkept name (mem_inputNames_of_mem_baseMatrices hnames hname)
      (hgenerated name hname) fun he => hout (he ▸ hname)

/-- In the sample `B` has grown: what was painted on it is still there, and the new cell is blank. -/
theorem recompute_keeps_input_sample :
    sampleGraph.PaintedFrom (after (recompute (.simple samplePlan) sampleConfig) sampleGraph) "B"
      (1, 2) ∧ (sampleGraph.paintAt "B" 0 0).value.toInt = 3 ∧
      (sampleGraph.paintAt "B" 0 1).value.toInt = 0 := by
  have hread : Plan.read "A*B^T*A" = .ok (.simple samplePlan) := by decide +kernel
  have hconfig : Config.make "O" (.int 1) [("A", .int 1, .int 2), ("B", .int 1, .int 2)] (.int 3)
      (.int 3) (.int 50) (.int 50) = .ok sampleConfig := rfl
  have hshape : sampleGraph.inputShape sampleConfig "B" = (1, 2) := by decide +kernel
  refine ⟨?_, by decide +kernel, by decide +kernel⟩
  have hat : ∀ name ∈ (Plan.simple samplePlan).baseMatrices, .char '@' ∉ name.symbols := by
    decide +kernel
  rcases recompute_keeps_input hconfig (by decide +kernel)
    (fun name hname => notMem_generatedNames_of_mem_baseMatrices hread hname (hat name hname))
    (by decide +kernel) isReachable_sampleGraph with ⟨e, he, -⟩ | ⟨names, g₀, written, -, -, -, h⟩
  · cases he
  · rw [← hshape]
    exact (h "B" (by decide +kernel)).2

/-! ### Input that is overwritten -/

/-- The plan of `A_x*A_{x@0}`, whose second factor is named as the instance of the first. -/
def clashingPlan : SimplePlan where
  factors := [⟨"A", .label "x", false, 0⟩, ⟨"A", .label "x@0", false, 4⟩]
  fault? := none
  text := "A_x*A_\x7bx@0\x7d"

def clashingConfig : Config :=
  ⟨"O", some 1, [], (1, 1)⟩

def clashingGraph : Graph :=
  runAll "elem" [.initMatrix "A_x" 1 1, .update "A_x" 0 0 (.int 1) none none none,
    .initMatrix "A_x@0" 1 1, .update "A_x@0" 0 0 (.int 5) none none none]

/-- **Painted input does not survive every recompute.** A factor with a relative index may read the
output, which is not reported, and then the result replaces what is painted there. And an instance
replaces an input matrix of its name. -/
theorem input_overwritten :
    (Plan.read "A_n*B" = .ok (.simple overwritingPlan) ∧
      Config.make "A" (.int 1) [("A", .int 1, .int 2), ("B", .int 2, .int 2)] (.int 1) (.int 1)
        (.int 50) (.int 50) = .ok overwritingConfig ∧
      (Plan.simple overwritingPlan).obstacle? overwritingConfig.output = none ∧
      overwritingGraph.IsReachable ∧ ("A" : Text) ∈ (Plan.simple overwritingPlan).baseMatrices ∧
      ¬overwritingGraph.PaintedFrom
        (after (recompute (.simple overwritingPlan) overwritingConfig) overwritingGraph) "A"
        (overwritingGraph.inputShape overwritingConfig "A")) ∧
    (Plan.read "A_x*A_\x7bx@0\x7d" = .ok (.simple clashingPlan) ∧
      Config.make "O" (.int 1) [] (.int 1) (.int 1) (.int 50) (.int 50) = .ok clashingConfig ∧
      (Plan.simple clashingPlan).obstacle? clashingConfig.output = none ∧
      clashingGraph.IsReachable ∧ ("A_x@0" : Text) ∈ (Plan.simple clashingPlan).baseMatrices ∧
      ¬clashingGraph.PaintedFrom
        (after (recompute (.simple clashingPlan) clashingConfig) clashingGraph) "A_x@0"
        (clashingGraph.inputShape clashingConfig "A_x@0")) := by
  constructor
  · refine ⟨by decide +kernel, rfl, by decide +kernel, isReachable_overwritingGraph,
      by decide +kernel, fun h => ?_⟩
    -- the cells of the output derive from those of the product
    have hid : (after (recompute (.simple overwritingPlan) overwritingConfig)
        overwritingGraph).idAt? "A" (0 : Nat) (0 : Nat) = some "elem_0" := by decide +kernel
    have hdeps : ((after (recompute (.simple overwritingPlan) overwritingConfig)
        overwritingGraph).cell "elem_0").dependencies ≠ [] := by decide +kernel
    exact hdeps (h.dependencies_eq hid)
  · refine ⟨by decide +kernel, rfl, by decide +kernel, ⟨"elem", _, rfl⟩, by decide +kernel,
      fun h => ?_⟩
    have hpaint := h.paintAt_eq (i := 0) (j := 0) (by decide +kernel) (by decide +kernel)
    have hne : ((after (recompute (.simple clashingPlan) clashingConfig)
        clashingGraph).paintAt "A_x@0" 0 0).value.toInt ≠
          (clashingGraph.paintAt "A_x@0" 0 0).value.toInt := by decide +kernel
    exact hne (congrArg (fun p => p.value.toInt) hpaint)

end Graph

end CellLineage
