import CellLineage.Proofs.Graph.Mint
import CellLineage.Proofs.Recompute.Input

/-!
# Recomputing again

What a recompute leaves depends on little of the graph before it: on the ids that it mints, on what
is painted on the input matrices in the shape that they are to have, and, if there is no result, on
the shape of the output. So graphs of any history that agree on this much end up as the same graph.
A recompute does not change any of it as long as its input survives. Hence a second recompute leaves
the same graph and reports the same.

## Main definitions

* `Graph.AgreesOn`: two graphs make the same of an input matrix.

## Main results

* `Graph.rebuild_congr`: graphs that agree on the input are rebuilt to the same graph.
* `Graph.runPlan_previous`: the shape of the output that a run leaves serves as well as the former
  one.
* `Graph.recompute_again`: a recompute is determined by its input, and a second one changes nothing.
-/

namespace CellLineage

open Formula

namespace Graph

variable {before before' g g' g₁ : Graph} {config : Config} {plan : Plan} {name : Text}

/-- Graphs that only differ in their cells are the same if these are. -/
theorem SameTables.eq_of_cell_eq (h : g.SameTables g') (hcell : ∀ id, g'.cell id = g.cell id) :
    g' = g := by
  have hnodes : g'.nodes = g.nodes := by
    refine Std.ExtTreeMap.ext_getElem? fun id => ?_
    have hmem : id ∈ g'.nodes ↔ id ∈ g.nodes := h.mem_nodes
    have hc := hcell id
    simp only [cell, Std.ExtTreeMap.getD_eq_getD_getElem?] at hc
    rw [Std.ExtTreeMap.mem_iff_isSome_getElem?, Std.ExtTreeMap.mem_iff_isSome_getElem?] at hmem
    cases hg : g.nodes[id]? <;> cases hg' : g'.nodes[id]? <;> simp_all
  cases g
  cases g'
  cases h
  simp_all

/-! ### The same input -/

/-- The second graph gives an input matrix the same shape as the first, and paints it the same. -/
def AgreesOn (g g' : Graph) (config : Config) (name : Text) : Prop :=
  g'.inputShape config name = g.inputShape config name ∧
    ∀ i j, i < (g.inputShape config name).1 → j < (g.inputShape config name).2 →
      g'.paintAt name i j = g.paintAt name i j

/-- An input matrix that is painted as in the first graph agrees with it. -/
theorem PaintedFrom.agreesOn (h : g.PaintedFrom g' name (g.inputShape config name)) :
    g.AgreesOn g' config name := by
  refine ⟨?_, fun i j hi hj => h.paintAt_eq hi hj⟩
  obtain ⟨b, hb, hshape, -⟩ := h
  have hs : g'.shape? name = some (g.inputShape config name) := by
    rw [shape?, hb, Option.map_some, hshape]
  rw [inputShape, hs]
  cases hl : config.shapes.lookup name with
  | none => rfl
  | some shape =>
    simp only [Option.getD_some, inputShape, hl]

/-- A fresh matrix that shows the same is the same. -/
theorem Restores.eq {b : Block} (h : before.Restores g₁ g name b)
    (h' : before'.Restores g₁ g' name b) (hpaint : ∀ i j, i < b.rows → j < b.cols →
      before'.paintAt name i j = before.paintAt name i j) : g' = g := by
  have ht : g.SameTables g' :=
    ⟨h'.stem.trans h.stem.symm, h'.minted.trans h.minted.symm, h'.matrices.trans h.matrices.symm,
      h'.temporaries.trans h.temporaries.symm, h'.descriptions.trans h.descriptions.symm,
      h'.mem_nodes.trans h.mem_nodes.symm⟩
  refine ht.eq_of_cell_eq fun id => Cell.eq_of_core_eq ?_ ?_
  · by_cases hid : id ∈ g₁.idSet b
    · obtain ⟨i, j, hi, hj, rfl⟩ := hid
      have hid : g.idAt b i j = g₁.idAt b i j := by rw [h.idAt_eq, idAt_addMatrix]
      have hid' : g'.idAt b i j = g₁.idAt b i j := by rw [h'.idAt_eq, idAt_addMatrix]
      have hcore := h.coreAt hi hj
      have hcore' := h'.coreAt hi hj
      rw [Graph.coreAt, hid] at hcore
      rw [Graph.coreAt, hid', hpaint i j hi hj] at hcore'
      exact hcore'.trans hcore.symm
    · exact (h'.core_eq hid).trans (h.core_eq hid).symm
  · exact (h'.dependents_eq id).trans (h.dependents_eq id).symm

/-- Graphs that agree on an input matrix make the same of it. -/
theorem restoreInput_congr (hconfig : config.HasCells) (hb : before.IsMinted)
    (hb' : before'.IsMinted) (hg : g.IsWellFormed) (h : before.AgreesOn before' config name) :
    restoreInput config name (before'.snapshot? name) g =
      restoreInput config name (before.snapshot? name) g := by
  obtain ⟨g₁, hrun, -, hrestores⟩ := restoreInput_spec hconfig hb hg name
  obtain ⟨g₂, hrun', -, hrestores'⟩ := restoreInput_spec hconfig hb' hg name
  have hblock : g.nextBlock _ _ (inputShape_pos hconfig before' name).1
      (inputShape_pos hconfig before' name).2 = g.nextBlock _ _
        (inputShape_pos hconfig before name).1 (inputShape_pos hconfig before name).2 := by
    simp only [nextBlock, h.1]
  rw [hblock] at hrestores'
  rw [hrun, hrun', hrestores.eq hrestores' h.2]

/-- **Graphs that agree on the input** are rebuilt to the same graph. -/
theorem rebuild_congr (hconfig : config.HasCells) (hg : g.IsWellFormed) (hg' : g'.IsWellFormed)
    {names : List Text} (hstem : g'.stem = g.stem)
    (h : ∀ name ∈ names, g.AgreesOn g' config name) :
    rebuild config names g' = rebuild config names g := by
  have hloop (names : List Text) (h : ∀ name ∈ names, g.AgreesOn g' config name) (g₁ : Graph)
      (hg₁ : g₁.IsWellFormed) :
      names.forM (fun name => restoreInput config name (g'.snapshot? name)) g₁ =
        names.forM (fun name => restoreInput config name (g.snapshot? name)) g₁ := by
    induction names generalizing g₁ with
    | nil => rfl
    | cons name names ih =>
      obtain ⟨hname, hnames⟩ := List.forall_mem_cons.1 h
      have hrun := restoreInput_congr hconfig hg.toIsMinted hg'.toIsMinted hg₁ hname
      obtain ⟨g₂, hrun₂, hmakes, -⟩ := restoreInput_spec hconfig hg.toIsMinted hg₁ name
      rw [hrun₂] at hrun
      refine (bind_eq_of_ok hrun).trans (Eq.trans ?_ (bind_eq_of_ok hrun₂).symm)
      exact ih hnames g₂ (hmakes.writesOnly hg₁).isWellFormed
  have hclear : g'.clear = g.clear := congrArg empty hstem
  exact (congrArg _ hclear).trans (hloop names h g.clear (isWellFormed_empty g.stem))

/-! ### The shape of the output -/

/-- Making the output from the shape that it has afterwards makes the same. -/
theorem finish_previous (before g : Graph) (config : Config) (result? : Option Text) :
    finish config ((after (finish config (before.shape? config.output) result?) g).shape?
      config.output) result? g = finish config (before.shape? config.output) result? g := by
  cases result? with
  | some result => rfl
  | none =>
    have hnone : finish config none none g = .ok () g := rfl
    have hsome (rows cols : Nat) : finish config (some (rows, cols)) none g =
        if g.hasMatrix config.output then .ok () g
        else liftGraph (g.initMatrix config.output rows cols) g := by
      simp only [finish, get_bind_eq]
      split <;> rfl
    cases hs : g.shape? config.output with
    | some shape =>
      -- the output is there already, so nothing is made
      have hm : g.hasMatrix config.output = true := by rw [hasMatrix_eq, hs, Option.isSome_some]
      have hok (previous : Option (Nat × Nat)) : finish config previous none g = .ok () g := by
        cases previous with
        | none => exact hnone
        | some p => rw [hsome, if_pos hm]
      rw [hok, hok]
    | none =>
      have hm : g.hasMatrix config.output = false := by rw [hasMatrix_eq, hs, Option.isSome_none]
      cases hb : before.matrices[config.output]? with
      | none =>
        have hp : before.shape? config.output = none := by rw [shape?, hb, Option.map_none]
        rw [hp, hnone, after_of_ok hnone, hs, hnone]
      | some b =>
        have hp : before.shape? config.output = some (b.rows, b.cols) := by
          rw [shape?, hb, Option.map_some, Block.shape]
        have hrun : finish config (some (b.rows, b.cols)) none g =
            .ok () (g.addMatrix config.output b.rows b.cols b.rows_pos b.cols_pos) := by
          rw [hsome, hm, if_neg Bool.false_ne_true, initMatrix_eq_ok b.rows_pos b.cols_pos]
          rfl
        have hshape : (g.addMatrix config.output b.rows b.cols b.rows_pos b.cols_pos).shape?
            config.output = some (b.rows, b.cols) := by
          rw [shape?, matrices_addMatrix, if_pos rfl]
          rfl
        rw [hp, after_of_ok hrun, hshape]

/-- **The shape of the output that a run leaves** serves as well as the former one. -/
theorem runPlan_previous (before g : Graph) (config : Config) (plan : Plan) :
    runPlan config ((after (runPlan config (before.shape? config.output) plan) g).shape?
      config.output) plan g = runPlan config (before.shape? config.output) plan g := by
  simp only [runPlan_eq]
  cases heval : evaluatePlan config plan g with
  | error e g₁ => rw [bind_eq_of_error heval, bind_eq_of_error heval]
  | ok results g₁ =>
    rw [after_bind_of_ok heval, after_bind_of_after_eq fun _ => after_outcome config _ _,
      bind_eq_of_ok heval, bind_eq_of_ok heval]
    have hfinish := finish_previous before g₁ config results.result?
    simp only [bind, EStateM.bind, hfinish]

/-! ### Recomputing again -/

/-- Snapshots of the input are all that a rebuilt graph depends on. -/
theorem rebuild_congr_of_snapshot? {names : List Text} (hstem : g'.stem = g.stem)
    (h : ∀ name ∈ names, g'.snapshot? name = g.snapshot? name) :
    rebuild config names g' = rebuild config names g := by
  have hloop (names : List Text) (h : ∀ name ∈ names, g'.snapshot? name = g.snapshot? name) :
      names.forM (fun name => restoreInput config name (g'.snapshot? name)) =
        names.forM (fun name => restoreInput config name (g.snapshot? name)) := by
    induction names with
    | nil => rfl
    | cons name names ih =>
      obtain ⟨hname, hnames⟩ := List.forall_mem_cons.1 h
      exact congrArg₂ (fun (x y : Run Unit) => x >>= fun _ => y)
        (congrArg (restoreInput config name) hname) (ih hnames)
  have hclear : g'.clear = g.clear := congrArg empty hstem
  exact (congrArg _ hclear).trans (congrFun (hloop names h) g.clear)

theorem stem_after_recompute (plan : Plan) (config : Config) (g : Graph) :
    (after (recompute plan config) g).stem = g.stem := by
  rcases writes_recompute plan config g with h | h
  · rw [h]
  · obtain ⟨ids, hids⟩ := h.exists_mints
    exact hids.ids_eq.1

/-- **A recompute is determined by its input, and a second one changes nothing.** Two reachable
graphs that mint the same ids and agree on the snapshots of the input matrices and on the shape of
the output are left as the same graph, with the same outcome or the same fault. And if no input
matrix has a generated name and the output is none of those that the plan reads, a recompute of the
graph that a recompute left, also if that stopped part-way, leaves the same graph with the same
outcome or fault. -/
theorem recompute_again {output : Text} {iterations rows cols sizeLimit iterationLimit : Datum}
    {sizes : Association (Datum × Datum)}
    (hconfig : Config.make output iterations sizes rows cols sizeLimit iterationLimit = .ok config)
    (hobstacle : plan.obstacle? config.output = none) :
    (∀ names, inputNames plan config = .ok names → ∀ g g' : Graph, g.IsReachable →
      g'.IsReachable → g'.stem = g.stem →
      (∀ name ∈ names, g'.snapshot? name = g.snapshot? name) →
      g'.shape? config.output = g.shape? config.output →
      recompute plan config g' = recompute plan config g) ∧
    ((∀ names, inputNames plan config = .ok names → ∀ name ∈ names, name ∉ generatedNames) →
      config.output ∉ plan.baseMatrices → ∀ g : Graph, g.IsReachable →
      recompute plan config (after (recompute plan config) g) = recompute plan config g) := by
  refine ⟨fun names hnames g g' _ _ hstem hshots hshape => ?_, fun hgenerated hout g hg => ?_⟩
  · rw [recompute_of_inputNames hobstacle hnames, recompute_of_inputNames hobstacle hnames, hshape]
    simp only [bind, EStateM.bind, rebuild_congr_of_snapshot? hstem hshots]
  · cases hnames : inputNames plan config with
    | error e =>
      have hstop : ¬(plan.obstacle? config.output = none ∧
          ∃ names, inputNames plan config = .ok names) := by
        rintro ⟨-, names, h⟩
        rw [hnames] at h
        cases h
      rw [after_recompute_of_not hstop]
    | ok names =>
      have hcells := (Config.hasCells_of_make hconfig).2
      obtain ⟨g₀, written, hrebuild, -, hkept⟩ :=
        exists_writes_recompute hcells hg.isWellFormed hobstacle hnames
      have hrun := recompute_eq hobstacle hnames hrebuild
      have hafter : after (recompute plan config) g =
          after (runPlan config (g.shape? config.output) plan) g₀ := by simp only [after, hrun]
      have hwf := (edits_recompute plan config g).isWellFormed hg.isWellFormed
      have hagrees : ∀ name ∈ names,
          g.AgreesOn (after (recompute plan config) g) config name := by
        intro name hname
        have hne : name ≠ config.output := fun he =>
          hout (he ▸ (of_mem_inputNames hnames hname).2 he)
        exact (hkept name hname (hgenerated names hnames name hname) hne).2.agreesOn
      have hrebuild' := rebuild_congr hcells hg.isWellFormed hwf
        (stem_after_recompute plan config g) hagrees
      rw [recompute_eq hobstacle hnames (hrebuild'.trans hrebuild), hrun, hafter,
        runPlan_previous]

/-- A graph with nothing that the sample reads. -/
def unrelatedGraph : Graph :=
  runAll "elem" [.initMatrix "C" 2 2, .update "C" 0 1 (.int 7) none none none]

/-- The sample makes the same of a graph with other matrices as of an empty one, and recomputing it
again changes nothing. -/
theorem recompute_again_sample :
    recompute (.simple samplePlan) sampleConfig unrelatedGraph =
      recompute (.simple samplePlan) sampleConfig (empty "elem") ∧
    recompute (.simple samplePlan) sampleConfig
      (after (recompute (.simple samplePlan) sampleConfig) sampleGraph) =
        recompute (.simple samplePlan) sampleConfig sampleGraph := by
  have hread : Plan.read "A*B^T*A" = .ok (.simple samplePlan) := by decide +kernel
  have hconfig : Config.make "O" (.int 1) [("A", .int 1, .int 2), ("B", .int 1, .int 2)] (.int 3)
      (.int 3) (.int 50) (.int 50) = .ok sampleConfig := rfl
  have hnames : inputNames (.simple samplePlan) sampleConfig = .ok ["A", "B"] := rfl
  obtain ⟨hinput, hagain⟩ := recompute_again hconfig
    (show (Plan.simple samplePlan).obstacle? sampleConfig.output = none by decide +kernel)
  refine ⟨?_, ?_⟩
  · have hmissing : ∀ name ∈ (["A", "B"] : List Text),
        unrelatedGraph.matrices[name]? = none := by decide +kernel
    refine hinput _ hnames (empty "elem") unrelatedGraph ⟨"elem", [], rfl⟩ ⟨"elem", _, rfl⟩ rfl
      (fun name hname => ?_) (by decide +kernel)
    rw [snapshot?, hmissing name hname]
    rfl
  · refine hagain (fun names h name hname => ?_) (by decide +kernel) sampleGraph
      isReachable_sampleGraph
    rw [hnames] at h
    cases h
    exact IsPublic.notMem_generatedNames (by revert name; decide +kernel)

/-! ### A result that is read again -/

def doublingConfig : Config :=
  ⟨"A", some 1, [], (1, 1)⟩

def doublingGraph : Graph :=
  runAll "elem" [.initMatrix "A" 1 1, .update "A" 0 0 (.int 1) none none none,
    .initMatrix "B" 1 1, .update "B" 0 0 (.int 2) none none none]

/-- **Recomputing again may change the result.** The plan of `A_n*B` may read its output, which is
not reported. Then the result is the input of the next recompute. -/
theorem recompute_again_differs :
    Plan.read "A_n*B" = .ok (.simple overwritingPlan) ∧
    Config.make "A" (.int 1) [] (.int 1) (.int 1) (.int 50) (.int 50) = .ok doublingConfig ∧
    (Plan.simple overwritingPlan).obstacle? doublingConfig.output = none ∧
    inputNames (.simple overwritingPlan) doublingConfig = .ok ["A", "B"] ∧
    doublingGraph.IsReachable ∧
    recompute (.simple overwritingPlan) doublingConfig
      (after (recompute (.simple overwritingPlan) doublingConfig) doublingGraph) ≠
        recompute (.simple overwritingPlan) doublingConfig doublingGraph := by
  refine ⟨by decide +kernel, rfl, by decide +kernel, rfl, ⟨"elem", _, rfl⟩, fun h => ?_⟩
  have htwo : ((after (recompute (.simple overwritingPlan) doublingConfig)
      doublingGraph).paintAt "A" 0 0).value.toInt = 2 := by decide +kernel
  have hfour : ((after (recompute (.simple overwritingPlan) doublingConfig)
      (after (recompute (.simple overwritingPlan) doublingConfig) doublingGraph)).paintAt "A" 0
        0).value.toInt = 4 := by decide +kernel
  rw [after_congr h, htwo] at hfour
  cases hfour

end Graph

end CellLineage
