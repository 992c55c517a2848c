import CellLineage.Proofs.Recompute.Input
import CellLineage.Proofs.Workspace.Reachable

/-!
# Declared shapes and the graph

The shapes of the declared matrices are kept twice: in the table of the workspace, and in the graph,
which holds the matrices. Declaring a matrix enters it in the table, but makes it only if the graph
has none of the name. A formula that reads less drops declarations and leaves the matrices where
they are. So a matrix that is declared again may be there in another size than the table says.

This is the only way for the two to part when matrices are declared. A recompute makes all input
matrices anew in their declared shapes, so it mends them, and what it writes later has other names
as long as no declared matrix has a generated name or is the output. All other operations change
both or none.

## Main definitions

* `Workspace.ShapesAgree`: every declared matrix is in the graph in its declared shape.
* `Workspace.MayDeclare`, `Workspace.Spares`: when declaring a matrix and evaluating the formula
  keep that true.
* `Workspace.Operation.IsCareful`, `Workspace.AreCareful`: operations that do so, and runs of them.

## Main results

* `Workspace.shape?_recompute`: a recompute gives input matrices their declared shapes.
* `Workspace.ShapesAgree.apply`: a careful operation keeps table and graph alike.
* `Workspace.declared_shapes_agree`: so they are alike after each run of careful operations.
* `Workspace.declared_shapes_differ`: they are not after every run.
-/

namespace CellLineage

namespace Graph

variable {g g' : Graph} {name : Text} {rows cols : Int}

theorem shape?_addMatrix (g : Graph) (name : Text) {rows cols : Nat} (hr : 0 < rows) (hc : 0 < cols)
    (other : Text) : (g.addMatrix name rows cols hr hc).shape? other =
      if other = name then some (rows, cols) else g.shape? other := by
  rw [shape?, matrices_addMatrix]
  by_cases h : other = name
  · rw [if_pos h.symm, if_pos h]
    rfl
  · rw [if_neg (Ne.symm h), if_neg h]
    rfl

theorem shape?_of_initMatrix (h : g.initMatrix name rows cols = .ok g') (other : Text) :
    g'.shape? other = if other = name then some (rows.toNat, cols.toNat) else g.shape? other := by
  unfold initMatrix at h
  split at h
  · cases h
    exact shape?_addMatrix ..
  · cases h

theorem shape?_of_restore {s : Snapshot} (h : g.restore s rows cols = .ok g') (other : Text) :
    g'.shape? other = if other = s.name then some (rows.toNat, cols.toNat) else g.shape? other := by
  obtain ⟨g₁, hinit, h⟩ := exists_of_bind_eq_ok h
  cases h
  have hcells : g₁.SameTables (s.cells.foldl (fun g c => g.restoreCell s.name rows cols c) g₁) := by
    refine SameTables.foldl (fun g c => ?_) _ _
    cases hb : g.matrices[s.name]? with
    | none =>
      unfold restoreCell
      rw [update, update?, idAt?_of_missing hb, Option.map_none, Option.getD_none, ite_self]
      exact .refl g
    | some b => exact (fills_restoreCell ∅ g s.name rows cols c hb).sameTables
  rw [shape?, hcells.matrices, ← shape?_of_initMatrix hinit, shape?]

theorem shape?_of_snapshot? {s : Snapshot} (h : g.snapshot? name = some s) :
    g.shape? name = some (s.rows, s.cols) := by
  obtain ⟨b, hb, rfl⟩ := Option.map_eq_some_iff.1 h
  exact congrArg (Option.map Block.shape) hb

end Graph

theorem Config.makeShapes_of_make {output : Text} {iterations : Datum}
    {sizes : Association (Datum × Datum)} {rows cols sizeLimit iterationLimit : Datum}
    {config : Config}
    (h : make output iterations sizes rows cols sizeLimit iterationLimit = .ok config) :
    makeShapes sizeLimit sizes = .ok config.shapes := by
  obtain ⟨iterations?, -, h⟩ := exists_of_bind_eq_ok h
  obtain ⟨shape, -, h⟩ := exists_of_bind_eq_ok h
  obtain ⟨shapes, hshapes, h⟩ := exists_of_bind_eq_ok h
  cases h
  exact hshapes

namespace Workspace

open Formula

variable {w w' : Workspace} {name : Text} {shape : Nat × Nat}

/-- Every declared matrix is in the graph, in the shape that was declared. -/
def ShapesAgree (w : Workspace) : Prop :=
  ∀ name shape, w.shapes.lookup name = some shape → w.graph.shape? name = some shape

/-! ### Declaring and resizing -/

/-- A matrix is entered in the table, and it is in the graph in the same shape. -/
structure Declares (w w' : Workspace) (name : Text) (shape : Nat × Nat) : Prop where
  eq : w' = { w with shapes := w.shapes.put name shape, graph := w'.graph }
  shape?_eq : ∀ other,
    w'.graph.shape? other = if other = name then some shape else w.graph.shape? other

theorem Declares.lookup (h : Declares w w' name shape) (other : Text) :
    w'.shapes.lookup other = if other = name then some shape else w.shapes.lookup other := by
  rw [h.eq, Association.lookup_put]

theorem ShapesAgree.of_declares (hw : w.ShapesAgree) (h : Declares w w' name shape) :
    w'.ShapesAgree := by
  intro other s hs
  rw [h.lookup] at hs
  rw [h.shape?_eq]
  split at hs
  · next he => rw [if_pos he, hs]
  · next hne => rw [if_neg hne, hw other s hs]

/-- A matrix that the graph has in the shape that is entered in the table. -/
theorem declares_of_shape? (hs : w.graph.shape? name = some shape) :
    Declares w { w with shapes := w.shapes.put name shape } name shape := by
  refine ⟨rfl, fun other => ?_⟩
  split
  · next he =>
    subst he
    exact hs
  · rfl

/-- A matrix that is made in the shape that is entered in the table. -/
theorem declares_of_liftGraph (make : Graph → Except Graph.Fault Graph) {g' : Graph}
    (hmake : make w.graph = .ok g') (hshape : ∀ other,
      g'.shape? other = if other = name then some shape else w.graph.shape? other) :
    Declares w (left (liftGraph do Graph.liftGraph (make (← get)))
      { w with shapes := w.shapes.put name shape }) name shape := by
  rw [left_of_ok (liftGraph_of_ok (w := { w with shapes := w.shapes.put name shape }) make hmake)]
  exact ⟨rfl, hshape⟩

/-- A new matrix is entered in the table and made. -/
theorem declares_initMatrix (hshape : 1 ≤ shape.1 ∧ 1 ≤ shape.2) (name : Text) (w : Workspace) :
    Declares w (left (initMatrix name shape) { w with shapes := w.shapes.put name shape }) name
      shape :=
  declares_of_liftGraph (fun g => g.initMatrix name shape.1 shape.2)
    (Graph.initMatrix_eq_ok hshape.1 hshape.2) (Graph.shape?_addMatrix w.graph name _ _)

/-- **Resizing a matrix** to sizes that are allowed changes the table and the graph alike. -/
theorem exists_declares_of_check {rows cols : Datum}
    (hcheck : Size.check rows cols w.sizeLimit = .ok shape) (name : Text) :
    ∃ w', resize name rows cols w = .ok () w' ∧ Declares w w' name shape := by
  obtain ⟨⟨hrows, -⟩, ⟨hcols, -⟩⟩ := Size.check_eq_ok hcheck
  cases hshot : w.graph.snapshot? name with
  | none =>
    have hrun : resize name rows cols w =
        initMatrix name shape { w with shapes := w.shapes.put name shape } := by
      rw [resize]
      simp only [get_bind_eq, hcheck, hshot]
      rfl
    rw [hrun]
    exact ⟨_, liftGraph_of_ok (w := { w with shapes := w.shapes.put name shape })
      (fun g => g.initMatrix name shape.1 shape.2) (Graph.initMatrix_eq_ok hrows hcols), rfl,
      Graph.shape?_addMatrix w.graph name _ _⟩
  | some s =>
    obtain rfl : s.name = name := Graph.name_of_snapshot? hshot
    have hrun : resize s.name rows cols w =
        (if (s.rows, s.cols) ≠ shape then
          liftGraph do Graph.liftGraph ((← get).restore s shape.1 shape.2)
        else pure () : Run Unit) { w with shapes := w.shapes.put s.name shape } := by
      rw [resize]
      simp only [get_bind_eq, hcheck, hshot]
      rfl
    rw [hrun]
    split
    · obtain ⟨g', hrestore⟩ : ∃ g', w.graph.restore s shape.1 shape.2 = .ok g' := by
        rw [Graph.restore, Graph.initMatrix_eq_ok hrows hcols]
        exact ⟨_, rfl⟩
      exact ⟨_, liftGraph_of_ok (w := { w with shapes := w.shapes.put s.name shape })
        (fun g => g.restore s shape.1 shape.2) hrestore, rfl, Graph.shape?_of_restore hrestore⟩
    · next heq =>
      rw [not_not] at heq
      exact ⟨_, rfl, declares_of_shape?
        ((Graph.shape?_of_snapshot? hshot).trans (congrArg some heq))⟩

/-- **Resizing a matrix** does nothing, or it changes the table and the graph alike. -/
theorem declares_resize (name : Text) (rows cols : Datum) (w : Workspace) :
    left (resize name rows cols) w = w ∨
      ∃ shape, Declares w (left (resize name rows cols) w) name shape := by
  rcases resize_cases name rows cols w with h | ⟨shape, hcheck, -⟩
  · exact .inl h
  · obtain ⟨w', hrun, hdeclares⟩ := exists_declares_of_check hcheck name
    rw [left_of_ok hrun]
    exact .inr ⟨shape, hdeclares⟩

/-- The matrix is declared already, or the graph has none of its name in another size than it would
be declared in. -/
def MayDeclare (w : Workspace) (name : Text) (rows cols : Datum) : Prop :=
  name ∉ w.shapes.names → ∀ {shape s}, Size.check rows cols w.sizeLimit = .ok shape →
    w.graph.shape? name = some s → s = shape

/-- **Declaring a matrix** does nothing, or it changes the table and the graph alike. -/
theorem MayDeclare.declares (rows? cols? : Option Datum)
    (h : w.MayDeclare name (rows?.getD w.rows) (cols?.getD w.cols)) :
    left (declare name rows? cols?) w = w ∨
      ∃ shape, Declares w (left (declare name rows? cols?) w) name shape := by
  rcases declare_cases name rows? cols? w with hnone | ⟨shape, hnew, hcheck, hrun⟩
  · exact .inl hnone
  refine .inr ⟨shape, ?_⟩
  obtain ⟨⟨hrows, -⟩, ⟨hcols, -⟩⟩ := Size.check_eq_ok hcheck
  rw [hrun, Graph.hasMatrix_eq]
  cases hs : w.graph.shape? name with
  | none => exact declares_initMatrix ⟨hrows, hcols⟩ name w
  | some s =>
    obtain rfl := h hnew hcheck hs
    exact declares_of_shape? hs

theorem Declares.mem_names (h : Declares w w' name shape) {other : Text} :
    other ∈ w'.shapes.names ↔ other = name ∨ other ∈ w.shapes.names := by
  rw [← Association.lookup_isSome_iff, ← Association.lookup_isSome_iff, h.lookup]
  by_cases he : other = name
  · simp [he]
  · simp [he]

/-- What may be declared may also be declared after another matrix. -/
theorem MayDeclare.of_declares {other : Text} {rows cols : Datum} (h : w.MayDeclare other rows cols)
    (hw : Declares w w' name shape) : w'.MayDeclare other rows cols := by
  intro hnew s t hcheck hs
  rw [hw.mem_names, not_or] at hnew
  rw [hw.shape?_eq, if_neg hnew.1] at hs
  rw [hw.eq] at hcheck
  exact h hnew.2 hcheck hs

/-- **Taking a formula** keeps table and graph alike if its input matrices may be declared. -/
theorem ShapesAgree.declareBases {plan : Plan} (hw : w.ShapesAgree)
    (hmay : ∀ name ∈ plan.baseMatrices, w.MayDeclare name w.rows w.cols) :
    (left (declareBases plan) w).ShapesAgree := by
  let P (w' : Workspace) : Prop := w'.ShapesAgree ∧
    ∀ name ∈ plan.baseMatrices, w'.MayDeclare name w'.rows w'.cols
  have hkeep :
      P { w with shapes := w.shapes.keep fun name => plan.baseMatrices.contains name } := by
    refine ⟨fun name shape hs => ?_, fun name hname hnew => hmay name hname fun hold => hnew ?_⟩
    · rw [Association.lookup_keep] at hs
      split at hs
      · exact hw name shape hs
      · cases hs
    · rw [Association.names_keep, List.mem_filter]
      exact ⟨hold, List.contains_iff_mem.2 hname⟩
  refine (left_forM_of (P := P) hkeep fun base hbase w₁ h₁ => ?_).1
  rcases (h₁.2 base hbase).declares none none with h | ⟨shape, h⟩
  · rwa [h]
  · refine ⟨h₁.1.of_declares h, fun name hname => ?_⟩
    have hrows : (left (declare base none none) w₁).rows = w₁.rows := by rw [h.eq]
    have hcols : (left (declare base none none) w₁).cols = w₁.cols := by rw [h.eq]
    rw [hrows, hcols]
    exact (h₁.2 name hname).of_declares h

/-- After a formula was taken only its input matrices are declared. -/
theorem names_declareBases (plan : Plan) (w : Workspace) :
    (left (declareBases plan) w).shapes.names ⊆ plan.baseMatrices := by
  let P (w' : Workspace) : Prop := w'.shapes.names ⊆ plan.baseMatrices
  have hkeep :
      P { w with shapes := w.shapes.keep fun name => plan.baseMatrices.contains name } := by
    intro name hname
    rw [Association.names_keep, List.mem_filter] at hname
    exact List.contains_iff_mem.1 hname.2
  refine left_forM_of (P := P) hkeep fun base hbase w₁ h₁ => ?_
  rcases declare_cases base none none w₁ with h | ⟨shape, -, -, h⟩
  · rwa [h]
  · have hshapes : (left (declare base none none) w₁).shapes = w₁.shapes.put base shape := by
      rw [h]
      split
      · rw [initMatrix, left_liftGraph]
      · rfl
    intro name hname
    rw [hshapes, Association.names_put] at hname
    split at hname
    · exact h₁ hname
    · rcases List.mem_append.1 hname with hname | hname
      · exact h₁ hname
      · rwa [List.mem_singleton.1 hname]

/-! ### Evaluating -/

/-- The settings of an evaluation declare what the workspace declares. -/
theorem shapes_of_makeShapes {limit : Datum} {shapes made : Shapes}
    (h : Config.makeShapes limit
      (shapes.map fun s => (s.1, .int (s.2.1 : Nat), .int (s.2.2 : Nat))) = .ok made) :
    made = shapes := by
  induction shapes generalizing made with
  | nil =>
    cases h
    rfl
  | cons s shapes ih =>
    obtain ⟨shape, hcheck, h⟩ := exists_of_bind_eq_ok h
    obtain ⟨rest, hrest, h⟩ := exists_of_bind_eq_ok h
    cases h
    obtain ⟨⟨-, -, hrows⟩, ⟨-, -, hcols⟩⟩ := Size.check_eq_ok hcheck
    have hshape : shape = s.2 := by
      obtain ⟨rows, cols⟩ := shape
      simp only [Datum.int, Datum.number.injEq, Number.int.injEq, Int.natCast_inj] at hrows hcols
      rw [← hrows, ← hcols]
    rw [ih hrest, hshape]

/-- The settings of an evaluation: the declared shapes, all with cells, and the output. -/
theorem of_config {config : Config} (h : w.config = .ok config) :
    config.shapes = w.shapes ∧ config.HasCells ∧ outputFor w.plan w.output = .ok config.output := by
  obtain ⟨made, hmade, h⟩ := exists_of_bind_eq_ok h
  obtain ⟨output, houtput, h⟩ := exists_of_bind_eq_ok h
  cases h
  have hmake := eq_ok_of_mapError hmade
  have hshapes := Config.makeShapes_of_make hmake
  exact ⟨shapes_of_makeShapes hshapes, (Config.hasCells_of_make hmake).2, houtput⟩

/-- **A recompute gives input matrices their declared shapes**, whatever they had before, unless
they have a generated name or are the output. -/
theorem shape?_recompute {config : Config} {names : List Text} (hg : w.graph.IsWellFormed)
    (hconfig : w.config = .ok config) (hobstacle : w.plan.obstacle? config.output = none)
    (hnames : inputNames w.plan config = .ok names) (hname : name ∈ names)
    (hgenerated : name ∉ generatedNames) (hout : name ≠ config.output)
    (hshape : w.shapes.lookup name = some shape) :
    (left Workspace.recompute w).graph.shape? name = some shape := by
  obtain ⟨hshapes, hcells, -⟩ := of_config hconfig
  rcases recompute_cases w with ⟨e, he, -⟩ | ⟨config', last?, hconfig', hrun⟩
  · cases he.symm.trans hconfig
  cases hconfig'.symm.trans hconfig
  obtain ⟨g₀, written, -, -, hkept⟩ := Graph.exists_writes_recompute hcells hg hobstacle hnames
  obtain ⟨-, b, hb, hbshape, -⟩ := hkept name hname hgenerated hout
  have hinput : w.graph.inputShape config name = shape := by
    rw [Graph.inputShape, hshapes, hshape, Option.getD_some]
  rw [hrun, Graph.shape?, hb, ← hinput, ← hbshape, Option.map_some]

/-- If the formula may be evaluated, every declared matrix is one of its input matrices, and has no
generated name and is not the output. -/
def Spares (w : Workspace) : Prop :=
  ∀ config names, w.config = .ok config → w.plan.obstacle? config.output = none →
    inputNames w.plan config = .ok names → ∀ name ∈ w.shapes.names,
      name ∈ names ∧ name ∉ generatedNames ∧ name ≠ config.output

/-- **Evaluating the formula** keeps table and graph alike if it spares the declared matrices. -/
theorem ShapesAgree.recompute (hw : w.ShapesAgree) (hg : w.graph.IsWellFormed)
    (hspares : w.Spares) : (left Workspace.recompute w).ShapesAgree := by
  rcases recompute_cases w with ⟨e, -, hrun⟩ | ⟨config, last?, hconfig, hrun⟩
  · rwa [hrun]
  by_cases hruns : w.plan.obstacle? config.output = none ∧
      ∃ names, inputNames w.plan config = .ok names
  · obtain ⟨hobstacle, names, hnames⟩ := hruns
    intro name shape hs
    have hlookup : w.shapes.lookup name = some shape := by rwa [hrun] at hs
    have hdeclared : name ∈ w.shapes.names := by
      rw [← Association.lookup_isSome_iff, hlookup, Option.isSome_some]
    obtain ⟨hname, hgenerated, hout⟩ := hspares config names hconfig hobstacle hnames name hdeclared
    exact shape?_recompute hg hconfig hobstacle hnames hname hgenerated hout hlookup
  · rw [hrun, Graph.after_recompute_of_not hruns]
    exact hw

/-! ### Documents -/

/-- The graph has declared matrices only. -/
def OnlyDeclared (w : Workspace) : Prop :=
  ∀ name, (w.graph.shape? name).isSome → name ∈ w.shapes.names

theorem OnlyDeclared.mayDeclare (h : w.OnlyDeclared) (name : Text) (rows cols : Datum) :
    w.MayDeclare name rows cols :=
  fun hnew _ _ _ hs => absurd (h name (Option.isSome_of_eq_some hs)) hnew

theorem OnlyDeclared.of_declares (hw : w.OnlyDeclared) (h : Declares w w' name shape) :
    w'.OnlyDeclared := by
  intro other hs
  rw [h.shape?_eq] at hs
  rw [h.mem_names]
  split at hs
  · next he => exact .inl he
  · exact .inr (hw other hs)

theorem ShapesAgree.of_paints (hw : w.ShapesAgree) (h : Paints w w') : w'.ShapesAgree := by
  intro name shape hs
  rw [h.eq] at hs
  rw [h.shape?_eq, hw name shape hs]

theorem OnlyDeclared.of_paints (hw : w.OnlyDeclared) (h : Paints w w') : w'.OnlyDeclared := by
  intro name hs
  rw [h.shape?_eq] at hs
  rw [h.eq]
  exact hw name hs

/-- Declaring a matrix beside declared ones only. -/
theorem OnlyDeclared.declare (h : w.OnlyDeclared) (hw : w.ShapesAgree) (name : Text)
    (rows? cols? : Option Datum) :
    (left (declare name rows? cols?) w).OnlyDeclared ∧
      (left (declare name rows? cols?) w).ShapesAgree := by
  rcases (h.mayDeclare name _ _).declares rows? cols? with he | ⟨shape, hd⟩
  · rw [he]
    exact ⟨h, hw⟩
  · exact ⟨h.of_declares hd, hw.of_declares hd⟩

/-- **Taking a formula** keeps table and graph alike if its new input matrices may be declared. -/
theorem ShapesAgree.setFormula {formula : Datum} (hw : w.ShapesAgree)
    (hmay : ∀ plan output, readFormula formula = .ok plan → outputFor plan w.output = .ok output →
      plan.obstacle? output = none → ∀ name ∈ plan.baseMatrices, w.MayDeclare name w.rows w.cols) :
    (left (setFormula formula) w).ShapesAgree := by
  rcases setFormula_cases formula w with
    ⟨e, -, h⟩ | ⟨plan, hread, ⟨h, -⟩ | ⟨output, houtput, hobstacle, h⟩⟩
  · rw [h]
    exact hw
  · rw [h]
    exact hw
  · rw [h]
    exact ShapesAgree.declareBases hw (hmay plan output hread houtput hobstacle)

/-- A new workspace has declared matrices only, in their declared shapes. -/
theorem of_make {s : Settings} (h : make s = .ok w) : w.OnlyDeclared ∧ w.ShapesAgree := by
  have hblank : (blank s).OnlyDeclared ∧ (blank s).ShapesAgree := by
    refine ⟨fun name hs => ?_, fun name shape hs => nomatch hs⟩
    cases hs
  rw [← left_setFormula_of_make h]
  rcases setFormula_cases s.formula (blank s) with
    ⟨e, -, h⟩ | ⟨plan, -, ⟨h, -⟩ | ⟨output, -, -, h⟩⟩
  · rw [h]
    exact hblank
  · rw [h]
    exact hblank
  · rw [h]
    -- nothing is declared yet, so nothing is dropped
    refine left_bind_of (P := fun w => w.OnlyDeclared ∧ w.ShapesAgree) hblank fun _ w₁ _ h₁ => ?_
    exact left_forM_of (P := fun w => w.OnlyDeclared ∧ w.ShapesAgree) h₁ fun base _ w₂ h₂ =>
      h₂.1.declare h₂.2 base none none

/-- The output of a formula that may be evaluated is called by the datum that was set. -/
theorem matrixName?_of_outputFor {plan : Plan} {output : Datum} {name : Text}
    (h : outputFor plan output = .ok name) (hfault : plan.fault? = none) :
    matrixName? output = some name := by
  rw [outputFor, hfault] at h
  cases hname : matrixName? output with
  | some other =>
    rw [hname] at h
    exact congrArg some (Except.ok.inj h)
  | none =>
    rw [hname] at h
    cases h

/-- Evaluating a formula spares its input matrices unless one of them has a generated name or is the
output. -/
theorem spares_of_names (hdeclared : w.shapes.names ⊆ w.plan.baseMatrices)
    (hnames : ∀ name ∈ w.plan.baseMatrices,
      name ∉ generatedNames ∧ matrixName? w.output ≠ some name) : w.Spares := by
  intro config names hconfig hobstacle hinput name hname
  obtain ⟨hgenerated, hout⟩ := hnames name (hdeclared hname)
  refine ⟨mem_inputNames_of_mem_baseMatrices hinput (hdeclared hname), hgenerated, fun he => ?_⟩
  have hfault := (Plan.obstacle?_eq_none_iff.1 hobstacle).1
  exact hout (he ▸ matrixName?_of_outputFor (of_config hconfig).2.2 hfault)

theorem spares_setFormula {formula : Datum} {plan : Plan} (hread : readFormula formula = .ok plan)
    (hnames : ∀ name ∈ plan.baseMatrices,
      name ∉ generatedNames ∧ matrixName? w.output ≠ some name) :
    (left (setFormula formula) w).Spares := by
  rcases setFormula_cases formula w with
    ⟨e, he, -⟩ | ⟨plan', hread', ⟨h, hnot⟩ | ⟨output, -, -, h⟩⟩
  · cases he.symm.trans hread
  · rw [h]
    exact fun config _ hconfig hobstacle =>
      absurd ⟨config.output, (of_config hconfig).2.2, hobstacle⟩ hnot
  · cases hread'.symm.trans hread
    have hsame := sameSettings_declareBases plan { w with formula, plan }
    have hplan : (left (declareBases plan) { w with formula, plan }).plan = plan := by rw [hsame]
    have hout : (left (declareBases plan) { w with formula, plan }).output = w.output := by
      rw [hsame]
    rw [h]
    refine spares_of_names ?_ ?_
    · rw [hplan]
      exact names_declareBases plan _
    · rwa [hplan, hout]

/-- **Entering a document** in a workspace that has declared matrices only keeps table and graph
alike. -/
theorem ShapesAgree.enter {doc : Document} (hw : w.ShapesAgree) (honly : w.OnlyDeclared)
    (hg : w.graph.IsWellFormed)
    (hnames : ∀ plan, readFormula (.text doc.formula) = .ok plan → ∀ name ∈ plan.baseMatrices,
      name ∉ generatedNames ∧ matrixName? w.output ≠ some name) :
    (left (enter doc) w).ShapesAgree := by
  let P (w' : Workspace) : Prop :=
    w'.OnlyDeclared ∧ w'.ShapesAgree ∧ w'.graph.IsWellFormed ∧ w'.output = w.output
  have hdeclare (w₁ : Workspace) (h₁ : P w₁) (name : Text) (d : Document.Dimensions) :
      P (left (declareSized name d) w₁) := by
    obtain ⟨honly, hagree⟩ := h₁.1.declare h₁.2.1 name (some (.int d.rows)) (some (.int d.cols))
    refine ⟨honly, hagree, (editsGraph_declare name _ _ w₁).isWellFormed h₁.2.2.1, ?_⟩
    exact (congrArg output (sameSettings_declare name _ _ w₁)).trans h₁.2.2.2
  have hpaints (w₁ w₂ : Workspace) (h₁ : P w₁) (h : Paints w₁ w₂) : P w₂ :=
    ⟨h₁.1.of_paints h, h₁.2.1.of_paints h, h.edits.isWellFormed h₁.2.2.1,
      (congrArg output h.eq).trans h₁.2.2.2⟩
  have h₁ : P (left (doc.matrixDimensions.forM fun m => declareSized m.1 m.2) w) :=
    left_forM_of ⟨honly, hw, hg, rfl⟩ fun m _ w₁ h₁ => hdeclare w₁ h₁ m.1 m.2
  refine left_bind_of_imp h₁ (fun _ h => h.2.1) fun _ w₁ _ h₁ => ?_
  have h₂ : P (left (doc.matrices.forM fun m => addMatrix doc m.1 m.2) w₁) := by
    refine left_forM_of h₁ fun m _ w₂ h₂ => ?_
    refine left_bind_of (hdeclare w₂ h₂ m.1 _) fun _ w₃ _ h₃ => hpaints w₃ _ h₃ ?_
    exact Graph.steps_foldl fun e _ w₄ _ => .single (.update w₄ ..)
  refine left_bind_of_imp h₂ (fun _ h => h.2.1) fun _ w₂ _ ⟨honly, hagree, hg, houtput⟩ => ?_
  have h₃ : (left (Workspace.setFormula (.text doc.formula)) w₂).ShapesAgree :=
    ShapesAgree.setFormula hagree fun _ _ _ _ _ name _ => honly.mayDeclare name _ _
  refine left_bind_of h₃ fun _ w₃ hrun h₃ => ?_
  obtain ⟨plan, hread⟩ := exists_readFormula_of_setFormula hrun
  have hspares := spares_setFormula (w := w₂) hread (houtput ▸ hnames plan hread)
  have hg₃ := (editsGraph_setFormula (.text doc.formula) w₂).isWellFormed hg
  rw [left_of_ok hrun] at hspares hg₃
  exact left_bind_of (ShapesAgree.recompute h₃ hg₃ hspares) fun _ _ _ h => h

/-! ### Careful operations -/

/-- The operation declares no matrix that the graph has in another size, and evaluates the formula
only if that spares the declared matrices. -/
def Operation.IsCareful (w : Workspace) : Operation → Prop
  | .setFormula formula => ∀ plan output, readFormula formula = .ok plan →
      outputFor plan w.output = .ok output → plan.obstacle? output = none →
      ∀ name ∈ plan.baseMatrices, w.MayDeclare name w.rows w.cols
  | .declare name rows? cols? => w.MayDeclare name (rows?.getD w.rows) (cols?.getD w.cols)
  | .recompute => w.Spares
  | .importDocument source => ∀ doc plan, Document.load source w.sizeLimit = .ok doc →
      readFormula (.text doc.formula) = .ok plan → ∀ name ∈ plan.baseMatrices,
      name ∉ generatedNames ∧ matrixName? w.output ≠ some name
  | _ => True

/-- Each of the operations is careful when its turn comes. -/
def AreCareful : Workspace → List Operation → Prop
  | _, [] => True
  | w, op :: ops => op.IsCareful w ∧ AreCareful (op.apply w) ops

/-- **A careful operation keeps table and graph alike**, also one that stops part-way. -/
theorem ShapesAgree.apply {op : Operation} (hw : w.ShapesAgree) (hg : w.graph.IsWellFormed)
    (hcareful : op.IsCareful w) : (op.apply w).ShapesAgree := by
  have hresize (name : Text) (rows cols : Datum) :
      (left (Workspace.resize name rows cols) w).ShapesAgree := by
    rcases declares_resize name rows cols w with h | ⟨shape, h⟩
    · rwa [h]
    · exact hw.of_declares h
  by_cases hpainting : op.IsPainting
  · exact hw.of_paints (paints_apply hpainting w)
  cases op with
  | setFormula formula => exact ShapesAgree.setFormula hw hcareful
  | declare name rows? cols? =>
    rcases MayDeclare.declares rows? cols? hcareful with h | ⟨shape, h⟩
    · rwa [Operation.apply, h]
    · exact hw.of_declares h
  | resize name rows cols => exact hresize name rows cols
  | loadTable name values color =>
    rcases loadTable_cases name values color w with h | ⟨rows, cols, h⟩
    · rwa [Operation.apply, h]
    · exact (hresize name (.int rows) (.int cols)).of_paints h
  | setMirror enabled =>
    have hset : ({ w with mirror := enabled } : Workspace).ShapesAgree := hw
    exact hset.of_paints (paints_setMirror enabled w)
  | recompute => exact ShapesAgree.recompute hw hg hcareful
  | importDocument source =>
    rw [Operation.apply]
    split
    · next w' h =>
      obtain ⟨doc, new, hload, hmake, rfl⟩ := exists_of_importDocument h
      obtain ⟨honly, hagree⟩ := of_make hmake
      have hnew : new.IsReachable := ⟨_, new, [], hmake, rfl⟩
      refine ShapesAgree.enter hagree honly hnew.isWellFormed fun plan hread => ?_
      rw [output_of_make hmake]
      exact hcareful doc plan hload hread
    · exact hw
    · exact hw
  | _ => exact absurd trivial hpainting

/-- **Table and graph stay alike.** After a run of careful operations, of any length and with any
arguments, whether they stop part-way or not, every declared matrix is in the graph in its declared
shape. -/
theorem declared_shapes_agree {s : Settings} {new : Workspace} {ops : List Operation}
    (hmake : make s = .ok new) (hcareful : AreCareful new ops) : (runAll new ops).ShapesAgree := by
  have hreachable : new.IsReachable := ⟨s, new, [], hmake, rfl⟩
  have hagree := (of_make hmake).2
  clear hmake
  induction ops generalizing new with
  | nil => exact hagree
  | cons op ops ih =>
    refine ih hcareful.2 (hreachable.apply op) ?_
    exact ShapesAgree.apply hagree hreachable.isWellFormed hcareful.1

/-- A workspace for the product of two matrices of one cell. -/
def sampleSettings : Settings where
  formula := .text "A*B"
  rows := .int 1
  cols := .int 1

/-- A new workspace, once it is known that there is one. -/
theorem make_of_isSome {s : Settings} (h : (make s).toOption.isSome = true) :
    make s = .ok (left (setFormula s.formula) (blank s)) := by
  cases hmake : make s with
  | error e =>
    rw [hmake] at h
    cases h
  | ok new => rw [left_setFormula_of_make hmake]

theorem make_sampleSettings :
    make sampleSettings =
      .ok (left (setFormula sampleSettings.formula) (blank sampleSettings)) :=
  make_of_isSome (by decide +kernel)

/-- Both matrices grow, the product is computed, and then a third factor is declared. -/
def sampleOperations : List Operation :=
  [.resize "A" (.int 2) (.int 1), .resize "B" (.int 1) (.int 2), .recompute,
    .setFormula (.text "A*B*C")]

/-- In the sample all three factors are in the graph as they are declared. -/
theorem declared_shapes_agree_sample : ∃ new, make sampleSettings = .ok new ∧
    (runAll new sampleOperations).ShapesAgree ∧
    (runAll new sampleOperations).shapes =
      ([("A", 2, 1), ("B", 1, 2), ("C", 1, 1)] : Shapes) := by
  let new := left (setFormula sampleSettings.formula) (blank sampleSettings)
  refine ⟨new, make_sampleSettings, ?_, by decide +kernel⟩
  refine declared_shapes_agree make_sampleSettings ⟨trivial, trivial, ?_, ?_, trivial⟩
  · have hread : Plan.read "A*B" = .ok (runAll new (sampleOperations.take 2)).plan := by
      decide +kernel
    have hat : ∀ name ∈ (runAll new (sampleOperations.take 2)).plan.baseMatrices,
        .char '@' ∉ name.symbols := by decide +kernel
    have hout : ∀ name ∈ (runAll new (sampleOperations.take 2)).plan.baseMatrices,
        matrixName? (runAll new (sampleOperations.take 2)).output ≠ some name := by decide +kernel
    exact spares_of_names (by decide +kernel) fun name hname =>
      ⟨notMem_generatedNames_of_mem_baseMatrices hread hname (hat name hname), hout name hname⟩
  · intro plan output hread _ _ name hname hnew shape s _ hs
    have hbases : (readFormula (.text "A*B*C")).toOption.map Plan.baseMatrices =
        some (["A", "B", "C"] : List Text) := by decide +kernel
    rw [hread] at hbases
    have hthere : ∀ name ∈ (["A", "B", "C"] : List Text),
        name ∈ (runAll new (sampleOperations.take 3)).shapes.names ∨
          (runAll new (sampleOperations.take 3)).graph.shape? name = none := by decide +kernel
    rcases hthere name (Option.some.inj hbases ▸ hname) with hold | hnone
    · exact absurd hold hnew
    · cases hnone.symm.trans hs

/-! ### Shapes that differ -/

/-- One matrix grows, is dropped by the next formula and declared again by the one after that. -/
def redeclaring : List Operation :=
  [.resize "A" (.int 2) (.int 2), .setFormula (.text "B"), .setFormula (.text "A")]

/-- **Table and graph may part.** A matrix that is declared again keeps the size that it has in the
graph, while the table says that it has the size of a new one. -/
theorem declared_shapes_differ : ∃ new, make sampleSettings = .ok new ∧
    (runAll new redeclaring).plan.fault? = none ∧
    ("A" : Text) ∈ (runAll new redeclaring).plan.baseMatrices ∧
    (runAll new redeclaring).shapes.lookup ("A" : Text) = some (1, 1) ∧
    (runAll new redeclaring).graph.shape? "A" = some (2, 2) :=
  ⟨_, make_sampleSettings, by decide +kernel, by decide +kernel, by decide +kernel,
    by decide +kernel⟩

end Workspace

end CellLineage
