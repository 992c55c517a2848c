import CellLineage.Proofs.Graph.Contribution
import CellLineage.Proofs.Workspace.Opened

/-!
# The input matrices of a formula

When a formula is taken, its input matrices become the declared ones. Those that were declared stay
declared in their sizes, and the others are declared in the sizes of the workspace, which are always
allowed. Nothing in the graph changes but that matrices are made for names that have none.

So what becomes of a name that is declared anew depends on the graph. If that has no matrix of the
name, a blank one is made in the sizes of the workspace. But the matrices of earlier formulas are
still there, painted or computed. One of them that has the name becomes the input matrix as it is,
with its own size, its values and its lineage.

## Main definitions

* `Graph.Retains`: a matrix, or its absence, is exactly the same.
* `Graph.IsBlank`: a matrix on which nothing was painted and that derives from nothing.
* `Workspace.Lacks`: a name of a matrix that is neither declared nor in the graph.
* `Workspace.Furnishes`: what declaring matrices makes of the graph.

## Main results

* `Workspace.IsReachable.hasSize`: the sizes of a workspace are allowed.
* `Workspace.exists_furnishes`: declaring one matrix after another.
* `Workspace.setFormula_installs`: the matrices that a formula declares.
* `Workspace.installs_computed`: a computed matrix becomes an input matrix.
-/

namespace CellLineage

namespace Graph

variable {g g' g₁ : Graph} {name other : Text} {shape : Nat × Nat}

/-- The matrix of the name, or its absence, is exactly the same in both graphs. -/
structure Retains (g g' : Graph) (name : Text) : Prop where
  shape? : g'.shape? name = g.shape? name
  cells : g'.cells name = g.cells name

/-- The matrix of the name has the shape, and none of its cells has been painted or derives from
another one. -/
structure IsBlank (g : Graph) (name : Text) (shape : Nat × Nat) : Prop where
  shape? : g.shape? name = some shape
  cells : ∀ c ∈ g.cells name, c = .blank c.id name c.row c.col

theorem Retains.refl (g : Graph) (name : Text) : g.Retains g name :=
  ⟨rfl, rfl⟩

theorem Retains.trans (h : g.Retains g₁ name) (h' : g₁.Retains g' name) : g.Retains g' name :=
  ⟨h'.shape?.trans h.shape?, h'.cells.trans h.cells⟩

theorem IsBlank.of_retains (h : g.IsBlank name shape) (hkept : g.Retains g' name) :
    g'.IsBlank name shape where
  shape? := hkept.shape?.trans h.shape?
  cells := by
    rw [hkept.cells]
    exact h.cells

/-- A fresh matrix leaves all others alone. -/
theorem retains_addMatrix (hg : g.IsWellFormed) {rows cols : Nat} (hr : 0 < rows) (hc : 0 < cols)
    (hne : other ≠ name) : g.Retains (g.addMatrix name rows cols hr hc) other where
  shape? := by rw [shape?_addMatrix, if_neg hne]
  cells := by
    rw [cells, matrices_addMatrix, if_neg hne.symm, cells]
    cases hb : g.matrices[other]? with
    | none => rfl
    | some b =>
      simp only [ids, List.map_map]
      refine List.map_congr_left fun p hp => ?_
      obtain ⟨hi, hj⟩ := b.mem_positions.1 hp
      rw [Function.comp_apply, idAt_addMatrix, hg.cell_addMatrix_of_mem (hg.idAt_mem hb hi hj)]
      rfl

theorem isBlank_addMatrix (g : Graph) (name : Text) {rows cols : Nat} (hr : 0 < rows)
    (hc : 0 < cols) : (g.addMatrix name rows cols hr hc).IsBlank name (rows, cols) where
  shape? := by rw [shape?_addMatrix, if_pos rfl]
  cells c hmem := by
    obtain ⟨b, i, j, hb, hi, hj, rfl⟩ := mem_cells_iff.1 hmem
    rw [matrices_addMatrix, if_pos rfl] at hb
    cases hb
    rw [idAt_addMatrix, cell_addMatrix hi hj]
    rfl

end Graph

namespace Workspace

open Formula

variable {w w' w₁ : Workspace} {name : Text} {names : List Text} {shape : Nat × Nat}

/-! ### The sizes of a workspace -/

/-- A matrix can be made in the sizes of the workspace. -/
def HasSize (w : Workspace) : Prop :=
  ∃ shape, Size.check w.rows w.cols w.sizeLimit = .ok shape

theorem SameFormula.hasSize (h : SameFormula w w') (hw : w.HasSize) : w'.HasSize := by
  rw [HasSize, h]
  exact hw

/-- An import checks the sizes of its document. -/
theorem hasSize_of_importDocument {source : Document.Source}
    (h : w.importDocument source = .ok (.ok w')) : w'.HasSize := by
  obtain ⟨doc, -, hdoc⟩ := exists_ofDocument_of_importDocument h
  obtain ⟨new, hmake, henter⟩ := exists_of_ofDocument hdoc
  obtain ⟨hopened, -, hlimit⟩ := isOpened_of_enter hmake henter
  rw [HasSize, hopened.rows, hopened.cols, hlimit]
  exact (exists_checks_of_make hmake).1

theorem HasSize.apply (h : w.HasSize) (op : Operation) : (op.apply w).HasSize := by
  by_cases htakes : op.TakesFormula
  swap
  · exact (sameFormula_apply htakes w).hasSize h
  cases op with
  | setFormula formula =>
    rw [Operation.apply, HasSize, left_setFormula_eq]
    exact h
  | importDocument source =>
    rw [Operation.apply]
    split
    · next w' himport => exact hasSize_of_importDocument himport
    · exact h
    · exact h
  | _ => exact htakes.elim

/-- **The sizes of a workspace are allowed**: they were checked when it was made, or with the
document that it was imported from. -/
theorem IsReachable.hasSize (h : w.IsReachable) : w.HasSize := by
  obtain ⟨s, new, ops, hmake, rfl⟩ := h
  obtain ⟨hcheck, -, hset⟩ := exists_checks_of_make hmake
  obtain ⟨plan, -, hsame⟩ := setFormula_eq_ok hset
  have hnew : new.HasSize := by
    rw [HasSize, hsame]
    exact hcheck
  exact List.foldlRecOn ops _ hnew fun _ h op _ => h.apply op

/-! ### Declaring matrices -/

/-- The name is not declared, and the graph has no matrix of it. -/
def Lacks (w : Workspace) (name : Text) : Prop :=
  name ∉ w.shapes.names ∧ w.graph.shape? name = none

/-- Blank matrices were made for the names that were lacking, and the graph is the same
otherwise. -/
structure Furnishes (w w' : Workspace) (names : List Text) (shape : Nat × Nat) : Prop where
  isWellFormed : w'.graph.IsWellFormed
  lacks_iff : ∀ name, w'.Lacks name ↔ name ∉ names ∧ w.Lacks name
  isBlank : ∀ name ∈ names, w.Lacks name → w'.graph.IsBlank name shape
  retains : ∀ name, ¬(name ∈ names ∧ w.Lacks name) → w.graph.Retains w'.graph name

namespace Furnishes

theorem nil (hg : w.graph.IsWellFormed) : Furnishes w w [] shape where
  isWellFormed := hg
  lacks_iff _ := by simp
  isBlank _ hname := absurd hname List.not_mem_nil
  retains name _ := .refl w.graph name

/-- One matrix and then others. -/
theorem cons (h : Furnishes w w₁ [name] shape) (h' : Furnishes w₁ w' names shape) :
    Furnishes w w' (name :: names) shape where
  isWellFormed := h'.isWellFormed
  lacks_iff other := by
    rw [h'.lacks_iff, h.lacks_iff, List.mem_singleton, List.mem_cons]
    tauto
  isBlank other hother hlacks := by
    by_cases hlater : other ∈ names ∧ w₁.Lacks other
    · exact h'.isBlank other hlater.1 hlater.2
    · have hfirst : other ∈ [name] := by
        by_contra hne
        refine hlater ⟨?_, (h.lacks_iff other).2 ⟨hne, hlacks⟩⟩
        exact (List.mem_cons.1 hother).resolve_left fun he => hne (List.mem_singleton.2 he)
      exact (h.isBlank other hfirst hlacks).of_retains (h'.retains other hlater)
  retains other hnot := by
    refine (h.retains other ?_).trans (h'.retains other ?_)
    · rintro ⟨hfirst, hlacks⟩
      exact hnot ⟨List.mem_cons.2 (.inl (List.mem_singleton.1 hfirst)), hlacks⟩
    · rintro ⟨hlater, hlacks⟩
      exact hnot ⟨List.mem_cons_of_mem _ hlater, ((h.lacks_iff other).1 hlacks).2⟩

/-- A matrix that is not lacking is entered at most. -/
theorem of_graph_eq (hg : w.graph.IsWellFormed) (hgraph : w'.graph = w.graph)
    (hnames : ∀ other, other ∈ w'.shapes.names ↔ other = name ∨ other ∈ w.shapes.names)
    (hnot : ¬w.Lacks name) : Furnishes w w' [name] shape where
  isWellFormed := by rwa [hgraph]
  lacks_iff other := by
    rw [Lacks, hnames, hgraph, List.mem_singleton, not_or, and_assoc, Lacks]
  isBlank other hother hlacks := absurd (List.mem_singleton.1 hother ▸ hlacks) hnot
  retains other _ := by
    rw [hgraph]
    exact .refl w.graph other

end Furnishes

/-- **Declaring a matrix** makes a blank one if it is lacking, and changes nothing in the graph
otherwise. -/
theorem furnishes_declare (hg : w.graph.IsWellFormed)
    (hcheck : Size.check w.rows w.cols w.sizeLimit = .ok shape) (name : Text) :
    Furnishes w (left (declare name none none) w) [name] shape := by
  by_cases hname : name ∈ w.shapes.names
  · rw [left_of_ok (declare_of_mem hname none none)]
    refine .of_graph_eq hg rfl (fun other => ?_) fun hlacks => hlacks.1 hname
    rw [or_iff_right_of_imp]
    rintro rfl
    exact hname
  have hput : ∀ other, other ∈ (w.shapes.put name shape).names ↔
      other = name ∨ other ∈ w.shapes.names := by
    intro other
    rw [Association.names_put, if_neg hname, List.mem_append, List.mem_singleton, or_comm]
  obtain ⟨⟨hrows, -⟩, ⟨hcols, -⟩⟩ := Size.check_eq_ok hcheck
  have hrun : declare name none none w =
      (if !w.graph.hasMatrix name then initMatrix name shape else pure () : Run Unit)
        { w with shapes := w.shapes.put name shape } := declare_eq_of_notMem hname hcheck
  have hleft : left (declare name none none) w =
      left (if !w.graph.hasMatrix name then initMatrix name shape else pure ())
        { w with shapes := w.shapes.put name shape } := by simp only [left, hrun]
  rw [hleft]
  split
  · next hgraph =>
    have hnone : w.graph.shape? name = none := by
      rw [Graph.hasMatrix_eq] at hgraph
      simpa using hgraph
    rw [initMatrix, left_of_ok (liftGraph_of_ok (w := { w with shapes := w.shapes.put name shape })
      (fun g => g.initMatrix name shape.1 shape.2) (Graph.initMatrix_eq_ok hrows hcols))]
    exact {
      isWellFormed := (Graph.prepared_addMatrix hg name hrows hcols).isWellFormed
      lacks_iff := fun other => by
        rw [Lacks, hput, Graph.shape?_addMatrix, List.mem_singleton, Lacks]
        by_cases he : other = name
        · simp [he]
        · simp [he]
      isBlank := fun other hother _ => by
        rw [List.mem_singleton.1 hother]
        exact Graph.isBlank_addMatrix w.graph name hrows hcols
      retains := fun other hnot => by
        refine Graph.retains_addMatrix hg hrows hcols ?_
        rintro rfl
        exact hnot ⟨List.mem_singleton_self _, hname, hnone⟩ }
  · next hgraph =>
    refine .of_graph_eq hg rfl hput fun hlacks => hgraph ?_
    rw [Graph.hasMatrix_eq, hlacks.2]
    rfl

/-- **Declaring one matrix after another** makes blank ones for all that are lacking. -/
theorem furnishes_forM_declare (hg : w.graph.IsWellFormed)
    (hcheck : Size.check w.rows w.cols w.sizeLimit = .ok shape) (names : List Text) :
    Furnishes w (left (names.forM fun name => declare name none none) w) names shape := by
  induction names generalizing w with
  | nil => exact .nil hg
  | cons name names ih =>
    have hfirst := furnishes_declare hg hcheck name
    obtain ⟨w₁, hrun, -⟩ := exists_declare name none none hcheck
    have hsame := sameSettings_declare name none none w
    rw [left_of_ok hrun] at hfirst hsame
    have hcheck₁ : Size.check w₁.rows w₁.cols w₁.sizeLimit = .ok shape := by
      rw [hsame]
      exact hcheck
    have hrest : (name :: names).forM (fun name => declare name none none) w =
        names.forM (fun name => declare name none none) w₁ := bind_eq_of_ok hrun
    have hleft : left ((name :: names).forM fun name => declare name none none) w =
        left (names.forM fun name => declare name none none) w₁ := by simp only [left, hrest]
    rw [hleft]
    exact hfirst.cons (ih hfirst.isWellFormed hcheck₁)

/-! ### Taking a formula -/

variable {formula : Datum} {plan : Plan} {output : Text}

/-- **The matrices that a formula declares.** A formula that may be evaluated is taken without a
stop, and its input matrices are then the declared ones. One that was declared before keeps its size
and its cells. One that was not has the size of the workspace, and if the graph had no matrix of the
name, it is there in that size with blank cells only. A matrix that the graph had stays as it is,
whether it is an input matrix or not. -/
theorem setFormula_installs (hw : w.IsReachable) (hread : readFormula formula = .ok plan)
    (houtput : outputFor plan w.output = .ok output) (hobstacle : plan.obstacle? output = none) :
    ∃ shape w', Size.check w.rows w.cols w.sizeLimit = .ok shape ∧
      setFormula formula w = .ok () w' ∧
      (∀ name, name ∈ w'.shapes.names ↔ name ∈ plan.baseMatrices) ∧
      (∀ name ∈ plan.baseMatrices, name ∈ w.shapes.names →
        w'.shapes.lookup name = w.shapes.lookup name ∧ w.graph.Retains w'.graph name) ∧
      (∀ name ∈ plan.baseMatrices, name ∉ w.shapes.names →
        w'.shapes.lookup name = some shape ∧
          (w.graph.shape? name = none → w'.graph.IsBlank name shape)) ∧
      ∀ name, w.graph.shape? name ≠ none → w.graph.Retains w'.graph name := by
  obtain ⟨shape, hcheck⟩ := hw.hasSize
  let kept : Workspace := { w with
    formula
    plan
    shapes := w.shapes.keep fun name => plan.baseMatrices.contains name }
  have hkept (name : Text) : kept.shapes.lookup name =
      if name ∈ plan.baseMatrices then w.shapes.lookup name else none := by
    simp only [kept, Association.lookup_keep, List.contains_iff_mem]
  have hmem : ∀ name ∈ plan.baseMatrices, (name ∈ kept.shapes.names ↔ name ∈ w.shapes.names) := by
    intro name hname
    rw [← Association.lookup_isSome_iff, hkept, if_pos hname, Association.lookup_isSome_iff]
  obtain ⟨w', hforM, hlookup⟩ := exists_forM_declare (w := kept) hcheck plan.baseMatrices
  have hrun : setFormula formula w = .ok () w' :=
    (setFormula_of_obstacle hread houtput hobstacle).trans hforM
  have hfurnishes := furnishes_forM_declare (w := kept) hw.isWellFormed hcheck plan.baseMatrices
  rw [left_of_ok hforM] at hfurnishes
  refine ⟨shape, w', hcheck, hrun, fun name => ?_, fun name hname hold => ?_,
    fun name hname hnew => ⟨?_, fun hnone => ?_⟩, fun name hthere => ?_⟩
  · rw [← Association.lookup_isSome_iff, hlookup, hkept]
    by_cases hname : name ∈ plan.baseMatrices
    · simp [hname]
    · simp [hname]
  · refine ⟨?_, hfurnishes.retains name fun h => h.2.1 ((hmem name hname).2 hold)⟩
    obtain ⟨s, hs⟩ := Association.exists_of_mem_names hold
    rw [hlookup, hkept, if_pos hname, hs, Option.some_or]
  · have hnone : w.shapes.lookup name = none :=
      (Association.lookup_eq_none_iff w.shapes name).2 hnew
    rw [hlookup, hkept, if_pos hname, if_pos hname, hnone, Option.none_or]
  · exact hfurnishes.isBlank name hname ⟨mt (hmem name hname).1 hnew, hnone⟩
  · exact hfurnishes.retains name fun h => hthere h.2.2

/-- In the sample the one factor keeps what was painted on it, and the other one is new. -/
theorem setFormula_installs_sample : ∃ new w', make sampleSettings = .ok new ∧
    let w := runAll new [.paint "A" 0 0 (.int 2) none none]
    setFormula (.text "A*C") w = .ok () w' ∧
    (∀ name, name ∈ w'.shapes.names ↔ name ∈ (["A", "C"] : List Text)) ∧
    w.graph.Retains w'.graph "A" ∧ w'.shapes.lookup ("C" : Text) = some (1, 1) ∧
    w'.graph.IsBlank "C" (1, 1) := by
  let new := left (setFormula sampleSettings.formula) (blank sampleSettings)
  let w := runAll new [.paint "A" 0 0 (.int 2) none none]
  let plan := (left (setFormula (.text "A*C")) w).plan
  have hread : Plan.read "A*C" = .ok plan := by decide +kernel
  have hformula : readFormula (.text "A*C") = .ok plan := congrArg (Except.mapError _) hread
  have houtput : matrixName? w.output = some defaultOutput := by decide +kernel
  have hobstacle : plan.obstacle? defaultOutput = none := by decide +kernel
  obtain ⟨shape, w', hcheck, hrun, hnames, hold, hnew, -⟩ :=
    setFormula_installs ⟨_, new, _, make_sampleSettings, rfl⟩
      hformula (by rw [outputFor, houtput]) hobstacle
  have hshape : (Size.check w.rows w.cols w.sizeLimit).toOption = some (1, 1) := by decide +kernel
  rw [hcheck] at hshape
  cases hshape
  have hbases : plan.baseMatrices = ["A", "C"] := by decide +kernel
  rw [hbases] at hnames hold hnew
  obtain ⟨hlookup, hblank⟩ := hnew "C" (by decide) (by decide +kernel)
  exact ⟨new, w', make_sampleSettings, hrun, hnames, (hold "A" (by decide) (by decide +kernel)).2,
    hlookup, hblank (by decide +kernel)⟩

/-! ### Matrices of earlier formulas -/

/-- A workspace for a member of a sequence. -/
def memberSettings : Settings where
  formula := .text "K_0=A"
  rows := .int 1
  cols := .int 1

theorem make_memberSettings :
    make memberSettings =
      .ok (left (setFormula memberSettings.formula) (blank memberSettings)) :=
  make_of_isSome (by decide +kernel)

/-- The member is computed from a matrix that has grown and been painted. -/
def computing : List Operation :=
  [.resize "A" (.int 2) (.int 2), .paint "A" 0 0 (.int 2) none none, .recompute]

/-- **A computed matrix becomes an input matrix.** A formula that reads a member which an earlier
one computed declares it in the size of the workspace, but what it reads is the matrix that was
computed: it has another size, it is not blank, and it derives from cells of another matrix. -/
theorem installs_computed : ∃ w plan, w.IsReachable ∧
    readFormula (.text "K_0*A") = .ok plan ∧ outputFor plan w.output = .ok defaultOutput ∧
    plan.obstacle? defaultOutput = none ∧ ("K_0" : Text) ∈ plan.baseMatrices ∧
    ("K_0" : Text) ∉ w.shapes.names ∧
    let w' := left (setFormula (.text "K_0*A")) w
    w'.shapes.lookup ("K_0" : Text) = some (1, 1) ∧ w'.graph.shape? "K_0" = some (2, 2) ∧
    ∃ c ∈ w'.graph.cells "K_0", c.value.toInt = 2 ∧ c.dependencies ≠ [] := by
  let new := left (setFormula memberSettings.formula) (blank memberSettings)
  let w := runAll new computing
  let plan := (left (setFormula (.text "K_0*A")) w).plan
  let w' := left (setFormula (.text "K_0*A")) w
  -- all at once, since every question would compute the member again
  have hall : Plan.read "K_0*A" = .ok plan ∧ matrixName? w.output = some defaultOutput ∧
      plan.obstacle? defaultOutput = none ∧ ("K_0" : Text) ∈ plan.baseMatrices ∧
      ("K_0" : Text) ∉ w.shapes.names ∧ w'.shapes.lookup ("K_0" : Text) = some (1, 1) ∧
      w'.graph.shape? "K_0" = some (2, 2) ∧
      ∃ c ∈ w'.graph.cells "K_0", c.value.toInt = 2 ∧ c.dependencies ≠ [] := by decide +kernel
  obtain ⟨hread, houtput, hrest⟩ := hall
  exact ⟨w, plan, ⟨_, new, _, make_memberSettings, rfl⟩, congrArg (Except.mapError _) hread,
    by rw [outputFor, houtput], hrest⟩

end Workspace

end CellLineage
