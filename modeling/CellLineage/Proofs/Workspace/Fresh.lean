import CellLineage.Proofs.Recompute.Stages
import CellLineage.Proofs.Workspace.Import

/-!
# Fresh workspaces

A workspace is *fresh* if its graph has the declared matrices and no others, in their declared
shapes, and nothing is painted on them. A workspace without matrices is fresh, and declaring
matrices of new names keeps a workspace fresh. So a new workspace is, and so is one in which the
matrices of a document have been declared but not painted yet.

## Main definitions

* `Graph.IsUnpainted`: nothing is painted on a graph.
* `Workspace.IsFresh`: nothing is painted on the declared matrices, and there are no others.

## Main results

* `Workspace.IsFresh.forM_declare`: declaring matrices of new names.
* `Workspace.exists_of_make_text`: a new workspace declares what its formula reads.
-/

namespace CellLineage

namespace Association

variable {α : Type} {xs : Association α} {name : Text}

theorem put_of_notMem (h : name ∉ names xs) (a : α) : put xs name a = xs ++ [(name, a)] := by
  induction xs with
  | nil => rfl
  | cons x xs ih =>
    obtain ⟨hne, hxs⟩ := not_or.1 (mt List.mem_cons.2 h)
    rw [put, if_neg (Ne.symm hne), ih hxs, List.cons_append]

end Association

namespace Graph

variable {g g' : Graph} {name : Text} {i j : Nat}

/-- A matrix that is kept is painted as before. -/
theorem Keeps.paintAt_eq (h : g.Keeps g' name) : g'.paintAt name i j = g.paintAt name i j := by
  cases hb : g.matrices[name]? with
  | none =>
    rw [paintAt, paintAt, cellAt?_of_missing hb, cellAt?_of_missing (h.matrices.trans hb)]
  | some b =>
    by_cases hij : i < b.rows ∧ j < b.cols
    · have hcore := congrArg Cell.painted (h.coreAt hb hij.1 hij.2)
      rw [paintAt, paintAt, cellAt?_of_lt hb hij.1 hij.2,
        cellAt?_of_lt (h.matrices.trans hb) hij.1 hij.2]
      exact hcore
    · rw [paintAt, paintAt, cellAt?_of_not_lt hb hij, cellAt?_of_not_lt (h.matrices.trans hb) hij]

/-- Nothing is painted on the graph. -/
def IsUnpainted (g : Graph) : Prop :=
  ∀ name (i j : Nat), g.paintAt name i j = ⟨i, j, .int 0, none, none, false⟩

theorem isUnpainted_empty (stem : String) : (empty stem).IsUnpainted := by
  intro name i j
  rw [paintAt, cellAt?_of_missing Std.ExtTreeMap.getElem?_empty]
  rfl

/-- Nothing is painted on a fresh matrix either. -/
theorem IsUnpainted.addMatrix (h : g.IsUnpainted) (hg : g.IsWellFormed) (name : Text)
    {rows cols : Nat} (hr : 0 < rows) (hc : 0 < cols) :
    (g.addMatrix name rows cols hr hc).IsUnpainted := by
  intro other i j
  have hprepared := prepared_addMatrix hg name hr hc
  by_cases hname : other = name
  · subst hname
    by_cases hij : i < rows ∧ j < cols
    · have hcore : (g.addMatrix other rows cols hr hc).coreAt (g.nextBlock rows cols hr hc) i j =
          .blank (g.idAt (g.nextBlock rows cols hr hc) i j) other i j :=
        coreAt_addMatrix hij.1 hij.2
      rw [paintAt, cellAt?_of_lt hprepared.matrices hij.1 hij.2]
      exact congrArg Cell.painted hcore
    · rw [paintAt, cellAt?_of_not_lt hprepared.matrices hij]
      rfl
  · rw [(hprepared.keeps other hname).paintAt_eq, h]

end Graph

namespace Workspace

open Formula

variable {w w' new : Workspace} {name : Text} {shape : Nat × Nat}

/-! ### Declaring matrices -/

/-- Declaring a matrix that is not there enters and makes it. -/
theorem declare_of_notMem {rows? cols? : Option Datum} (h : name ∉ w.shapes.names)
    (hcheck : Size.check (rows?.getD w.rows) (cols?.getD w.cols) w.sizeLimit = .ok shape)
    (hgraph : w.graph.hasMatrix name = false) :
    declare name rows? cols? w = .ok ()
      { w with
        shapes := w.shapes ++ [(name, shape)]
        graph := w.graph.addMatrix name shape.1 shape.2 (Size.check_eq_ok hcheck).1.1
          (Size.check_eq_ok hcheck).2.1 } := by
  obtain ⟨⟨hrows, -⟩, ⟨hcols, -⟩⟩ := Size.check_eq_ok hcheck
  rw [declare_eq_of_notMem h hcheck, hgraph, Association.put_of_notMem h]
  exact liftGraph_of_ok (w := { w with shapes := w.shapes ++ [(name, shape)] })
    (fun g => g.initMatrix name shape.1 shape.2) (Graph.initMatrix_eq_ok hrows hcols)

/-- The graph has the declared matrices and no others, in their declared shapes, and nothing is
painted on them. -/
structure IsFresh (w : Workspace) : Prop where
  onlyDeclared : w.OnlyDeclared
  shapesAgree : w.ShapesAgree
  isWellFormed : w.graph.IsWellFormed
  stem_eq : w.graph.stem = stem
  isUnpainted : w.graph.IsUnpainted

theorem isFresh_blank (s : Settings) : (blank s).IsFresh where
  onlyDeclared name hs := by cases hs
  shapesAgree name shape hs := nomatch hs
  isWellFormed := Graph.isWellFormed_empty stem
  stem_eq := rfl
  isUnpainted := Graph.isUnpainted_empty stem

namespace IsFresh

/-- **Declaring a matrix** of a new name. -/
theorem declare (h : w.IsFresh) {rows? cols? : Option Datum} (hnew : name ∉ w.shapes.names)
    (hcheck : Size.check (rows?.getD w.rows) (cols?.getD w.cols) w.sizeLimit = .ok shape) :
    ∃ g, declare name rows? cols? w =
        .ok () { w with shapes := w.shapes ++ [(name, shape)], graph := g } ∧
      { w with shapes := w.shapes ++ [(name, shape)], graph := g }.IsFresh := by
  have hgraph : w.graph.hasMatrix name = false := by
    rw [Graph.hasMatrix_eq, Bool.eq_false_iff]
    exact fun hs => hnew (h.onlyDeclared name hs)
  have hrun := declare_of_notMem hnew hcheck hgraph
  obtain ⟨⟨hrows, -⟩, ⟨hcols, -⟩⟩ := Size.check_eq_ok hcheck
  obtain ⟨honly, hagree⟩ := h.onlyDeclared.declare h.shapesAgree name rows? cols?
  rw [left_of_ok hrun] at honly hagree
  refine ⟨_, hrun, honly, hagree, ?_, ?_, ?_⟩
  · exact (Graph.prepared_addMatrix h.isWellFormed name hrows hcols).isWellFormed
  · exact Graph.stem_addMatrix.trans h.stem_eq
  · exact h.isUnpainted.addMatrix h.isWellFormed name hrows hcols

/-- **Declaring matrices** of new names, one after another. -/
theorem forM_declare {α : Type} (h : w.IsFresh) (as : List α) (names : α → Text)
    (sizes : α → Option Datum × Option Datum) (shapes : α → Nat × Nat)
    (hnew : (w.shapes.names ++ as.map names).Nodup)
    (hcheck : ∀ a ∈ as, Size.check ((sizes a).1.getD w.rows) ((sizes a).2.getD w.cols) w.sizeLimit =
      .ok (shapes a)) :
    ∃ g, as.forM (fun a => Workspace.declare (names a) (sizes a).1 (sizes a).2) w =
        .ok () { w with shapes := w.shapes ++ as.map fun a => (names a, shapes a), graph := g } ∧
      { w with shapes := w.shapes ++ as.map fun a => (names a, shapes a), graph := g }.IsFresh := by
  induction as generalizing w with
  | nil =>
    simp only [List.map_nil, List.append_nil]
    exact ⟨w.graph, rfl, h⟩
  | cons a as ih =>
    obtain ⟨ha, has⟩ := List.forall_mem_cons.1 hcheck
    rw [List.map_cons, List.append_cons] at hnew
    have ha' : names a ∉ w.shapes.names := fun hmem =>
      (List.nodup_append.1 (List.nodup_append.1 hnew).1).2.2 _ hmem _ List.mem_cons_self rfl
    obtain ⟨g, hrun, hg⟩ := h.declare ha' ha
    have hnames : (w.shapes ++ [(names a, shapes a)] : Shapes).names =
        w.shapes.names ++ [names a] := List.map_append
    obtain ⟨g', hrest, hg'⟩ := ih hg (by rwa [hnames]) has
    rw [List.map_cons, List.append_cons]
    exact ⟨g', (bind_eq_of_ok hrun).trans hrest, hg'⟩

end IsFresh

/-! ### Taking a formula -/

variable {text output : Text} {plan : Plan}

theorem forM_eq_of_forall {α : Type} {f : α → Run Unit} {as : List α}
    (h : ∀ a ∈ as, f a w = .ok () w) : as.forM f w = .ok () w := by
  induction as with
  | nil => rfl
  | cons a as ih =>
    obtain ⟨ha, has⟩ := List.forall_mem_cons.1 h
    exact (bind_eq_of_ok ha).trans (ih has)

theorem outputFor_text (plan : Plan) (output : Text) : outputFor plan (.text output) = .ok output :=
  rfl

/-- A formula that may be evaluated is taken, and its input matrices are declared. -/
theorem setFormula_of_obstacle {formula : Datum} (hread : readFormula formula = .ok plan)
    (houtput : outputFor plan w.output = .ok output) (hobstacle : plan.obstacle? output = none) :
    setFormula formula w = declareBases plan { w with formula, plan } := by
  have hread' : setFormula formula w = (do
      let plan ← rethrow (readFormula formula)
      modify fun w => { w with plan }
      let output ← rethrow (outputFor plan (← get).output)
      if (plan.obstacle? output).isNone then declareBases plan : Run Unit)
        { w with formula } := rfl
  have hrest : (do
      let plan ← rethrow (.ok plan)
      modify fun w => { w with plan }
      let output ← rethrow (outputFor plan (← get).output)
      if (plan.obstacle? output).isNone then declareBases plan : Run Unit)
        { w with formula } =
        (do
          let output ← rethrow (outputFor plan w.output)
          if (plan.obstacle? output).isNone then declareBases plan : Run Unit)
            { w with formula, plan } := rfl
  rw [hread', hread, hrest, houtput]
  change (if (plan.obstacle? output).isNone then declareBases plan else pure ()) _ = _
  rw [hobstacle]
  rfl

theorem setFormula_of_text (hread : Plan.read text = .ok plan) (houtput : w.output = .text output)
    (hobstacle : plan.obstacle? output = none) :
    setFormula (.text text) w = declareBases plan { w with formula := .text text, plan } :=
  setFormula_of_obstacle (congrArg (Except.mapError _) hread)
    (by rw [houtput, outputFor_text]) hobstacle

/-- Nothing happens if the declared matrices are those that the plan reads. -/
theorem declareBases_of_mem_names (h : ∀ name, name ∈ w.shapes.names ↔ name ∈ plan.baseMatrices) :
    declareBases plan w = .ok () w := by
  have hkeep : w.shapes.keep (fun name => plan.baseMatrices.contains name) = w.shapes := by
    refine List.filter_eq_self.2 fun s hs => List.contains_iff_mem.2 ((h s.1).1 ?_)
    exact List.mem_map_of_mem hs
  have hrun : declareBases plan w = (plan.baseMatrices.forM fun name => declare name none none)
      { w with shapes := w.shapes.keep fun name => plan.baseMatrices.contains name } := rfl
  rw [hrun, hkeep]
  exact forM_eq_of_forall fun name hname => declare_of_mem ((h name).2 hname) none none

theorem nodup_baseMatrices (plan : Plan) : plan.baseMatrices.Nodup := by
  unfold Plan.baseMatrices
  split
  · exact List.nodup_nil
  · split
    · exact Graph.nodup_sortedNames _
    · exact (Graph.nodup_sortedNames _).filter _

/-- A fresh workspace without matrices declares what a plan reads in its own sizes. -/
theorem IsFresh.declareBases (h : w.IsFresh) (hshapes : w.shapes = [])
    (hcheck : Size.check w.rows w.cols w.sizeLimit = .ok shape) (plan : Plan) :
    ∃ g, declareBases plan w =
        .ok () { w with shapes := plan.baseMatrices.map fun name => (name, shape), graph := g } ∧
      { w with shapes := plan.baseMatrices.map fun name => (name, shape), graph := g }.IsFresh := by
  have hrun : Workspace.declareBases plan w =
      (plan.baseMatrices.forM fun name => Workspace.declare name none none) w := by
    have hkeep :
        { w with shapes := w.shapes.keep fun name => plan.baseMatrices.contains name } = w := by
      rw [hshapes]
      cases w
      cases hshapes
      rfl
    exact congrArg (plan.baseMatrices.forM fun name => Workspace.declare name none none) hkeep
  have hnew : (w.shapes.names ++ plan.baseMatrices.map id).Nodup := by
    rw [hshapes, List.map_id]
    exact nodup_baseMatrices plan
  obtain ⟨g, hdeclare, hfresh⟩ := h.forM_declare plan.baseMatrices id (fun _ => (none, none))
    (fun _ => shape) hnew fun name _ => hcheck
  rw [hshapes] at hdeclare hfresh
  exact ⟨g, hrun.trans hdeclare, hfresh⟩

/-- The sizes and the number of iterations of a new workspace are checked before its formula is
taken. -/
theorem exists_checks_of_make {s : Settings} (h : make s = .ok new) :
    (∃ shape, Size.check s.rows s.cols s.sizeLimit = .ok shape) ∧
      (∃ count, Config.checkIterations (.int Size.defaultLimit) s.iterations = .ok count) ∧
      setFormula s.formula (blank s) = .ok () new := by
  obtain ⟨shape, w₁, hsize, hrest⟩ := exists_of_bind_eq (eq_ok_of_after h)
  obtain ⟨hshape, rfl⟩ := liftSize_eq_ok hsize
  obtain ⟨count, w₂, hcheck, hformula⟩ := exists_of_bind_eq hrest
  obtain ⟨hcount, rfl⟩ := liftSize_eq_ok hcheck
  exact ⟨⟨shape, hshape⟩, ⟨count, hcount⟩, hformula⟩

/-- **A new workspace** declares what its formula reads, if that may be evaluated. -/
theorem exists_of_make_text {s : Settings} (h : make s = .ok new)
    (hformula : s.formula = .text text) (houtput : s.output = .text output)
    (hobstacle : new.plan.obstacle? output = none) :
    ∃ shape g, Plan.read text = .ok new.plan ∧ Size.check s.rows s.cols s.sizeLimit = .ok shape ∧
      new = { blank s with
        formula := .text text
        plan := new.plan
        shapes := new.plan.baseMatrices.map fun name => (name, shape)
        graph := g } ∧
      new.IsFresh := by
  obtain ⟨⟨shape, hcheck⟩, -, hset⟩ := exists_checks_of_make h
  rw [hformula] at hset
  obtain ⟨plan, hread, hsame⟩ := setFormula_eq_ok hset
  have hplan : new.plan = plan := by rw [hsame]
  rw [hplan] at hobstacle ⊢
  have hread : Plan.read text = .ok plan := eq_ok_of_mapError hread
  have hblank : ({ blank s with formula := .text text, plan } : Workspace).IsFresh :=
    { isFresh_blank s with }
  obtain ⟨g, hrun, hfresh⟩ := hblank.declareBases rfl hcheck plan
  rw [setFormula_of_text (w := blank s) hread houtput hobstacle, hrun] at hset
  cases hset
  exact ⟨shape, g, hread, hcheck, rfl, hfresh⟩

/-- A workspace with a blank formula is new as long as its settings pass their checks. -/
theorem make_eq_blank {s : Settings} (hformula : s.formula = .text "")
    (houtput : s.output = .text output)
    (hcheck : Size.check s.rows s.cols s.sizeLimit = .ok shape) {count : Option Nat}
    (hcount : Config.checkIterations (.int Size.defaultLimit) s.iterations = .ok count) :
    make s = .ok (blank s) := by
  have hset : setFormula (.text "") (blank s) = .ok () (blank s) := by
    have hread : Plan.read "" = .ok (.blank "") := rfl
    rw [setFormula_of_text hread houtput rfl]
    rfl
  rw [make, hformula, hcheck, hcount]
  change after (setFormula (.text "")) (blank s) = _
  rw [after, hset]

end Workspace

end CellLineage
