import CellLineage.Proofs.Workspace.Pattern
import CellLineage.Proofs.Workspace.Plan

/-!
# Symmetric painting

In the symmetric mode a cell of a square matrix is painted together with the one across the
diagonal. That alone says little: what is written may go to the copy in the mirror mode, which may
have another size, and copying the left matrix changes a part of the right one. What makes both
harmless is that all matrices involved are square and symmetric. The invariant says so of the input
matrices of the formula, and that the left matrix of the fixed layout is one of them or not there,
so that nothing else is copied into an input matrix.

An evaluation makes the input matrices anew as they were painted, so it keeps them symmetric unless
it writes its product to one.

## Main definitions

* `Graph.IsSymmetric`: a square matrix that looks the same across its diagonal.
* `Workspace.IsBalanced`: the invariant of the symmetric mode.
* `Workspace.Operation.IsBalancing`: operations that paint cells or symmetric patterns, resize input
  matrices to squares, or evaluate the formula.

## Main results

* `Workspace.isBalanced_of_make`: a new workspace is balanced.
* `Workspace.IsBalanced.recompute`: evaluating the formula keeps it balanced.
* `Workspace.IsBalanced.apply`: so does each of the operations.
* `Workspace.symmetric_runAll`: input matrices are symmetric after each run of them.
* `Workspace.symmetric_overwritten`: they are not if the formula reads the output.
-/

namespace CellLineage

open Formula Workspace

namespace Graph

variable {g g' : Graph} {name : Text} {i j n : Nat}

/-- The matrix is square, and cells across the diagonal look the same. -/
def IsSymmetric (g : Graph) (name : Text) : Prop :=
  ∃ n, g.shape? name = some (n, n) ∧ ∀ i j, g.lookAt name i j = g.lookAt name j i

theorem hasCell_comm (h : g.shape? name = some (n, n)) :
    g.HasCell name i j ↔ g.HasCell name j i := by
  rw [hasCell_iff_of_shape? h, hasCell_iff_of_shape? h, and_comm]

/-- A symmetric matrix that gets another size but stays square. -/
theorem IsSymmetric.of_keepsLook (h : g.IsSymmetric name) (hkeeps : g.KeepsLook g' name)
    (hshape : g'.shape? name = some (n, n)) : g'.IsSymmetric name := by
  obtain ⟨-, -, hlook⟩ := h
  refine ⟨n, hshape, fun i j => ?_⟩
  by_cases hcell : g'.HasCell name i j
  · rw [hkeeps i j hcell, hkeeps j i ((hasCell_comm hshape).1 hcell), hlook]
  · rw [lookAt_of_not_hasCell hcell, lookAt_of_not_hasCell (mt (hasCell_comm hshape).1 hcell)]

end Graph

namespace Workspace

variable {w w' new : Workspace} {name : Text}

/-- Equal sizes that pass the check are those of a square. -/
theorem exists_square_of_check {size limit : Datum} {shape : Nat × Nat}
    (h : Size.check size size limit = .ok shape) : ∃ n, shape = (n, n) := by
  obtain ⟨⟨-, -, hrows⟩, ⟨-, -, hcols⟩⟩ := Size.check_eq_ok h
  have he := hrows.symm.trans hcols
  simp only [Datum.int, Datum.number.injEq, Number.int.injEq, Int.natCast_inj] at he
  exact ⟨shape.1, Prod.ext rfl he.symm⟩

/-- The symmetric mode is on, the declared matrices are input matrices of the formula, and these are
declared as square ones and symmetric in the graph. The left matrix of the fixed layout is there
only if it is one of them. The output and generated names are others. -/
structure IsBalanced (w : Workspace) : Prop where
  isWellFormed : w.graph.IsWellFormed
  plan : ∃ text, Plan.read text = .ok w.plan
  symmetric : w.symmetric.isTruthy = true
  names : w.shapes.names ⊆ w.plan.baseMatrices
  square : ∀ name ∈ w.plan.baseMatrices, ∃ n, w.shapes.lookup name = some (n, n)
  isSymmetric : ∀ name ∈ w.plan.baseMatrices, w.graph.IsSymmetric name
  source : mirrorSource ∈ w.plan.baseMatrices ∨ w.graph.shape? mirrorSource = none
  spared : ∀ name ∈ w.plan.baseMatrices, name ∉ generatedNames ∧ matrixName? w.output ≠ some name
  output : matrixName? w.output ≠ some mirrorSource

namespace IsBalanced

/-- What is painted changes the graph only. -/
theorem of_paints (h : w.IsBalanced) (hpaints : Paints w w')
    (hsymmetric : ∀ name ∈ w.plan.baseMatrices, w'.graph.IsSymmetric name) : w'.IsBalanced := by
  have hg := hpaints.edits.isWellFormed h.isWellFormed
  have hsource := h.source
  rw [← hpaints.shape?_eq] at hsource
  rw [hpaints.eq]
  exact { h with isWellFormed := hg, isSymmetric := hsymmetric, source := hsource }

/-- What reaches an input matrix is written to one. -/
theorem mem_of_reaches (h : w.IsBalanced) {shape : Nat × Nat}
    (hshape : w.graph.shape? name = some shape) {base : Text} (hbase : base ∈ w.plan.baseMatrices)
    (hreaches : w.Reaches name base) : name ∈ w.plan.baseMatrices := by
  rcases hreaches with rfl | ⟨hfollowed, -⟩
  · exact hbase
  · rw [isFollowed, Bool.and_eq_true, beq_iff_eq] at hfollowed
    obtain ⟨-, rfl⟩ := hfollowed
    refine h.source.resolve_right fun hnone => ?_
    cases hnone.symm.trans hshape

/-- **Writing the same at positions across the diagonal.** -/
theorem mark (h : w.IsBalanced) {shape : Nat × Nat} (hshape : w.graph.shape? name = some shape)
    {ps : List (Int × Int)} (hps : shape.1 = shape.2 → ∀ p ∈ ps, p.swap ∈ ps) (value : Number)
    (color : Option Text) (isIdentity : Option Bool) :
    (w.mark name ps value color isIdentity).IsBalanced := by
  refine h.of_paints (paints_mark ..) fun base hbase => ?_
  obtain ⟨n, hsquare, hlook⟩ := h.isSymmetric base hbase
  refine ⟨n, ((paints_mark ..).shape?_eq base).trans hsquare, fun i j => ?_⟩
  rw [lookAt_mark h.isWellFormed, lookAt_mark h.isWellFormed]
  have hcell : w.graph.HasCell base i j ↔ w.graph.HasCell base j i := Graph.hasCell_comm hsquare
  by_cases hreaches : w.Reaches name base
  · obtain ⟨m, hm, -⟩ := h.isSymmetric name (h.mem_of_reaches hshape hbase hreaches)
    obtain rfl := Option.some.inj (hshape.symm.trans hm)
    have hswap : ((i : Int), (j : Int)) ∈ ps ↔ ((j : Int), (i : Int)) ∈ ps :=
      ⟨fun hp => hps rfl _ hp, fun hp => hps rfl _ hp⟩
    simp only [hswap, hcell, hlook i j]
  · simp only [hreaches, false_and, if_false, hlook i j]

theorem cleared (h : w.IsBalanced) (name : Text) : (w.cleared name).IsBalanced := by
  refine h.of_paints (paints_cleared w name) fun base hbase => ?_
  obtain ⟨n, hsquare, hlook⟩ := h.isSymmetric base hbase
  refine ⟨n, ((paints_cleared w name).shape?_eq base).trans hsquare, fun i j => ?_⟩
  rw [lookAt_cleared h.isWellFormed, lookAt_cleared h.isWellFormed, hlook]

theorem syncMirror (h : w.IsBalanced) : w.syncMirror.IsBalanced := by
  refine h.of_paints (paints_syncMirror w) fun base hbase => ?_
  obtain ⟨n, hsquare, hlook⟩ := h.isSymmetric base hbase
  refine ⟨n, ((paints_syncMirror w).shape?_eq base).trans hsquare, fun i j => ?_⟩
  rw [lookAt_syncMirror h.isWellFormed, lookAt_syncMirror h.isWellFormed]
  by_cases htarget : base = mirrorTarget ∧ mirrorSource ∈ w.plan.baseMatrices
  · obtain ⟨rfl, hsource⟩ := htarget
    obtain ⟨m, hm, hcopied⟩ := h.isSymmetric mirrorSource hsource
    have hcell : w.graph.HasCell mirrorTarget i j ↔ w.graph.HasCell mirrorTarget j i :=
      Graph.hasCell_comm hsquare
    have hcell' : w.graph.HasCell mirrorSource i j ↔ w.graph.HasCell mirrorSource j i :=
      Graph.hasCell_comm hm
    simp only [hcell, hcell', hlook i j, hcopied i j]
  · have hnot (i j : Nat) : ¬(base = mirrorTarget ∧ w.graph.HasCell mirrorTarget i j ∧
        w.graph.HasCell mirrorSource i j) := by
      rintro ⟨hbase, -, hsource⟩
      have hnone := h.source.resolve_left fun hmem => htarget ⟨hbase, hmem⟩
      exact Graph.not_hasCell_of_shape? hnone hsource
    rw [if_neg (hnot i j), if_neg (hnot j i), hlook]

theorem of_declares (h : w.IsBalanced) {n : Nat} (hdeclares : Declares w w' name (n, n))
    (hname : name ∈ w.plan.baseMatrices) (hg : w'.graph.IsWellFormed)
    (hkeeps : ∀ other, w.graph.KeepsLook w'.graph other) : w'.IsBalanced := by
  have hshape := hdeclares.shape?_eq
  have hnames : w'.shapes.names ⊆ w.plan.baseMatrices := fun other hother =>
    (hdeclares.mem_names.1 hother).elim (fun he => he ▸ hname) fun hold => h.names hold
  have hsquare : ∀ base ∈ w.plan.baseMatrices, ∃ m, w'.shapes.lookup base = some (m, m) := by
    intro base hbase
    rw [hdeclares.lookup]
    split
    · exact ⟨n, rfl⟩
    · exact h.square base hbase
  have hsymmetric : ∀ base ∈ w.plan.baseMatrices, w'.graph.IsSymmetric base := by
    intro base hbase
    have hbefore := h.isSymmetric base hbase
    obtain ⟨m, hm, -⟩ := id hbefore
    by_cases he : base = name
    · exact hbefore.of_keepsLook (hkeeps base) ((hshape base).trans (if_pos he))
    · exact hbefore.of_keepsLook (hkeeps base) (((hshape base).trans (if_neg he)).trans hm)
  have hsource : mirrorSource ∈ w.plan.baseMatrices ∨ w'.graph.shape? mirrorSource = none := by
    by_cases he : mirrorSource = name
    · exact .inl (he ▸ hname)
    · rw [hshape, if_neg he]
      exact h.source
  rw [hdeclares.eq] at hnames hsquare ⊢
  exact { h with
    isWellFormed := hg
    names := hnames
    square := hsquare
    isSymmetric := hsymmetric
    source := hsource }

/-- **Resizing an input matrix** to a square. -/
theorem resize (h : w.IsBalanced) (hname : name ∈ w.plan.baseMatrices) (size : Datum) :
    (left (resize name size size) w).IsBalanced := by
  have hg := (editsGraph_resize name size size w).isWellFormed h.isWellFormed
  have hkeeps := keepsLook_resize h.isWellFormed name size size
  rcases resize_cases name size size w with hrun | ⟨shape, hcheck, -⟩
  · rwa [hrun]
  obtain ⟨n, rfl⟩ := exists_square_of_check hcheck
  obtain ⟨w₁, hrun, hdeclares⟩ := exists_declares_of_check hcheck name
  rw [left_of_ok hrun] at hg hkeeps ⊢
  exact h.of_declares hdeclares hname hg hkeeps

/-- The left matrix of the fixed layout is neither the output nor generated. -/
theorem shape?_mirrorSource_recompute (h : w.IsBalanced) {config : Config} {names : List Text}
    (hconfig : w.config = .ok config) (hobstacle : w.plan.obstacle? config.output = none)
    (hnames : inputNames w.plan config = .ok names) (hsource : mirrorSource ∉ names) :
    (Graph.after (Graph.recompute w.plan config) w.graph).shape? mirrorSource = none := by
  obtain ⟨text, hread⟩ := h.plan
  obtain ⟨-, hcells, houtput⟩ := of_config hconfig
  have hne : mirrorSource ≠ config.output := by
    intro he
    refine h.output ?_
    rw [he]
    exact matrixName?_of_outputFor houtput (Plan.obstacle?_eq_none_iff.1 hobstacle).1
  have hmember : mirrorSource ∉ Graph.memberNames :=
    Graph.notMem_memberNames (c := 't') rfl (by decide) (by decide)
  have hgenerated : mirrorSource ∉ generatedNames := IsPublic.notMem_generatedNames (by decide)
  exact congrArg (Option.map Block.shape) ((Graph.recompute_remakes hread hcells h.isWellFormed
    hobstacle hnames hgenerated hmember hne).2 hsource)

/-- **Evaluating the formula** makes the input matrices anew, as they were painted and in their
declared shapes. -/
theorem recompute (h : w.IsBalanced) : (left Workspace.recompute w).IsBalanced := by
  rcases recompute_cases w with ⟨e, -, hrun⟩ | ⟨config, last?, hconfig, hrun⟩
  · rwa [hrun]
  rw [hrun]
  by_cases hruns : w.plan.obstacle? config.output = none ∧
      ∃ names, inputNames w.plan config = .ok names
  swap
  · rw [Graph.after_recompute_of_not hruns]
    exact { h with }
  have hobstacle := hruns.1
  obtain ⟨text, hread⟩ := h.plan
  obtain ⟨hshapes, -, houtput⟩ := of_config hconfig
  have hkeys : ∀ name ∈ config.shapes.names, name ∈ w.plan.baseMatrices := fun name hname =>
    h.names (hshapes ▸ hname)
  obtain ⟨names, hnames, hmem⟩ := exists_inputNames hread hkeys
  have hsymmetric : ∀ base ∈ w.plan.baseMatrices,
      (Graph.after (Graph.recompute w.plan config) w.graph).IsSymmetric base := by
    intro base hbase
    obtain ⟨hgenerated, hout⟩ := h.spared base hbase
    have hne : base ≠ config.output := by
      rintro rfl
      exact hout (matrixName?_of_outputFor houtput (Plan.obstacle?_eq_none_iff.1 hobstacle).1)
    obtain ⟨n, hn⟩ := h.square base hbase
    have hpainted := paintedFrom_recompute h.isWellFormed hconfig hobstacle hnames
      ((hmem base).2 hbase) hgenerated hne hn
    exact (h.isSymmetric base hbase).of_keepsLook hpainted.keepsLook hpainted.shape?_eq
  refine { h with
    isWellFormed := (Graph.edits_recompute w.plan config w.graph).isWellFormed h.isWellFormed
    isSymmetric := hsymmetric
    source := ?_ }
  by_cases hsource : mirrorSource ∈ w.plan.baseMatrices
  · exact .inl hsource
  · exact .inr (h.shape?_mirrorSource_recompute hconfig hobstacle hnames (mt (hmem _).1 hsource))

end IsBalanced

/-! ### Operations that keep matrices symmetric -/

/-- The operation keeps the formula and paints cells one by one, whole matrices or a symmetric
pattern. It resizes at most matrices of the given names, and these to squares. -/
def Operation.IsBalancing (bases : List Text) : Operation → Prop
  | .paint .. | .toggle .. | .fillDiagonal .. | .clearMatrix _ | .setMirror _ | .syncMirror => True
  | .recompute => True
  | .randomize _ _ _ isSymmetric _ => isSymmetric = true
  | .resize name rows cols => name ∈ bases ∧ rows = cols
  | _ => False

/-- In the symmetric mode a cell of a square matrix is painted with the one across the diagonal. -/
theorem swap_mem_spread (hsymmetric : w.symmetric.isTruthy = true) {shape : Nat × Nat}
    (hshape : w.graph.shape? name = some shape) (row col : Int) (hsquare : shape.1 = shape.2) :
    ∀ p ∈ w.spread name row col, p.swap ∈ w.spread name row col := by
  have hspread : w.spread name row col =
      if row != col then [(row, col), (col, row)] else [(row, col)] := by
    simp [spread, hshape, hsymmetric, hsquare]
  rw [hspread]
  by_cases he : row = col
  · simp [he]
  · simp [he]

theorem swap_mem_diagonal (shape : Nat × Nat) : ∀ p ∈ diagonal shape, p.swap ∈ diagonal shape := by
  intro p hp
  obtain ⟨i, hi, rfl⟩ := List.mem_map.1 hp
  exact hp

/-- A symmetric pattern of a square matrix. -/
theorem swap_mem_chosen {shape : Nat × Nat} (hsquare : shape.1 = shape.2) (density : Number)
    (draw : Nat → Number) : ∀ p ∈ chosen shape density true draw,
      p.swap ∈ chosen shape density true draw := by
  rintro ⟨i, j⟩ hp
  obtain ⟨hi, hj, k, hk, hlt⟩ := mem_chosen.1 hp
  exact mem_chosen.2 ⟨hsquare ▸ hj, hsquare ▸ hi, k, hk.swap, hlt⟩

/-- **One operation keeps the input matrices symmetric**, whether it stops part-way or not. -/
theorem IsBalanced.apply (h : w.IsBalanced) {op : Operation}
    (hop : op.IsBalancing w.plan.baseMatrices) : (op.apply w).IsBalanced := by
  have hpaint (name : Text) (row col : Int) (value : Number) (color : Option Text)
      (isIdentity : Option Bool) :
      (left (paint name row col value color isIdentity) w).IsBalanced := by
    rcases paint_cases name row col value color isIdentity w with hrun | ⟨shape, hshape, -, hrun⟩
    · rwa [hrun]
    · rw [hrun]
      exact h.mark hshape (swap_mem_spread h.symmetric hshape row col) value color isIdentity
  cases op with
  | paint name row col value color isIdentity => exact hpaint ..
  | toggle name row col color =>
    rw [Operation.apply]
    obtain ⟨value, color', hrun⟩ := exists_left_toggle name row col color w
    rw [hrun]
    exact hpaint ..
  | fillDiagonal name color isIdentity =>
    rw [Operation.apply]
    rcases fillDiagonal_cases name color isIdentity w with hrun | ⟨shape, hshape, -, hrun⟩
    · rwa [hrun]
    · rw [hrun]
      exact h.mark hshape (fun _ => swap_mem_diagonal shape) _ color isIdentity
  | clearMatrix name =>
    rw [Operation.apply, left_of_ok (clearMatrix_eq name w)]
    split
    · exact h
    · exact h.cleared name
  | randomize name density color isSymmetric draw =>
    obtain rfl : isSymmetric = true := hop
    rw [Operation.apply]
    rcases randomize_cases name density color true draw w with hrun | ⟨shape, hshape, -, hrun⟩
    · rwa [hrun]
    · rw [hrun]
      refine (h.cleared name).mark (((paints_cleared w name).shape?_eq name).trans hshape)
        (fun hsquare p hp => ?_) _ color _
      obtain ⟨q, hq, rfl⟩ := List.mem_map.1 hp
      exact List.mem_map.2 ⟨q.swap, swap_mem_chosen hsquare density draw q hq, rfl⟩
  | resize name rows cols =>
    obtain ⟨hname, rfl⟩ := hop
    exact h.resize hname rows
  | setMirror enabled =>
    have hset : ({ w with mirror := enabled } : Workspace).IsBalanced := { h with }
    rw [Operation.apply, setMirror]
    split
    · exact hset.syncMirror
    · exact hset
  | syncMirror => exact h.syncMirror
  | recompute => exact h.recompute
  | setFormula formula => exact hop.elim
  | declare name rows? cols? => exact hop.elim
  | loadTable name values color => exact hop.elim
  | importDocument source => exact hop.elim

/-- An operation that keeps matrices symmetric takes no formula. -/
theorem Operation.IsBalancing.keepsFormula {op : Operation} {bases : List Text}
    (h : op.IsBalancing bases) (w : Workspace) : KeepsFormula w (op.apply w) := by
  refine keepsFormula_apply (fun htakes => ?_) w
  cases op with
  | setFormula formula => exact h
  | importDocument source => exact h
  | _ => exact htakes

/-- **A new workspace** in the symmetric mode whose matrices are square: nothing is painted yet. -/
theorem isBalanced_of_make {s : Settings} {text output : Text} (hmake : make s = .ok new)
    (hformula : s.formula = .text text) (houtput : s.output = .text output)
    (hsymmetric : s.symmetric.isTruthy = true) (hsquare : s.rows = s.cols)
    (hobstacle : new.plan.obstacle? output = none) (hnotMem : output ∉ new.plan.baseMatrices)
    (hsource : output ≠ mirrorSource)
    (horiginal : ∀ name ∈ new.plan.baseMatrices, .char '@' ∉ name.symbols) : new.IsBalanced := by
  obtain ⟨shape, g, hread, hcheck, hnew, hfresh⟩ :=
    exists_of_make_text hmake hformula houtput hobstacle
  obtain ⟨n, rfl⟩ := exists_square_of_check (hsquare ▸ hcheck)
  have hshapes : new.shapes = new.plan.baseMatrices.map fun name => (name, (n, n)) :=
    congrArg Workspace.shapes hnew
  have hname : matrixName? new.output = some output := by
    rw [(congrArg Workspace.output hnew).trans houtput]
    rfl
  have hlookup : ∀ name ∈ new.plan.baseMatrices, new.shapes.lookup name = some (n, n) := by
    intro name hname
    rw [hshapes, Association.lookup_map _ (fun _ => (n, n)), if_pos hname]
  have hnames : new.shapes.names = new.plan.baseMatrices := by
    rw [hshapes, Association.names, List.map_map]
    exact List.map_id _
  refine ⟨hfresh.isWellFormed, ⟨text, hread⟩,
    (congrArg (fun w => w.symmetric.isTruthy) hnew).trans hsymmetric, hnames ▸ List.Subset.refl _,
    fun name hname => ⟨n, hlookup name hname⟩,
    fun name hname => ⟨n, hfresh.shapesAgree name _ (hlookup name hname), fun i j => ?_⟩,
    ?_, fun name hbase => ⟨?_, ?_⟩, ?_⟩
  · rw [hfresh.isUnpainted.lookAt_eq, hfresh.isUnpainted.lookAt_eq]
  · by_cases hmem : mirrorSource ∈ new.plan.baseMatrices
    · exact .inl hmem
    · refine .inr (Option.eq_none_iff_forall_ne_some.2 fun shape hs => hmem ?_)
      exact hnames ▸ hfresh.onlyDeclared _ (Option.isSome_of_eq_some hs)
  · exact notMem_generatedNames_of_mem_baseMatrices hread hbase (horiginal name hbase)
  · rw [hname]
    rintro he
    cases he
    exact hnotMem hbase
  · rw [hname]
    rintro he
    cases he
    exact hsource rfl

/-- **Symmetric painting keeps square matrices symmetric.** Let a workspace be made in the symmetric
mode with as many rows as columns, for a formula that can be evaluated and reads neither the output
nor a matrix of a generated name. Then after each run of operations that paint cells or symmetric
patterns, resize input matrices to squares, change the mirror mode or evaluate the formula, whether
they stop part-way or not, all matrices that the formula reads are symmetric. -/
theorem symmetric_runAll {s : Settings} {text output : Text} {ops : List Operation}
    (hmake : make s = .ok new)
    (hformula : s.formula = .text text) (houtput : s.output = .text output)
    (hsymmetric : s.symmetric.isTruthy = true) (hsquare : s.rows = s.cols)
    (hobstacle : new.plan.obstacle? output = none) (hnotMem : output ∉ new.plan.baseMatrices)
    (hsource : output ≠ mirrorSource)
    (horiginal : ∀ name ∈ new.plan.baseMatrices, .char '@' ∉ name.symbols)
    (hops : ∀ op ∈ ops, op.IsBalancing new.plan.baseMatrices) :
    (runAll new ops).plan = new.plan ∧
      ∀ name ∈ new.plan.baseMatrices, (runAll new ops).graph.IsSymmetric name := by
  have hnew := isBalanced_of_make hmake hformula houtput hsymmetric hsquare hobstacle hnotMem
    hsource horiginal
  let P (w : Workspace) : Prop := w.IsBalanced ∧ w.plan = new.plan
  have hrun : P (runAll new ops) := by
    refine List.foldlRecOn (motive := P) ops _ ⟨hnew, rfl⟩ fun w ⟨h, hplan⟩ op hop => ?_
    have hop := hops op hop
    exact ⟨h.apply (hplan ▸ hop), (hop.keepsFormula w).2.trans hplan⟩
  exact ⟨hrun.2, fun name hname => hrun.1.isSymmetric name (hrun.2 ▸ hname)⟩

/-- A workspace for the product of the matrices of the fixed layout, in both modes. -/
def symmetricSettings : Settings where
  formula := .text "S_left*S_right"
  rows := .int 2
  cols := .int 2
  symmetric := .bool true
  mirror := .bool true

theorem make_symmetricSettings :
    make symmetricSettings =
      .ok (left (setFormula symmetricSettings.formula) (blank symmetricSettings)) :=
  make_of_isSome (by decide +kernel)

/-- In the sample the left matrix is painted beside a larger right one, which follows it. -/
theorem symmetric_runAll_sample : ∃ new, make symmetricSettings = .ok new ∧
    let w := runAll new [.resize mirrorTarget (.int 3) (.int 3),
      .paint mirrorSource 0 1 (.int 4) none none, .fillDiagonal mirrorSource none none, .recompute]
    w.graph.IsSymmetric mirrorTarget ∧ w.graph.shape? mirrorTarget = some (3, 3) ∧
      (w.graph.lookAt mirrorTarget 1 0).value.toInt = 4 := by
  let new := left (setFormula symmetricSettings.formula) (blank symmetricSettings)
  refine ⟨new, make_symmetricSettings, ?_, by decide +kernel⟩
  have hbases : new.plan.baseMatrices = [mirrorSource, mirrorTarget] := by decide +kernel
  refine (symmetric_runAll make_symmetricSettings rfl rfl (by decide) rfl (by decide +kernel)
    (by decide +kernel) (by decide +kernel) (by decide +kernel) fun op hop => ?_).2 mirrorTarget
      (by decide +kernel)
  simp only [List.mem_cons, List.not_mem_nil, or_false] at hop
  rcases hop with rfl | rfl | rfl | rfl
  · exact ⟨by rw [hbases]; decide +kernel, rfl⟩
  · trivial
  · trivial
  · trivial

/-- A workspace whose formula reads the output through a relative index. -/
def rereadingSettings : Settings where
  formula := .text "A_n*B"
  rows := .int 2
  cols := .int 2
  symmetric := .bool true
  output := .text "A"

theorem make_rereadingSettings :
    make rereadingSettings =
      .ok (left (setFormula rereadingSettings.formula) (blank rereadingSettings)) :=
  make_of_isSome (by decide +kernel)

/-- **Symmetric painting does not keep every input matrix symmetric.** One that is read through a
relative index may be the output, which is not reported, and a product of symmetric matrices is not
symmetric. -/
theorem symmetric_overwritten : ∃ new, make rereadingSettings = .ok new ∧
    new.plan.obstacle? "A" = none ∧ ("A" : Text) ∈ new.plan.baseMatrices ∧
    (∀ name ∈ new.plan.baseMatrices, .char '@' ∉ name.symbols) ∧
    let w := runAll new [.paint "A" 0 0 (.int 1) none none, .paint "B" 0 1 (.int 1) none none,
      .recompute]
    w.graph.shape? "A" = some (2, 2) ∧ (w.graph.lookAt "A" 0 1).value.toInt = 1 ∧
      (w.graph.lookAt "A" 1 0).value.toInt = 0 :=
  ⟨_, make_rereadingSettings, by decide +kernel, by decide +kernel, by decide +kernel,
    by decide +kernel⟩

end Workspace

end CellLineage
