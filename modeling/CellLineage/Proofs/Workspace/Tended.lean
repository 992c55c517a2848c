import CellLineage.Proofs.Recompute.Resembles
import CellLineage.Proofs.Workspace.Fresh

/-!
# Tended workspaces

Between two formulas a workspace is *tended*: its matrices are painted, those that the formula reads
are resized, the mirror mode is turned on and off, and the formula is evaluated. What a new
workspace has once its formula is taken then stays: the formula and most settings, the names of the
declared matrices, which are those that the formula reads, and that each of them is in the graph in
its declared shape, which is within the limit.

If only whole numbers are painted then all cells hold whole numbers, those that an evaluation has
written as well.

## Main definitions

* `Workspace.Operation.IsTending`, `Workspace.Operation.IsWhole`: operations that tend a workspace,
  and those that paint whole numbers.
* `Workspace.IsTended`: a workspace whose formula may be evaluated, in good order.
* `Workspace.SameFormula`: workspaces with the same formula and the same settings but one.

## Main results

* `Workspace.isTended_of_make`: a new workspace is in good order.
* `Workspace.IsTended.apply`: an operation that tends a workspace keeps it in good order.
* `Workspace.IsTended.runAll`: so a run of them does.
* `Workspace.IsTended.exists_fits`: what an evaluation of such a workspace starts from.
* `Workspace.IsTended.isWhole_runAll`: whole numbers stay whole numbers.
-/

namespace CellLineage

/-- The value is a whole number. -/
def Number.IsWhole (value : Number) : Prop :=
  ∃ n, value = .int n

instance : DecidablePred Number.IsWhole
  | .int n => isTrue ⟨n, rfl⟩
  | .float _ => isFalse nofun

namespace Graph

variable {g : Graph}

/-- No edit changes the stem of ids. -/
theorem Edits.stem_eq {g' : Graph} (h : Edits g g') : g'.stem = g.stem := by
  induction h with
  | refl => rfl
  | tail _ h ih =>
    refine Eq.trans ?_ ih
    cases h with
    | addMatrix => exact stem_addMatrix
    | paint => rfl
    | link t s => exact (sameTables_link _ t s).stem
    | unlinkCell id => exact (sameTables_unlinkCell _ id).stem
    | describe => rfl
    | clear => rfl

/-- All cells hold whole numbers. -/
def IsWhole (g : Graph) : Prop :=
  ∀ id, (g.cell id).IsInt

namespace IsWhole

theorem modify (h : g.IsWhole) (id : CellId) {f : Cell → Cell}
    (hf : ∀ c : Cell, c.IsInt → (f c).IsInt) : (g.modify id f).IsWhole := by
  intro k
  rw [cell_modify]
  split
  · exact hf _ (h k)
  · exact h k

theorem update (h : g.IsWhole) (name : Text) (row col : Int) {value : Number} (hv : value.IsWhole)
    (color : Option Text) (isIdentity : Option Bool) (colorIndex : Option Int) :
    (g.update name row col value color isIdentity colorIndex).IsWhole := by
  rw [Graph.update, update?]
  cases g.idAt? name row col with
  | none => exact h
  | some id => exact h.modify id fun c _ => Cell.isInt_iff.2 hv

theorem wipe (h : g.IsWhole) (name : Text) : (g.wipe name).IsWhole := by
  unfold Graph.wipe
  split
  · exact List.foldlRecOn _ _ h fun _ h₁ id _ => h₁.modify id fun c _ => rfl
  · exact h

theorem addMatrix (h : g.IsWhole) (name : Text) {rows cols : Nat} (hr : 0 < rows) (hc : 0 < cols) :
    (g.addMatrix name rows cols hr hc).IsWhole := by
  intro id
  rcases g.cell_addMatrix_cases name rows cols hr hc id with ⟨i, j, -, -, -, hcell⟩ | hcell
  · rw [hcell]
    rfl
  · rw [hcell]
    exact h id

theorem of_mem_cells (h : g.IsWhole) {name : Text} {c : Cell} (hc : c ∈ g.cells name) :
    c.IsInt := by
  unfold cells at hc
  split at hc
  · obtain ⟨id, -, rfl⟩ := List.mem_map.1 hc
    exact h id
  · cases hc

/-- Putting a matrix back in another shape. -/
theorem restore (h : g.IsWhole) (hg : g.IsWellFormed) {name : Text} {s : Snapshot}
    (hs : g.snapshot? name = some s) {rows cols : Nat} (hr : 0 < rows) (hc : 0 < cols) :
    ∃ g', g.restore s rows cols = .ok g' ∧ g'.IsWhole := by
  obtain ⟨g', hrun, hrestores⟩ := restore_spec hg.toIsMinted hg hs hr hc
  have hself : g.Resembles True g := .of_isInt fun _ => h
  have hresembles : g'.Resembles True g' := hself.of_restores hrestores hrestores fun i j _ _ =>
    resembles_paintAt (fun _ => h) name i j
  exact ⟨g', hrun, fun id => (hresembles.cell id).isInt trivial⟩

end IsWhole

end Graph

namespace Workspace

open Formula

variable {w w' w₁ new : Workspace} {name : Text} {value : Number}

/-! ### Operations that tend a workspace -/

/-- The operation keeps the formula, and resizes at most matrices of the given names. -/
def Operation.IsTending (bases : List Text) : Operation → Prop
  | .paint .. | .toggle .. | .fillDiagonal .. | .clearMatrix _ | .randomize .. | .syncMirror => True
  | .recompute => True
  | .setMirror enabled => ∃ isOn : Bool, enabled = .bool isOn
  | .resize name _ _ => name ∈ bases
  | .loadTable name _ _ => name ∈ bases
  | _ => False

/-- The operation paints whole numbers only. -/
def Operation.IsWhole : Operation → Prop
  | .paint _ _ _ value _ _ => value.IsWhole
  | .loadTable _ values _ => ∀ rows, values.table = .ok rows → ∀ row ∈ rows, ∀ x ∈ row, x.IsWhole
  | _ => True

/-! ### Whole numbers -/

theorem exists_of_mem_positioned {α : Type} {rows : List (List α)} {p : Nat × Nat × α}
    (h : p ∈ positioned rows) : ∃ row ∈ rows, p.2.2 ∈ row := by
  obtain ⟨⟨row, i⟩, hrow, h⟩ := List.mem_flatMap.1 h
  obtain ⟨⟨x, j⟩, hx, rfl⟩ := List.mem_map.1 h
  exact ⟨row, List.fst_mem_of_mem_zipIdx hrow, List.fst_mem_of_mem_zipIdx hx⟩

/-- All cells of the graph hold whole numbers. -/
abbrev IsWhole (w : Workspace) : Prop :=
  w.graph.IsWhole

namespace IsWhole

theorem write (h : w.IsWhole) (name : Text) (row col : Int) (hv : value.IsWhole)
    (color : Option Text) (isIdentity : Option Bool) :
    (w.write name row col value color isIdentity).IsWhole := by
  unfold Workspace.write
  dsimp only
  split
  · exact (h.update name row col hv color isIdentity none).update mirrorTarget row col hv color
      isIdentity none
  · exact h.update name row col hv color isIdentity none

/-- Painting cell after cell. -/
theorem foldl {α : Type} {as : List α} {step : Workspace → α → Workspace} (h : w.IsWhole)
    (hstep : ∀ a ∈ as, ∀ w₁ : Workspace, w₁.IsWhole → (step w₁ a).IsWhole) :
    (as.foldl step w).IsWhole :=
  List.foldlRecOn _ _ h fun w₁ h₁ a ha => hstep a ha w₁ h₁

theorem paint (h : w.IsWhole) (name : Text) (row col : Int) (hv : value.IsWhole)
    (color : Option Text) (isIdentity : Option Bool) :
    (left (paint name row col value color isIdentity) w).IsWhole := by
  refine left_bind_of (by rwa [left_requireCell]) fun c w₁ _ h₁ => ?_
  change (left (if w₁.isLocked name then pure () else set _) w₁).IsWhole
  split
  · exact h₁
  · exact h₁.foldl fun p _ w₂ h₂ => h₂.write name p.1 p.2 hv color isIdentity

theorem toggle (h : w.IsWhole) (name : Text) (row col : Int) (color : Option Text) :
    (left (toggle name row col color) w).IsWhole := by
  refine left_bind_of (by rwa [left_requireCell]) fun c w₁ _ h₁ => ?_
  have hpaint (n : Int) (color : Option Text) : (left (do
      Workspace.paint name row col (.int n) color (some false)
      return .int n : Run Number) w₁).IsWhole :=
    left_bind_of (h₁.paint name row col ⟨n, rfl⟩ color (some false)) fun _ _ _ h₂ => h₂
  change (left (if w₁.isLocked name then pure c.value else _) w₁).IsWhole
  split
  · exact h₁
  · split
    · exact hpaint 0 none
    · exact hpaint 1 color

theorem fillDiagonal (h : w.IsWhole) (name : Text) (color : Option Text)
    (isIdentity : Option Bool) : (left (fillDiagonal name color isIdentity) w).IsWhole := by
  refine left_bind_of (by rwa [left_requireShape]) fun shape w₁ _ h₁ => ?_
  change (left (if w₁.isLocked name then pure () else set _) w₁).IsWhole
  split
  · exact h₁
  · exact h₁.foldl fun i _ w₂ h₂ => h₂.write name i i ⟨1, rfl⟩ color isIdentity

theorem clearMatrix (h : w.IsWhole) (name : Text) : (left (clearMatrix name) w).IsWhole := by
  change (left (if w.isLocked name then pure () else _) w).IsWhole
  split
  · exact h
  · have hwipe : ({ w with graph := w.graph.wipe name } : Workspace).IsWhole := h.wipe name
    change (left (if w.isFollowed name then _ else _) { w with graph := w.graph.wipe name }).IsWhole
    split
    · exact hwipe.wipe mirrorTarget
    · exact hwipe

theorem randomize (h : w.IsWhole) (name : Text) (density : Number) (color : Option Text)
    (isSymmetric : Bool) (draw : Nat → Number) :
    (left (randomize name density color isSymmetric draw) w).IsWhole := by
  refine left_bind_of (by rwa [left_requireShape]) fun shape w₁ _ h₁ => ?_
  change (left (if w₁.isLocked name then pure 0 else _) w₁).IsWhole
  split
  · exact h₁
  · refine left_bind_of (h₁.clearMatrix name) fun _ w₂ _ h₂ => ?_
    exact h₂.foldl fun p _ w₃ h₃ => h₃.write name p.1 p.2 ⟨1, rfl⟩ color (some false)

theorem syncMirror (h : w.IsWhole) : w.syncMirror.IsWhole := by
  unfold Workspace.syncMirror
  split
  · refine h.foldl fun c hc w₁ h₁ => h₁.update mirrorTarget c.row c.col ?_ c.color _ none
    exact Cell.isInt_iff.1 (h.of_mem_cells hc)
  · exact h

theorem resize (h : w.IsWhole) (hg : w.graph.IsWellFormed) (name : Text) (rows cols : Datum) :
    (left (resize name rows cols) w).IsWhole := by
  rcases resize_cases name rows cols w with hrun | ⟨shape, hcheck, hrun⟩
  · rwa [hrun]
  obtain ⟨⟨hrows, -⟩, ⟨hcols, -⟩⟩ := Size.check_eq_ok hcheck
  rw [hrun]
  cases hshot : w.graph.snapshot? name with
  | none =>
    rw [initMatrix, left_of_ok (liftGraph_of_ok (w := { w with shapes := w.shapes.put name shape })
      (fun g => g.initMatrix name shape.1 shape.2) (Graph.initMatrix_eq_ok hrows hcols))]
    exact h.addMatrix name hrows hcols
  | some s =>
    dsimp only
    split
    · obtain ⟨g', hrestore, hwhole⟩ := Graph.IsWhole.restore h hg hshot hrows hcols
      rwa [left_of_ok (liftGraph_of_ok (w := { w with shapes := w.shapes.put name shape })
        (fun g => g.restore s shape.1 shape.2) hrestore)]
    · exact h

theorem loadTable (h : w.IsWhole) (hg : w.graph.IsWellFormed) (name : Text) {values : Datum}
    (hvalues : ∀ rows, values.table = .ok rows → ∀ row ∈ rows, ∀ x ∈ row, x.IsWhole)
    (color : Option Text) : (left (loadTable name values color) w).IsWhole := by
  rw [Workspace.loadTable]
  cases htable : values.table with
  | error e => cases e <;> exact h
  | ok rows =>
    change (left (if w.isLocked name then pure () else _) w).IsWhole
    split
    · exact h
    · refine left_bind_of (h.resize hg name _ _) fun _ w₁ _ h₁ => ?_
      refine h₁.foldl fun p hp w₂ h₂ => ?_
      obtain ⟨row, hrow, hvalue⟩ := exists_of_mem_positioned hp
      exact h₂.write name p.1 p.2.1 (hvalues rows htable row hrow _ hvalue) _ _

theorem declare (h : w.IsWhole) (name : Text) (rows? cols? : Option Datum) :
    (left (declare name rows? cols?) w).IsWhole := by
  rcases declare_cases name rows? cols? w with hrun | ⟨shape, -, hcheck, hrun⟩
  · rwa [hrun]
  obtain ⟨⟨hrows, -⟩, ⟨hcols, -⟩⟩ := Size.check_eq_ok hcheck
  rw [hrun]
  split
  · rw [initMatrix, left_of_ok (liftGraph_of_ok (w := { w with shapes := w.shapes.put name shape })
      (fun g => g.initMatrix name shape.1 shape.2) (Graph.initMatrix_eq_ok hrows hcols))]
    exact h.addMatrix name hrows hcols
  · exact h

theorem of_blank (s : Settings) : (blank s).IsWhole := by
  intro id
  rw [blank, Graph.cell_of_notMem Std.ExtTreeMap.not_mem_empty]
  rfl

/-- Nothing but zeros is in a new workspace. -/
theorem of_make {s : Settings} (hmake : make s = .ok new) : new.IsWhole := by
  have hblank := of_blank s
  rw [← left_setFormula_of_make hmake]
  rcases setFormula_cases s.formula (blank s) with
    ⟨e, -, hrun⟩ | ⟨plan, -, ⟨hrun, -⟩ | ⟨output, -, -, hrun⟩⟩
  · rwa [hrun]
  · rwa [hrun]
  · rw [hrun]
    refine left_bind_of hblank fun _ w₁ _ h₁ => ?_
    exact left_forM_of h₁ fun base _ w₂ h₂ => IsWhole.declare h₂ base none none

end IsWhole

/-! ### Good order -/

/-- The formula of the workspace may be evaluated, and none of the matrices that it reads is the
output or has a generated name. Settings are of the kinds that documents hold and pass their checks.
The declared matrices are those that the formula reads, each once, in shapes within the limit, and
they are in the graph in these shapes. -/
structure IsTended (w : Workspace) : Prop where
  isReachable : w.IsReachable
  formula : ∃ text, w.formula = .text text ∧ Plan.read text = .ok w.plan
  output : ∃ output, w.output = .text output ∧ w.plan.obstacle? output = none ∧
    output ∉ w.plan.baseMatrices
  original : ∀ name ∈ w.plan.baseMatrices, .char '@' ∉ name.symbols
  symmetric : ∃ isOn : Bool, w.symmetric = .bool isOn
  mirror : ∃ isOn : Bool, w.mirror = .bool isOn
  iterations : ∃ n : Nat, w.iterations = .int n ∧ 1 ≤ n ∧ n ≤ Size.defaultLimit
  size : ∃ shape, Size.check w.rows w.cols w.sizeLimit = .ok shape
  sizes : ∀ s ∈ w.shapes, Size.check (.int (s.2.1 : Nat)) (.int (s.2.2 : Nat)) w.sizeLimit = .ok s.2
  mem_names : ∀ name, name ∈ w.shapes.names ↔ name ∈ w.plan.baseMatrices
  nodup : w.shapes.names.Nodup
  shapesAgree : w.ShapesAgree

theorem IsReachable.stem_eq (h : w.IsReachable) : w.graph.stem = stem :=
  h.edits.stem_eq

/-- The output of a formula that may be evaluated is not read, and no name that is read is
generated. -/
theorem IsTended.spares (h : w.IsTended) : w.Spares := by
  obtain ⟨text, -, hread⟩ := h.formula
  obtain ⟨output, houtput, -, hnotMem⟩ := h.output
  refine spares_of_names (fun name hname => (h.mem_names name).1 hname) fun name hname => ⟨?_, ?_⟩
  · exact notMem_generatedNames_of_mem_baseMatrices hread hname (h.original name hname)
  · rw [houtput]
    rintro he
    cases he
    exact hnotMem hname

/-- What is checked of sizes is that they are whole numbers between one and the limit. -/
theorem check_int_of_check {rows cols limit : Datum} {shape : Nat × Nat}
    (h : Size.check rows cols limit = .ok shape) :
    Size.check (.int (shape.1 : Nat)) (.int (shape.2 : Nat)) limit = .ok shape := by
  obtain ⟨⟨-, -, hrows⟩, ⟨-, -, hcols⟩⟩ := Size.check_eq_ok h
  rwa [← hrows, ← hcols]

theorem one_le_of_checkIterations {limit n : Int} {count : Option Nat}
    (h : Config.checkIterations (.int limit) (.int n) = .ok count) : 1 ≤ n ∧ n ≤ limit := by
  unfold Config.checkIterations at h
  cases hrange : Size.checkRange (.int limit) (.int n) (.iterations (.int limit) (.int n)) with
  | error e =>
    simp [hrange, Except.map] at h
  | ok _ =>
    obtain ⟨hpos, hle⟩ := Size.checkRange_eq_ok_iff.1 hrange
    exact ⟨by simpa using hpos, by simpa using hle⟩

/-- **A new workspace is in good order** if its formula may be evaluated and its settings are of the
right kinds. -/
theorem isTended_of_make {s : Settings} {text output : Text} {n : Int} {symmetric mirror : Bool}
    (hmake : make s = .ok new) (hformula : s.formula = .text text)
    (houtput : s.output = .text output) (hsymmetric : s.symmetric = .bool symmetric)
    (hmirror : s.mirror = .bool mirror)
    (hiterations : s.iterations = .int n) (hobstacle : new.plan.obstacle? output = none)
    (hnotMem : output ∉ new.plan.baseMatrices)
    (horiginal : ∀ name ∈ new.plan.baseMatrices, .char '@' ∉ name.symbols) : new.IsTended := by
  obtain ⟨-, ⟨count, hcount⟩, -⟩ := exists_checks_of_make hmake
  obtain ⟨shape, g, hread, hcheck, hnew, hfresh⟩ :=
    exists_of_make_text hmake hformula houtput hobstacle
  obtain ⟨hpos, hle⟩ := one_le_of_checkIterations (hiterations ▸ hcount)
  have hshapes : new.shapes = new.plan.baseMatrices.map fun name => (name, shape) :=
    congrArg Workspace.shapes hnew
  have hnames : new.shapes.names = new.plan.baseMatrices := by
    rw [hshapes, Association.names, List.map_map]
    exact List.map_id _
  have hlimit : new.sizeLimit = s.sizeLimit := congrArg Workspace.sizeLimit hnew
  refine ⟨⟨s, new, [], hmake, rfl⟩, ⟨text, congrArg Workspace.formula hnew, hread⟩,
    ⟨output, (congrArg Workspace.output hnew).trans houtput, hobstacle, hnotMem⟩, horiginal,
    ⟨symmetric, (congrArg Workspace.symmetric hnew).trans hsymmetric⟩,
    ⟨mirror, (congrArg Workspace.mirror hnew).trans hmirror⟩, ⟨n.toNat, ?_, by omega, by omega⟩,
    ⟨shape, ?_⟩, fun m hm => ?_, fun name => by rw [hnames], ?_, hfresh.shapesAgree⟩
  · rw [congrArg Workspace.iterations hnew, Int.toNat_of_nonneg (by omega)]
    exact hiterations
  · rw [hlimit, congrArg Workspace.rows hnew, congrArg Workspace.cols hnew]
    exact hcheck
  · rw [hshapes] at hm
    obtain ⟨name, -, rfl⟩ := List.mem_map.1 hm
    rw [hlimit]
    exact check_int_of_check hcheck
  · rw [hnames]
    exact nodup_baseMatrices _

/-- Resizing a matrix does nothing, or it enters a shape that passes the check and changes the
graph. -/
theorem exists_of_resize (name : Text) (rows cols : Datum) (w : Workspace) :
    left (resize name rows cols) w = w ∨
      ∃ shape g, Size.check rows cols w.sizeLimit = .ok shape ∧ left (resize name rows cols) w =
        { w with shapes := w.shapes.put name shape, graph := g } := by
  rcases resize_cases name rows cols w with h | ⟨shape, hcheck, h⟩
  · exact .inl h
  · refine .inr ⟨shape, (left (resize name rows cols) w).graph, hcheck, ?_⟩
    rw [h]
    split
    · rw [initMatrix, left_liftGraph]
    · split
      · rw [left_liftGraph]
      · rfl

/-- The workspaces differ in the mirror mode, the shapes, the last outcome and the graph only. -/
def SameFormula (w w' : Workspace) : Prop :=
  w' = { w with mirror := w'.mirror, shapes := w'.shapes, last? := w'.last?, graph := w'.graph }

namespace SameFormula

theorem refl (w : Workspace) : SameFormula w w :=
  rfl

theorem trans (h : SameFormula w w₁) (h' : SameFormula w₁ w') : SameFormula w w' := by
  rw [SameFormula] at h h' ⊢
  rw [h', h]

theorem plan (h : SameFormula w w') : w'.plan = w.plan :=
  (congrArg Workspace.plan h).trans rfl

theorem output (h : SameFormula w w') : w'.output = w.output :=
  (congrArg Workspace.output h).trans rfl

theorem sizeLimit (h : SameFormula w w') : w'.sizeLimit = w.sizeLimit :=
  (congrArg Workspace.sizeLimit h).trans rfl

end SameFormula

/-! ### What an evaluation starts from -/

/-- Declared shapes that pass the check make settings that declare the same. -/
theorem makeShapes_eq_ok {limit : Datum} {shapes : Shapes} (h : ∀ s ∈ shapes,
    Size.check (.int (s.2.1 : Nat)) (.int (s.2.2 : Nat)) limit = .ok s.2) :
    Config.makeShapes limit (shapes.map fun s => (s.1, .int (s.2.1 : Nat), .int (s.2.2 : Nat))) =
      .ok shapes := by
  induction shapes with
  | nil => rfl
  | cons s shapes ih =>
    obtain ⟨hs, hshapes⟩ := List.forall_mem_cons.1 h
    simp only [List.map_cons, Config.makeShapes, hs, ih hshapes]
    rfl

/-- Settings of the right kinds pass the checks of an evaluation, and they fit the formula if that
may be evaluated; the input matrices are the declared ones. -/
theorem exists_fits {text output : Text} (hread : Plan.read text = .ok w.plan)
    (houtput : w.output = .text output) (hobstacle : w.plan.obstacle? output = none)
    (hiterations : ∃ n : Nat, w.iterations = .int n ∧ 1 ≤ n ∧ n ≤ Size.defaultLimit)
    (hsize : ∃ shape, Size.check w.rows w.cols w.sizeLimit = .ok shape)
    (hsizes : ∀ s ∈ w.shapes,
      Size.check (.int (s.2.1 : Nat)) (.int (s.2.2 : Nat)) w.sizeLimit = .ok s.2)
    (hnames : ∀ name, name ∈ w.shapes.names ↔ name ∈ w.plan.baseMatrices) :
    ∃ config names, w.config = .ok config ∧ Graph.Fits w.plan config names ∧
      ∀ name, name ∈ names ↔ name ∈ w.shapes.names := by
  obtain ⟨n, hiterations, hpos, hle⟩ := hiterations
  obtain ⟨shape, hsize⟩ := hsize
  have hcount : Config.checkIterations (.int Size.defaultLimit) w.iterations = .ok (some n) := by
    rw [hiterations]
    exact Config.checkIterations_int ⟨by omega, hle⟩
  let config : Config := ⟨output, some n, w.shapes, shape⟩
  have hconfig : w.config = .ok config := by
    simp only [Workspace.config, Config.make, hcount, hsize, makeShapes_eq_ok hsizes, houtput,
      outputFor_text]
    rfl
  have hkeys : ∀ name ∈ config.shapes.names, name ∈ w.plan.baseMatrices := fun name =>
    (hnames name).1
  obtain ⟨names, hinputs, hmem⟩ := exists_inputNames hread hkeys
  refine ⟨config, names, hconfig, ⟨(of_config hconfig).2.1, hobstacle, rfl, ⟨text, hread⟩, hinputs,
    fun name hname k => ?_⟩, fun name => (hmem name).trans (hnames name).symm⟩
  obtain ⟨r, hr, rfl⟩ := Plan.exists_isRead_of_mem_baseMatrices hread ((hmem name).1 hname)
  exact Graph.ne_temporaryName hr.isBase k

namespace IsTended

/-- The mirror mode, the last outcome and the graph may change. -/
theorem of_eq (h : w.IsTended) {mirror : Datum} (hmirror : ∃ isOn : Bool, mirror = .bool isOn)
    {last? : Option Outcome} {g : Graph} (hw : w' = { w with mirror, last?, graph := g })
    (hreachable : w'.IsReachable) (hagree : w'.ShapesAgree) : w'.IsTended ∧ SameFormula w w' := by
  subst hw
  exact ⟨{ h with isReachable := hreachable, mirror := hmirror, shapesAgree := hagree }, rfl⟩

theorem resize (h : w.IsTended) (hname : name ∈ w.plan.baseMatrices) (rows cols : Datum)
    (hagree : (left (resize name rows cols) w).ShapesAgree) :
    (left (resize name rows cols) w).IsTended ∧ SameFormula w (left (resize name rows cols) w) := by
  have hreachable := h.isReachable.apply (.resize name rows cols)
  rw [Operation.apply] at hreachable
  rcases exists_of_resize name rows cols w with hrun | ⟨shape, g, hcheck, hrun⟩
  · rw [hrun]
    exact ⟨h, .refl w⟩
  · rw [hrun] at hreachable hagree ⊢
    have hnames : (w.shapes.put name shape).names = w.shapes.names := by
      rw [Association.names_put, if_pos ((h.mem_names name).2 hname)]
    have hsizes : ∀ s ∈ w.shapes.put name shape,
        Size.check (.int (s.2.1 : Nat)) (.int (s.2.2 : Nat)) w.sizeLimit = .ok s.2 := by
      intro s hs
      rcases Association.mem_put hs with rfl | hs
      · exact check_int_of_check hcheck
      · exact h.sizes s hs
    exact ⟨{ h with
      isReachable := hreachable
      sizes := hsizes
      mem_names := fun other => by rw [hnames]; exact h.mem_names other
      nodup := by rw [hnames]; exact h.nodup
      shapesAgree := hagree }, rfl⟩

theorem paints (h : w.IsTended) (hpaints : Paints w w') (hreachable : w'.IsReachable) :
    w'.IsTended ∧ SameFormula w w' :=
  h.of_eq h.mirror hpaints.eq hreachable (h.shapesAgree.of_paints hpaints)

theorem isCareful (h : w.IsTended) {op : Operation} (hop : op.IsTending w.plan.baseMatrices) :
    op.IsCareful w := by
  cases op with
  | recompute => exact h.spares
  | setFormula formula => exact hop.elim
  | declare name rows? cols? => exact hop.elim
  | importDocument source => exact hop.elim
  | _ => trivial

/-- **An operation that tends a workspace** keeps it in good order, and keeps its formula. -/
theorem apply (h : w.IsTended) {op : Operation} (hop : op.IsTending w.plan.baseMatrices) :
    (op.apply w).IsTended ∧ SameFormula w (op.apply w) := by
  have hreachable := h.isReachable.apply op
  have hagree := h.shapesAgree.apply h.isReachable.isWellFormed (h.isCareful hop)
  by_cases hpainting : op.IsPainting
  · exact h.paints (paints_apply hpainting w) hreachable
  cases op with
  | resize name rows cols => exact h.resize hop rows cols hagree
  | loadTable name values color =>
    rcases loadTable_cases name values color w with hrun | ⟨rows, cols, hpaints⟩
    · rw [Operation.apply, hrun]
      exact ⟨h, .refl w⟩
    · have hcareful : (Operation.resize name (.int rows) (.int cols)).IsCareful w := trivial
      have hresize := h.shapesAgree.apply h.isReachable.isWellFormed hcareful
      obtain ⟨h₁, hsame⟩ := h.resize hop _ _ hresize
      obtain ⟨h₂, hpainted⟩ := h₁.paints hpaints hreachable
      exact ⟨h₂, hsame.trans hpainted⟩
  | setMirror enabled => exact h.of_eq hop (paints_setMirror enabled w).eq hreachable hagree
  | recompute =>
    rw [Operation.apply] at hreachable hagree ⊢
    rcases recompute_cases w with ⟨e, -, hrun⟩ | ⟨config, last?, -, hrun⟩
    · rw [hrun]
      exact ⟨h, .refl w⟩
    · exact h.of_eq h.mirror hrun hreachable hagree
  | setFormula formula => exact hop.elim
  | declare name rows? cols? => exact hop.elim
  | importDocument source => exact hop.elim
  | _ => exact absurd trivial hpainting

/-- **A run of operations that tend a workspace** keeps it in good order, and keeps its formula. -/
theorem runAll (h : w.IsTended) {ops : List Operation}
    (hops : ∀ op ∈ ops, op.IsTending w.plan.baseMatrices) :
    (runAll w ops).IsTended ∧ SameFormula w (runAll w ops) := by
  induction ops generalizing w with
  | nil => exact ⟨h, .refl w⟩
  | cons op ops ih =>
    obtain ⟨hop, hops⟩ := List.forall_mem_cons.1 hops
    obtain ⟨h₁, hsame⟩ := h.apply hop
    obtain ⟨h₂, hrest⟩ := ih h₁ (hsame.plan.symm ▸ hops)
    exact ⟨h₂, hsame.trans hrest⟩

/-- **What an evaluation starts from**: the input matrices are the declared ones, and the settings
fit the formula. -/
theorem exists_fits (h : w.IsTended) : ∃ config names, w.config = .ok config ∧
    Graph.Fits w.plan config names ∧ ∀ name, name ∈ names ↔ name ∈ w.shapes.names := by
  obtain ⟨text, -, hread⟩ := h.formula
  obtain ⟨output, houtput, hobstacle, -⟩ := h.output
  exact Workspace.exists_fits hread houtput hobstacle h.iterations h.size h.sizes h.mem_names

/-! ### Whole numbers after a run -/

/-- **An operation that paints whole numbers** leaves whole numbers. -/
theorem isWhole_apply (h : w.IsTended) {op : Operation} (hop : op.IsTending w.plan.baseMatrices)
    (hwhole : op.IsWhole) (hw : w.IsWhole) : (op.apply w).IsWhole := by
  have hg := h.isReachable.isWellFormed
  cases op with
  | paint name row col value color isIdentity => exact hw.paint name row col hwhole color isIdentity
  | toggle name row col color => exact hw.toggle name row col color
  | fillDiagonal name color isIdentity => exact hw.fillDiagonal name color isIdentity
  | clearMatrix name => exact hw.clearMatrix name
  | randomize name density color isSymmetric draw =>
    exact hw.randomize name density color isSymmetric draw
  | syncMirror => exact hw.syncMirror
  | setMirror enabled =>
    rw [Operation.apply, Workspace.setMirror]
    split
    · exact Workspace.IsWhole.syncMirror hw
    · exact hw
  | resize name rows cols => exact hw.resize hg name rows cols
  | loadTable name values color => exact hw.loadTable hg name hwhole color
  | recompute =>
    obtain ⟨config, names, hconfig, hfits, -⟩ := h.exists_fits
    rw [Operation.apply]
    rcases recompute_cases w with ⟨e, -, hrun⟩ | ⟨config', last?, hconfig', hrun⟩
    · rwa [hrun]
    · cases hconfig.symm.trans hconfig'
      rw [hrun]
      exact hfits.isInt_after_recompute hg hw
  | setFormula formula => exact hop.elim
  | declare name rows? cols? => exact hop.elim
  | importDocument source => exact hop.elim

/-- **A run that paints whole numbers** leaves whole numbers. -/
theorem isWhole_runAll (h : w.IsTended) {ops : List Operation}
    (hops : ∀ op ∈ ops, op.IsTending w.plan.baseMatrices) (hwhole : ∀ op ∈ ops, op.IsWhole)
    (hw : w.IsWhole) : (Workspace.runAll w ops).IsWhole := by
  induction ops generalizing w with
  | nil => exact hw
  | cons op ops ih =>
    obtain ⟨hop, hops⟩ := List.forall_mem_cons.1 hops
    obtain ⟨hop', hwhole⟩ := List.forall_mem_cons.1 hwhole
    obtain ⟨h₁, hsame⟩ := h.apply hop
    exact ih h₁ (hsame.plan.symm ▸ hops) hwhole (h.isWhole_apply hop hop' hw)

end IsTended

end Workspace

end CellLineage
