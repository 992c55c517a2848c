import CellLineage.Proofs.Evaluation.Holds
import CellLineage.Proofs.Formula.Written

/-!
# Rebuilding a graph from what is painted on it

Before a plan is evaluated, its input matrices are made anew in the shape they are to have. Inside
of the old and the new shape the cells are painted as before, all other cells are blank, and no cell
derives from another one. Everything else is gone.

## Main definitions

* `Graph.valueAt`, `Graph.identityAt`: what is painted at a position.
* `Graph.inputShape`, `Graph.inputMatrix`: the shape and the contents of an input matrix.
* `Graph.RestoredFrom`, `Graph.PaintedFrom`: a matrix is painted as in another graph.
* `Graph.Restores`: a graph with one more matrix that is painted as in another graph.

## Main results

* `Graph.restore_spec`: what putting a snapshot back leaves.
* `Graph.rebuild_spec`: what a rebuilt graph holds.
-/

namespace CellLineage

namespace Config

/-- All sizes that the settings give to input matrices are at least one. -/
def HasCells (config : Config) : Prop :=
  ∀ name, 0 < (config.declaredShape name).1 ∧ 0 < (config.declaredShape name).2

theorem one_le_of_makeShapes {limit : Datum} {sizes : Association (Datum × Datum)} {shapes : Shapes}
    (h : makeShapes limit sizes = .ok shapes) {name : Text} {shape : Nat × Nat}
    (hs : shapes.lookup name = some shape) : 1 ≤ shape.1 ∧ 1 ≤ shape.2 := by
  induction sizes generalizing shapes with
  | nil =>
    cases h
    cases hs
  | cons size sizes ih =>
    obtain ⟨other, rows, cols⟩ := size
    obtain ⟨s, hc, h⟩ := exists_of_bind_eq_ok h
    obtain ⟨rest, hr, h⟩ := exists_of_bind_eq_ok h
    cases h
    rw [List.lookup_cons] at hs
    split at hs
    · cases hs
      exact ⟨(Size.check_eq_ok hc).1.1, (Size.check_eq_ok hc).2.1⟩
    · exact ih hr hs

/-- Settings that were checked give every input matrix a cell. -/
theorem hasCells_of_make {output : Text} {iterations : Datum} {sizes : Association (Datum × Datum)}
    {rows cols sizeLimit iterationLimit : Datum} {config : Config}
    (h : make output iterations sizes rows cols sizeLimit iterationLimit = .ok config) :
    config.output = output ∧ config.HasCells := by
  obtain ⟨iterations?, -, h⟩ := exists_of_bind_eq_ok h
  obtain ⟨shape, hd, h⟩ := exists_of_bind_eq_ok h
  obtain ⟨shapes, hs, h⟩ := exists_of_bind_eq_ok h
  cases h
  refine ⟨rfl, fun name => ?_⟩
  rw [declaredShape]
  cases hl : shapes.lookup name with
  | none => exact ⟨(Size.check_eq_ok hd).1.1, (Size.check_eq_ok hd).2.1⟩
  | some s => exact one_le_of_makeShapes hs hl

end Config

/-- The cell with an id that shows what is painted at a position of a matrix, without lineage. -/
def PaintedCell.toCell (p : PaintedCell) (id : CellId) (matrix : Text) : Cell :=
  ⟨id, matrix, p.row, p.col, p.value, p.color, p.colorIndex, p.isIdentity, [], []⟩

namespace Graph

variable {before g g' : Graph} {name : Text} {config : Config} {i j : Nat}

/-! ### What is painted on a matrix -/

/-- The value at a position of a matrix; zero where there is no cell. -/
def valueAt (g : Graph) (name : Text) (i j : Nat) : Number :=
  ((g.cellAt? name i j).map Cell.value).getD (.int 0)

/-- The identity mark at a position of a matrix; none where there is no cell. -/
def identityAt (g : Graph) (name : Text) (i j : Nat) : Bool :=
  ((g.cellAt? name i j).map Cell.isIdentity).getD false

/-- The shape of an input matrix: the declared one, else the one it had, else the default. -/
def inputShape (g : Graph) (config : Config) (name : Text) : Nat × Nat :=
  (config.shapes.lookup name).getD ((g.shape? name).getD config.defaultShape)

/-- The whole numbers that an input matrix holds; cells outside of the old shape hold zero. -/
def inputMatrix (g : Graph) (config : Config) (name : Text) : IntMatrix :=
  .ofFn (g.inputShape config name).1 (g.inputShape config name).2 fun i j =>
    (g.valueAt name i j).toInt

/-- The cells that go into an input matrix hold whole numbers. -/
def IsIntegral (g : Graph) (config : Config) (name : Text) : Prop :=
  ∀ i j, i < (g.inputShape config name).1 → j < (g.inputShape config name).2 →
    ∃ n, g.valueAt name i j = .int n

/-- Cells of whole numbers make input matrices of whole numbers. -/
theorem isIntegral_of_forall_isInt (hg : g.IsMinted) (hint : ∀ id ∈ g.nodes, (g.cell id).IsInt)
    (config : Config) (name : Text) : g.IsIntegral config name := by
  intro i j _ _
  rw [valueAt]
  cases hb : g.matrices[name]? with
  | none =>
    rw [cellAt?_of_missing hb]
    exact ⟨0, rfl⟩
  | some b =>
    by_cases hij : i < b.rows ∧ j < b.cols
    · rw [cellAt?_of_lt hb hij.1 hij.2]
      exact ⟨_, hint _ (hg.idAt_mem hb hij.1 hij.2)⟩
    · rw [cellAt?_of_not_lt hb hij]
      exact ⟨0, rfl⟩

/-- The matrix of the name has the shape and is painted as in the other graph, where it had a cell,
and it derives from nothing. -/
def RestoredFrom (before g : Graph) (name : Text) (shape : Nat × Nat) : Prop :=
  ∃ b, g.matrices[name]? = some b ∧ b.shape = shape ∧ ∀ i j, i < b.rows → j < b.cols →
    (g.coreAt b i j).value = before.valueAt name i j ∧
      (g.coreAt b i j).isIdentity = before.identityAt name i j ∧
      (g.coreAt b i j).dependencies = []

theorem RestoredFrom.of_keeps {shape : Nat × Nat} (h : before.RestoredFrom g name shape)
    (hk : g.Keeps g' name) : before.RestoredFrom g' name shape := by
  obtain ⟨b, hb, hshape, hcells⟩ := h
  refine ⟨b, hk.matrices.trans hb, hshape, fun i j hi hj => ?_⟩
  rw [hk.coreAt hb hi hj]
  exact hcells i j hi hj

/-- What is painted at a position of a matrix; nothing where there is no cell. -/
def paintAt (g : Graph) (name : Text) (i j : Nat) : PaintedCell :=
  ((g.cellAt? name i j).map Cell.painted).getD ⟨i, j, .int 0, none, none, false⟩

/-- The matrix of the name has the shape and shows all that was painted on it in the other graph,
where it had a cell, and it derives from nothing. -/
def PaintedFrom (before g : Graph) (name : Text) (shape : Nat × Nat) : Prop :=
  ∃ b, g.matrices[name]? = some b ∧ b.shape = shape ∧ ∀ i j, i < b.rows → j < b.cols →
    (g.coreAt b i j).painted = before.paintAt name i j ∧ (g.coreAt b i j).dependencies = []

theorem value_paintAt (g : Graph) (name : Text) (i j : Nat) :
    (g.paintAt name i j).value = g.valueAt name i j := by
  rw [paintAt, valueAt]
  cases g.cellAt? name i j <;> rfl

theorem isIdentity_paintAt (g : Graph) (name : Text) (i j : Nat) :
    (g.paintAt name i j).isIdentity = g.identityAt name i j := by
  rw [paintAt, identityAt]
  cases g.cellAt? name i j <;> rfl

theorem PaintedFrom.of_keeps {shape : Nat × Nat} (h : before.PaintedFrom g name shape)
    (hk : g.Keeps g' name) : before.PaintedFrom g' name shape := by
  obtain ⟨b, hb, hshape, hcells⟩ := h
  refine ⟨b, hk.matrices.trans hb, hshape, fun i j hi hj => ?_⟩
  rw [hk.coreAt hb hi hj]
  exact hcells i j hi hj

theorem PaintedFrom.paintAt_eq {shape : Nat × Nat} (h : before.PaintedFrom g name shape)
    (hi : i < shape.1) (hj : j < shape.2) : g.paintAt name i j = before.paintAt name i j := by
  obtain ⟨b, hb, rfl, hcells⟩ := h
  rw [← (hcells i j hi hj).1, paintAt, cellAt?_of_lt hb hi hj]
  rfl

theorem PaintedFrom.dependencies_eq {shape : Nat × Nat} (h : before.PaintedFrom g name shape)
    {id : CellId} (hid : g.idAt? name i j = some id) : (g.cell id).dependencies = [] := by
  obtain ⟨b, hb, -, hcells⟩ := h
  obtain ⟨c, hc, hi, hj, rfl⟩ := idAt?_eq_some_iff.1 hid
  obtain rfl : b = c := Option.some.inj (hb.symm.trans hc)
  exact (hcells i j hi hj).2

theorem PaintedFrom.restoredFrom {shape : Nat × Nat} (h : before.PaintedFrom g name shape) :
    before.RestoredFrom g name shape := by
  obtain ⟨b, hb, hshape, hcells⟩ := h
  refine ⟨b, hb, hshape, fun i j hi hj => ?_⟩
  obtain ⟨hpainted, hdeps⟩ := hcells i j hi hj
  refine ⟨?_, ?_, hdeps⟩
  · rw [← value_paintAt, ← hpainted]
    rfl
  · rw [← isIdentity_paintAt, ← hpainted]
    rfl

/-! ### Putting a snapshot back -/

theorem restoreCell_eq {b : Block} {c : PaintedCell} (hb : g.matrices[name]? = some b)
    (hrow : c.row = i) (hcol : c.col = j) (hi : i < b.rows) (hj : j < b.cols) :
    g.restoreCell name b.rows b.cols c = g.modify (g.idAt b i j) fun d =>
      paintCell d c.value c.color (some c.isIdentity) c.colorIndex := by
  have h : c.row < b.rows ∧ c.col < b.cols := by omega
  have hij : (0 : Int) ≤ i ∧ (i : Int) < b.rows ∧ (0 : Int) ≤ j ∧ (j : Int) < b.cols := by omega
  rw [restoreCell, if_pos h, update, update?, idAt?, hb]
  simp only [hrow, hcol, if_pos hij, Int.toNat_natCast, Option.map_some, Option.getD_some]

/-- What a snapshot holds of the cell at a position of a block. -/
private def paintedAt (g : Graph) (b : Block) (p : Nat × Nat) : PaintedCell :=
  { (g.cell (g.idAt b p.1 p.2)).painted with row := p.1, col := p.2 }

/-- The cells of a snapshot know their places. -/
private theorem IsMinted.snapshot? (hg : g.IsMinted) {b : Block}
    (hb : g.matrices[name]? = some b) :
    g.snapshot? name = some ⟨name, b.rows, b.cols, b.positions.map (g.paintedAt b)⟩ := by
  simp only [Graph.snapshot?, cells, hb, Option.map_some, ids, List.map_map]
  congr 2
  refine List.map_congr_left fun p hp => ?_
  obtain ⟨hi, hj⟩ := b.mem_positions.1 hp
  obtain ⟨-, hrow, hcol⟩ := hg.place hb hi hj
  simp only [Function.comp_apply, Cell.painted, paintedAt, hrow, hcol]

/-- The cell `d` with what is painted on the cell `c`. -/
private def paintFrom (c d : Cell) : Cell :=
  paintCell d c.value c.color (some c.isIdentity) c.colorIndex

/-- The positions inside of both shapes. -/
private def commonPositions (s t : Block) : List (Nat × Nat) :=
  s.positions.filter fun p => p.1 < t.rows ∧ p.2 < t.cols

private theorem mem_commonPositions {s t : Block} {p : Nat × Nat} :
    p ∈ commonPositions s t ↔ (p.1 < s.rows ∧ p.2 < s.cols) ∧ p.1 < t.rows ∧ p.2 < t.cols := by
  obtain ⟨i, j⟩ := p
  simp only [commonPositions, List.mem_filter, Block.mem_positions, decide_eq_true_eq]

/-- Painting a matrix from a snapshot of another shape paints the cells inside of both. -/
private theorem rewrites_restore (before : Graph) (s : Block) {t : Block} (hg : g.IsWellFormed)
    (ht : g.matrices[name]? = some t) :
    let g' := (s.positions.map (before.paintedAt s)).foldl
      (fun g c => g.restoreCell name t.rows t.cols c) g
    g.Rewrites g' {id | ∃ p ∈ commonPositions s t, id = g.idAt t p.1 p.2} ∧
      ∀ p ∈ commonPositions s t, g'.core (g.idAt t p.1 p.2) =
        paintFrom (before.coreAt s p.1 p.2) (g.core (g.idAt t p.1 p.2)) := by
  intro g'
  let step (g : Graph) (p : Nat × Nat) : Graph :=
    g.restoreCell name t.rows t.cols (before.paintedAt s p)
  have hfold : g' = (commonPositions s t).foldl step g := by
    rw [commonPositions, List.foldl_filter]
    simp only [g', List.foldl_map]
    refine List.foldl_ext _ _ g fun g₁ p _ => ?_
    by_cases hp : p.1 < t.rows ∧ p.2 < t.cols
    · simp only [hp, and_self, decide_true, if_true]
      rfl
    · have hp' : ¬((p.1 : Int) < t.rows ∧ (p.2 : Int) < t.cols) := by omega
      have hcell : g₁.restoreCell name t.rows t.cols (before.paintedAt s p) = g₁ := if_neg hp'
      simp only [hcell, decide_eq_true_eq, if_neg hp]
  have hstep : ∀ p ∈ commonPositions s t, ∀ g₁,
      g.Rewrites g₁ {id | ∃ p ∈ commonPositions s t, id = g.idAt t p.1 p.2} → True →
      g₁.core (g.idAt t p.1 p.2) = g.core (g.idAt t p.1 p.2) →
      g₁.Rewrites (step g₁ p) {g.idAt t p.1 p.2} ∧ True ∧
        (step g₁ p).core (g.idAt t p.1 p.2) =
          paintFrom (before.coreAt s p.1 p.2) (g.core (g.idAt t p.1 p.2)) := by
    intro p hp g₁ h₁ _ hcore
    obtain ⟨-, hi, hj⟩ := mem_commonPositions.1 hp
    have ht₁ : g₁.matrices[name]? = some t := by rw [h₁.matrices, ht]
    have heq : step g₁ p = g₁.modify (g.idAt t p.1 p.2)
        (paintFrom (before.cell (before.idAt s p.1 p.2))) := by
      rw [← h₁.idAt_eq]
      exact restoreCell_eq ht₁ rfl rfl hi hj
    rw [heq]
    refine ⟨rewrites_modify g₁ _ _, trivial, ?_⟩
    rw [core_modify_self (h₁.mem_nodes.2 (hg.idAt_mem ht hi hj)), ← hcore]
    rfl
  have hpair : (commonPositions s t).Pairwise fun p q => g.idAt t p.1 p.2 ≠ g.idAt t q.1 q.2 := by
    refine (s.nodup_positions.filter _).imp_of_mem fun {p q} hp hq hne he => hne ?_
    obtain ⟨h₁, h₂⟩ := (idAt_inj (mem_commonPositions.1 hp).2.2 (mem_commonPositions.1 hq).2.2).1 he
    exact Prod.ext h₁ h₂
  rw [hfold]
  exact foldl_rewrites _ hstep (fun p hp => ⟨p, hp, rfl⟩) hpair trivial

private theorem dependents_restoreCells (cells : List PaintedCell) (rows cols : Int) (id : CellId) :
    ((cells.foldl (fun g c => g.restoreCell name rows cols c) g).cell id).dependents =
      (g.cell id).dependents := by
  induction cells generalizing g with
  | nil => rfl
  | cons c cells ih =>
    rw [List.foldl_cons, ih, restoreCell]
    split
    · rw [update, update?]
      cases g.idAt? name c.row c.col with
      | none => rfl
      | some k =>
        rw [Option.map_some, Option.getD_some, cell_modify]
        split <;> rfl
    · rfl

/-- The graph `g'` is `g` with the block `b` as a fresh matrix, and that shows what is painted on the
matrix of the name in the graph `before`. -/
structure Restores (before g g' : Graph) (name : Text) (b : Block) : Prop extends
    SameTables (g.addMatrix name b.rows b.cols b.rows_pos b.cols_pos) g' where
  coreAt : ∀ {i j}, i < b.rows → j < b.cols →
    g'.coreAt b i j = (before.paintAt name i j).toCell (g.idAt b i j) name
  core_eq : ∀ {id}, id ∉ g.idSet b →
    g'.core id = (g.addMatrix name b.rows b.cols b.rows_pos b.cols_pos).core id
  dependents_eq : ∀ id, (g'.cell id).dependents =
    ((g.addMatrix name b.rows b.cols b.rows_pos b.cols_pos).cell id).dependents

/-- A fresh matrix shows what is painted on one that is not there. -/
theorem restores_addMatrix (hm : before.matrices[name]? = none) {rows cols : Nat} (hr : 0 < rows)
    (hc : 0 < cols) : before.Restores g (g.addMatrix name rows cols hr hc) name
      (g.nextBlock rows cols hr hc) where
  toSameTables := .refl _
  coreAt {i j} hi hj := by
    rw [coreAt_addMatrix hi hj, paintAt, cellAt?_of_missing hm]
    rfl
  core_eq _ := rfl
  dependents_eq _ := rfl

/-- What is painted on a fresh matrix from a snapshot. -/
private theorem restores_restore {s : Block} (hs : before.matrices[name]? = some s)
    (hbefore : before.IsMinted) (hg : g.IsWellFormed) {rows cols : Nat} (hr : 0 < rows)
    (hc : 0 < cols) :
    before.Restores g ((s.positions.map (before.paintedAt s)).foldl
      (fun g c => g.restoreCell name rows cols c) (g.addMatrix name rows cols hr hc)) name
      (g.nextBlock rows cols hr hc) := by
  set g₁ := g.addMatrix name rows cols hr hc with hg₁
  set t : Block := g.nextBlock rows cols hr hc with ht
  have hprep : g.Prepared g₁ name t := prepared_addMatrix hg name hr hc
  have hrestore := rewrites_restore before s hprep.isWellFormed hprep.matrices
  set g' := (s.positions.map (before.paintedAt s)).foldl
    (fun g c => g.restoreCell name rows cols c) g₁ with hg'
  have h : g₁.Rewrites g' {id | ∃ p ∈ commonPositions s t, id = g₁.idAt t p.1 p.2} := hrestore.1
  have hcells : ∀ p ∈ commonPositions s t, g'.core (g₁.idAt t p.1 p.2) =
      paintFrom (before.coreAt s p.1 p.2) (g₁.core (g₁.idAt t p.1 p.2)) := hrestore.2
  have hblank {i j : Nat} (hi : i < t.rows) (hj : j < t.cols) :
      g₁.core (g₁.idAt t i j) = .blank (g.idAt t i j) name i j := coreAt_addMatrix hi hj
  refine ⟨h.toSameTables, fun {i j} hi hj => ?_, fun {id} hid => h.core_eq ?_,
    fun id => dependents_restoreCells _ _ _ id⟩
  · rw [coreAt, h.idAt_eq]
    by_cases hij : i < s.rows ∧ j < s.cols
    · have hcell := hcells (i, j) (mem_commonPositions.2 ⟨hij, hi, hj⟩)
      obtain ⟨-, hrow, hcol⟩ := hbefore.place hs hij.1 hij.2
      dsimp only at hcell
      rw [hcell, hblank hi hj, paintAt, cellAt?_of_lt hs hij.1 hij.2]
      simp only [Option.map_some, Option.getD_some, PaintedCell.toCell, Cell.painted, paintFrom,
        paintCell, Cell.blank, Option.or_none, hrow, hcol]
      rfl
    · have hnotMem : g₁.idAt t i j ∉
          {id | ∃ p ∈ commonPositions s t, id = g₁.idAt t p.1 p.2} := by
        rintro ⟨p, hp, he⟩
        obtain ⟨hps, -, hpj⟩ := mem_commonPositions.1 hp
        obtain ⟨rfl, rfl⟩ := (idAt_inj hj hpj).1 he
        exact hij hps
      rw [h.core_eq hnotMem, hblank hi hj, paintAt, cellAt?_of_not_lt hs hij]
      rfl
  · rintro ⟨p, hp, rfl⟩
    obtain ⟨-, hi, hj⟩ := mem_commonPositions.1 hp
    refine hid ?_
    rw [hg₁, idAt_addMatrix]
    exact idAt_mem_idSet hi hj

theorem Restores.matrices_eq {rows cols : Nat} {hr : 0 < rows} {hc : 0 < cols}
    (h : before.Restores g g' name (g.nextBlock rows cols hr hc)) :
    g'.matrices[name]? = some (g.nextBlock rows cols hr hc) := by
  rw [h.matrices]
  exact (matrices_addMatrix name).trans (if_pos rfl)

theorem Restores.paintedFrom {rows cols : Nat} {hr : 0 < rows} {hc : 0 < cols}
    (h : before.Restores g g' name (g.nextBlock rows cols hr hc)) :
    before.PaintedFrom g' name (rows, cols) := by
  refine ⟨g.nextBlock rows cols hr hc, h.matrices_eq, rfl, fun i j hi hj => ?_⟩
  rw [h.coreAt hi hj]
  exact ⟨rfl, rfl⟩

theorem initMatrix_eq_ok {rows cols : Nat} (hr : 0 < rows) (hc : 0 < cols) :
    g.initMatrix name rows cols = .ok (g.addMatrix name rows cols hr hc) := by
  have hpos : 1 ≤ (rows : Int) ∧ 1 ≤ (cols : Int) := by omega
  rw [initMatrix, dif_pos hpos]
  simp only [Int.toNat_natCast]

/-- **Putting a snapshot back.** The matrix of the snapshot is made anew, and it then shows what was
painted on it when the snapshot was taken. -/
theorem restore_spec (hbefore : before.IsMinted) (hg : g.IsWellFormed) {shot : Snapshot}
    (hshot : before.snapshot? name = some shot) {rows cols : Nat} (hr : 0 < rows) (hc : 0 < cols) :
    ∃ g', g.restore shot rows cols = .ok g' ∧
      before.Restores g g' name (g.nextBlock rows cols hr hc) := by
  obtain ⟨s, hs, -⟩ := Option.map_eq_some_iff.1 hshot
  rw [hbefore.snapshot? hs] at hshot
  cases hshot
  refine ⟨_, ?_, restores_restore hs hbefore hg hr hc⟩
  simp only [restore, initMatrix_eq_ok hr hc]
  rfl

/-! ### Rebuilding -/

theorem shapeFor_eq (g : Graph) (config : Config) (name : Text) :
    config.shapeFor name ((g.snapshot? name).map fun s => ((s.rows : Int), (s.cols : Int))) =
      (((g.inputShape config name).1 : Int), ((g.inputShape config name).2 : Int)) := by
  unfold Config.shapeFor Config.declaredShape inputShape Graph.snapshot? shape?
  cases config.shapes.lookup name <;> cases g.matrices[name]? <;> rfl

theorem inputShape_pos (hconfig : config.HasCells) (g : Graph) (name : Text) :
    0 < (g.inputShape config name).1 ∧ 0 < (g.inputShape config name).2 := by
  have h := hconfig name
  unfold Config.declaredShape at h
  unfold inputShape shape?
  cases hl : config.shapes.lookup name with
  | some shape =>
    rw [hl] at h
    exact h
  | none =>
    rw [hl] at h
    cases g.matrices[name]? with
    | some b => exact ⟨b.rows_pos, b.cols_pos⟩
    | none => exact h

/-- Making an input matrix anew paints it as before. -/
theorem restoreInput_spec (hconfig : config.HasCells) (hbefore : before.IsMinted)
    (hg : g.IsWellFormed) (name : Text) :
    ∃ g', restoreInput config name (before.snapshot? name) g = .ok () g' ∧
      Makes ∅ name g g' ∧ before.Restores g g' name
        (g.nextBlock _ _ (inputShape_pos hconfig before name).1
          (inputShape_pos hconfig before name).2) := by
  obtain ⟨hr, hc⟩ := inputShape_pos hconfig before name
  have hshape := before.shapeFor_eq config name
  cases hshot : before.snapshot? name with
  | some shot =>
    obtain ⟨g', hrun, h⟩ := restore_spec hbefore hg hshot hr hc
    have hmakes := makes_restore hrun
    rw [name_of_snapshot? hshot] at hmakes
    refine ⟨g', ?_, hmakes, h⟩
    rw [hshot, Option.map_some] at hshape
    simp only [restoreInput, get_bind_eq, hshape, hrun]
    rfl
  | none =>
    have hm : before.matrices[name]? = none := by simpa [Graph.snapshot?] using hshot
    refine ⟨g.addMatrix name _ _ hr hc, ?_, .anew .refl, restores_addMatrix hm hr hc⟩
    rw [hshot, Option.map_none] at hshape
    simp only [restoreInput, get_bind_eq, hshape, initMatrix_eq_ok hr hc]
    rfl

/-- Making input matrices anew, one after another, keeps all others. -/
private theorem forM_restoreInput (hconfig : config.HasCells) (hbefore : before.IsMinted)
    {names : List Text} (hnames : names.Nodup) (hg : g.IsWellFormed) :
    ∃ g', names.forM (fun name => restoreInput config name (before.snapshot? name)) g = .ok () g' ∧
      g'.IsWellFormed ∧ g'.temporaries = g.temporaries ∧ g'.descriptions = g.descriptions ∧
      (∀ name ∉ names, g.Keeps g' name) ∧
      ∀ name ∈ names, before.PaintedFrom g' name (before.inputShape config name) := by
  induction names generalizing g with
  | nil =>
    exact ⟨g, rfl, hg, rfl, rfl, fun name _ => .refl g name, fun _ h => absurd h List.not_mem_nil⟩
  | cons name names ih =>
    obtain ⟨hname, hnames⟩ := List.nodup_cons.1 hnames
    obtain ⟨g₁, hrun₁, hmakes, hrestored⟩ := restoreInput_spec hconfig hbefore hg name
    have hw := hmakes.writesOnly hg
    obtain ⟨g', hrun, hwf, htemp, hdesc, hkeeps, hall⟩ := ih hnames hw.isWellFormed
    refine ⟨g', (bind_eq_of_ok hrun₁).trans hrun, hwf, htemp.trans hw.temporaries,
      hdesc.trans hw.descriptions, fun other hother => ?_, fun other hother => ?_⟩
    · obtain ⟨hne, hother⟩ := not_or.1 (List.mem_cons.not.1 hother)
      exact (hw.keeps other hne).trans (hkeeps other hother)
    · rcases List.mem_cons.1 hother with rfl | hother
      · exact hrestored.paintedFrom.of_keeps (hkeeps _ hname)
      · exact hall other hother

/-- **Rebuilding.** The rebuilt graph holds the named matrices, painted as before, and nothing
else. -/
theorem rebuild_spec (hconfig : config.HasCells) (hg : g.IsMinted) {names : List Text}
    (hnames : names.Nodup) : ∃ g', rebuild config names g = .ok () g' ∧ g'.IsWellFormed ∧
      g'.temporaries = 0 ∧ (∀ name ∉ names, g'.matrices[name]? = none) ∧
      ∀ name ∈ names, g.PaintedFrom g' name (g.inputShape config name) := by
  obtain ⟨g', hrun, hwf, htemp, -, hkeeps, hall⟩ :=
    forM_restoreInput hconfig hg hnames (isWellFormed_empty g.stem)
  refine ⟨g', hrun, hwf, htemp, fun name hname => ?_, hall⟩
  rw [(hkeeps name hname).matrices]
  exact Std.ExtTreeMap.getElem?_empty

/-- A restored matrix of whole numbers holds the input matrix. -/
theorem RestoredFrom.holds (h : before.RestoredFrom g name (before.inputShape config name))
    (hint : before.IsIntegral config name) :
    g.Holds name (before.inputMatrix config name) := by
  obtain ⟨b, hb, hshape, hcells⟩ := h
  have hr : b.rows = (before.inputShape config name).1 := congrArg Prod.fst hshape
  have hc : b.cols = (before.inputShape config name).2 := congrArg Prod.snd hshape
  refine holds_iff.2 ⟨b, hb, hr, hc, fun i j hi hj => ?_⟩
  obtain ⟨n, hn⟩ := hint i j hi hj
  rw [(hcells i j (hr ▸ hi) (hc ▸ hj)).1, inputMatrix,
    IntMatrix.get_ofFn (by exact hi) (by exact hj), hn]
  rfl

end Graph

end CellLineage
