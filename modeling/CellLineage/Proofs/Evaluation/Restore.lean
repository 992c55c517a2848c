import CellLineage.Proofs.Evaluation.Rebuild

/-!
# Putting a snapshot back in another shape

A snapshot has one painted cell for each position of the matrix that it was taken of. Put back, it
makes a fresh matrix of any shape, which may be larger in one direction and smaller in the other:
what lies inside of both shapes is painted as it was, and the rest is blank. No cell that was there
before is touched, not even by an edge, and all other matrices are the same as before.

## Main definitions

* `Snapshot.IsGrid`: the cells of a snapshot stand one at each position of its shape.
* `Graph.PutsBack`: a graph with one more matrix that shows a snapshot.

## Main results

* `Graph.Restores.putsBack`: what the graph holds after a snapshot was put back.
* `Graph.restore_resized`: putting back any snapshot in any shape.
-/

namespace CellLineage

/-- The cells of the snapshot stand at the positions of its shape, one at each. -/
structure Snapshot.IsGrid (s : Snapshot) : Prop where
  exists_position : ∀ p ∈ s.cells, ∃ i j : Nat, i < s.rows ∧ j < s.cols ∧ p.row = i ∧ p.col = j
  exists_cell : ∀ i j : Nat, i < s.rows → j < s.cols → ∃! p, p ∈ s.cells ∧ p.row = i ∧ p.col = j

namespace Graph

variable {before g g' : Graph} {name : Text} {s : Snapshot} {b : Block}

/-! ### The cells of a snapshot -/

theorem snapshot?_eq (hb : g.matrices[name]? = some b) : g.snapshot? name =
    some ⟨name, b.rows, b.cols, b.positions.map fun p => (g.cell (g.idAt b p.1 p.2)).painted⟩ := by
  simp only [snapshot?, cells, hb, Option.map_some, ids, List.map_map]
  rfl

/-- The cells of a snapshot are what is painted at the positions of the matrix. -/
theorem mem_cells_of_snapshot? (hbefore : before.IsMinted) (hs : before.snapshot? name = some s)
    {p : PaintedCell} : p ∈ s.cells ↔ ∃ i j : Nat, i < s.rows ∧ j < s.cols ∧ p.row = i ∧
      p.col = j ∧ p = before.paintAt name i j := by
  obtain ⟨b, hb, -⟩ := Option.map_eq_some_iff.1 hs
  rw [snapshot?_eq hb] at hs
  cases hs
  simp only [List.mem_map, Prod.exists, Block.mem_positions]
  have hpaint {i j : Nat} (hi : i < b.rows) (hj : j < b.cols) :
      before.paintAt name i j = (before.cell (before.idAt b i j)).painted := by
    rw [paintAt, cellAt?_of_lt hb hi hj]
    rfl
  constructor
  · rintro ⟨i, j, ⟨hi, hj⟩, rfl⟩
    obtain ⟨-, hrow, hcol⟩ := hbefore.place hb hi hj
    exact ⟨i, j, hi, hj, hrow, hcol, (hpaint hi hj).symm⟩
  · rintro ⟨i, j, hi, hj, -, -, rfl⟩
    exact ⟨i, j, ⟨hi, hj⟩, (hpaint hi hj).symm⟩

/-- At each position a snapshot has what was painted there. -/
theorem eq_paintAt_of_mem_cells (hbefore : before.IsMinted) (hs : before.snapshot? name = some s)
    {p : PaintedCell} (hp : p ∈ s.cells) {i j : Nat} (hrow : p.row = i) (hcol : p.col = j) :
    p = before.paintAt name i j := by
  obtain ⟨i', j', -, -, hrow', hcol', rfl⟩ := (mem_cells_of_snapshot? hbefore hs).1 hp
  obtain rfl : i' = i := Int.ofNat_inj.1 (hrow'.symm.trans hrow)
  obtain rfl : j' = j := Int.ofNat_inj.1 (hcol'.symm.trans hcol)
  rfl

theorem isGrid_of_snapshot? (hbefore : before.IsMinted) (hs : before.snapshot? name = some s) :
    s.IsGrid where
  exists_position p hp := by
    obtain ⟨i, j, hi, hj, hrow, hcol, -⟩ := (mem_cells_of_snapshot? hbefore hs).1 hp
    exact ⟨i, j, hi, hj, hrow, hcol⟩
  exists_cell i j hi hj := by
    obtain ⟨b, hb, hs'⟩ := Option.map_eq_some_iff.1 hs
    have hplace : (before.paintAt name i j).row = i ∧ (before.paintAt name i j).col = j := by
      have hij : i < b.rows ∧ j < b.cols := by
        cases hs'
        exact ⟨hi, hj⟩
      rw [paintAt, cellAt?_of_lt hb hij.1 hij.2]
      exact (hbefore.place hb hij.1 hij.2).2
    refine ⟨before.paintAt name i j, ⟨?_, hplace⟩, fun p hp => ?_⟩
    · exact (mem_cells_of_snapshot? hbefore hs).2 ⟨i, j, hi, hj, hplace.1, hplace.2, rfl⟩
    · exact eq_paintAt_of_mem_cells hbefore hs hp.1 hp.2.1 hp.2.2

/-- Outside of its shape a matrix shows nothing. -/
theorem paintAt_of_not_lt (hs : before.snapshot? name = some s) {i j : Nat}
    (h : ¬(i < s.rows ∧ j < s.cols)) :
    before.paintAt name i j = ⟨i, j, .int 0, none, none, false⟩ := by
  obtain ⟨b, hb, rfl⟩ := Option.map_eq_some_iff.1 hs
  rw [paintAt, cellAt?_of_not_lt hb h]
  rfl

/-! ### Putting it back -/

/-- The graph `g'` is `g` with the block `b` as a fresh matrix without lineage. It shows the snapshot
wherever that has a cell, and it is blank elsewhere. -/
structure PutsBack (g g' : Graph) (s : Snapshot) (b : Block) : Prop where
  matrices : g'.matrices[s.name]? = some b
  inside : ∀ i j : Nat, i < b.rows → j < b.cols → ∀ p ∈ s.cells, p.row = i → p.col = j →
    g'.cell (g'.idAt b i j) = p.toCell (g'.idAt b i j) s.name
  outside : ∀ i j : Nat, i < b.rows → j < b.cols → ¬(i < s.rows ∧ j < s.cols) →
    g'.cell (g'.idAt b i j) = .blank (g'.idAt b i j) s.name i j
  fresh : ∀ i j : Nat, i < b.rows → j < b.cols →
    g'.idAt b i j ∈ g'.nodes ∧ g'.idAt b i j ∉ g.nodes
  kept : ∀ id ∈ g.nodes, id ∈ g'.nodes ∧ g'.cell id = g.cell id
  others : ∀ other, other ≠ s.name → g'.rows? other = g.rows? other

/-- The cells of a matrix that was put back are what was painted there, and nothing else. -/
theorem Restores.cell_eq {rows cols : Nat} {hr : 0 < rows} {hc : 0 < cols}
    (h : before.Restores g g' name (g.nextBlock rows cols hr hc)) {i j : Nat} (hi : i < rows)
    (hj : j < cols) : g'.cell (g'.idAt (g.nextBlock rows cols hr hc) i j) =
      (before.paintAt name i j).toCell (g'.idAt (g.nextBlock rows cols hr hc) i j) name := by
  have hid : g'.idAt (g.nextBlock rows cols hr hc) i j =
      g.idAt (g.nextBlock rows cols hr hc) i j := by
    rw [h.idAt_eq, idAt_addMatrix]
  refine Cell.eq_of_core_eq ?_ ?_
  · have hcore := h.coreAt hi hj
    rw [Graph.coreAt, core] at hcore
    rw [hcore, hid]
    rfl
  · have hblank :
        (g.addMatrix name rows cols hr hc).cell (g.idAt (g.nextBlock rows cols hr hc) i j) =
          .blank (g.idAt (g.nextBlock rows cols hr hc) i j) name i j := cell_addMatrix hi hj
    rw [h.dependents_eq, hid]
    exact (congrArg Cell.dependents hblank).trans rfl

/-- Putting a snapshot back touches no cell that was there before. -/
theorem Restores.cell_of_mem (hg : g.IsMinted) {rows cols : Nat} {hr : 0 < rows} {hc : 0 < cols}
    (h : before.Restores g g' name (g.nextBlock rows cols hr hc)) {id : CellId}
    (hid : id ∈ g.nodes) :
    id ∈ g'.nodes ∧ g'.cell id = g.cell id := by
  have hcell : (g.addMatrix name rows cols hr hc).cell id = g.cell id :=
    hg.cell_addMatrix_of_mem hid
  have hnotMem : id ∉ g.idSet (g.nextBlock rows cols hr hc) := by
    rintro ⟨i, j, -, -, rfl⟩
    exact hg.idAt_nextBlock_notMem hr hc i j hid
  refine ⟨h.mem_nodes.2 (mem_nodes_addMatrix.2 (.inl hid)), Cell.eq_of_core_eq ?_ ?_⟩
  · have hcore := h.core_eq hnotMem
    rw [core, core] at hcore
    rw [hcore]
    exact congrArg Cell.core hcell
  · rw [h.dependents_eq]
    exact congrArg Cell.dependents hcell

/-- A matrix is the same where its block and its cells are. -/
theorem rows?_congr (hg : g.IsMinted) (hstem : g'.stem = g.stem)
    (hmatrices : g'.matrices[name]? = g.matrices[name]?)
    (hcell : ∀ id ∈ g.nodes, g'.cell id = g.cell id) : g'.rows? name = g.rows? name := by
  rw [rows?, rows?, hmatrices]
  cases hb : g.matrices[name]? with
  | none => rfl
  | some b =>
    have hids : g'.rowIds b = g.rowIds b := by simp only [rowIds, idAt, cellId, hstem]
    rw [Option.map_some, Option.map_some, hids]
    refine congrArg some (List.map_congr_left fun row hrow => List.map_congr_left fun id hid => ?_)
    obtain ⟨i, hi, rfl⟩ := List.mem_map.1 hrow
    obtain ⟨j, hj, rfl⟩ := List.mem_map.1 hid
    exact hcell _ (hg.idAt_mem hb (List.mem_range.1 hi) (List.mem_range.1 hj))

/-- **What is left after a snapshot was put back.** -/
theorem Restores.putsBack (hbefore : before.IsMinted) (hg : g.IsMinted)
    (hs : before.snapshot? s.name = some s) {rows cols : Nat} {hr : 0 < rows} {hc : 0 < cols}
    (h : before.Restores g g' s.name (g.nextBlock rows cols hr hc)) :
    g.PutsBack g' s (g.nextBlock rows cols hr hc) where
  matrices := h.matrices_eq
  inside i j hi hj p hp hrow hcol := by
    rw [eq_paintAt_of_mem_cells hbefore hs hp hrow hcol]
    exact h.cell_eq hi hj
  outside i j hi hj hij := by
    rw [h.cell_eq hi hj, paintAt_of_not_lt hs hij]
    rfl
  fresh i j hi hj := by
    rw [h.idAt_eq, idAt_addMatrix]
    refine ⟨h.mem_nodes.2 (mem_nodes_addMatrix.2 (.inr ⟨i, j, hi, hj, rfl⟩)), ?_⟩
    exact hg.idAt_nextBlock_notMem hr hc i j
  kept id hid := h.cell_of_mem hg hid
  others other hne := by
    refine rows?_congr hg (h.stem.trans stem_addMatrix) ?_ fun id hid => (h.cell_of_mem hg hid).2
    rw [h.matrices]
    exact (matrices_addMatrix other).trans (if_neg hne.symm)

/-- Put back in its own shape, a snapshot can be taken again. -/
theorem Restores.snapshot?_eq (hs : before.snapshot? name = some s) {hr : 0 < s.rows}
    {hc : 0 < s.cols} (h : before.Restores g g' name (g.nextBlock s.rows s.cols hr hc)) :
    g'.snapshot? name = some s := by
  obtain ⟨b, hb, -⟩ := Option.map_eq_some_iff.1 hs
  rw [Graph.snapshot?_eq hb] at hs
  cases hs
  rw [Graph.snapshot?_eq h.matrices_eq]
  refine congrArg (fun cells => some (Snapshot.mk name b.rows b.cols cells))
    (List.map_congr_left fun p hp => ?_)
  obtain ⟨hi, hj⟩ := b.mem_positions.1 hp
  rw [h.cell_eq hi hj, paintAt, cellAt?_of_lt hb hi hj]
  rfl

/-- A matrix without cells is not made. -/
theorem restore_of_lt {rows cols : Int} (h : rows < 1 ∨ cols < 1) :
    g.restore s rows cols = .error (.dimensions s.name rows cols) := by
  have hdims : ¬(1 ≤ rows ∧ 1 ≤ cols) := by omega
  simp only [restore, initMatrix, dif_neg hdims]
  rfl

/-- **Putting a snapshot back in any shape.** Let a snapshot be taken of a matrix of any reachable
graph. It has one cell for each position of the matrix. Put back in a shape with cells, it leaves a
fresh matrix of that shape, which shows what fits into it, and touches nothing else. Any other shape
is refused, and nothing changes. In its own shape the same snapshot can be taken again. -/
theorem restore_resized (hbefore : before.IsReachable) (hg : g.IsReachable)
    (hs : before.snapshot? name = some s) :
    s.name = name ∧ s.IsGrid ∧
    (∀ rows cols : Int, 1 ≤ rows → 1 ≤ cols → ∃ g' b, g.restore s rows cols = .ok g' ∧
      (b.rows : Int) = rows ∧ (b.cols : Int) = cols ∧ g.PutsBack g' s b) ∧
    (∀ rows cols : Int, rows < 1 ∨ cols < 1 →
      g.restore s rows cols = .error (.dimensions name rows cols) ∧
        (Operation.restore s rows cols).apply g = g) ∧
    ∃ g', g.restore s s.rows s.cols = .ok g' ∧ g'.snapshot? name = some s := by
  have hminted : before.IsMinted := hbefore.isWellFormed.toIsMinted
  obtain rfl : s.name = name := name_of_snapshot? hs
  refine ⟨rfl, isGrid_of_snapshot? hminted hs, fun rows cols hr hc => ?_, fun rows cols h => ?_, ?_⟩
  · obtain ⟨m, rfl⟩ := Int.eq_ofNat_of_zero_le (Int.le_of_lt hr)
    obtain ⟨n, rfl⟩ := Int.eq_ofNat_of_zero_le (Int.le_of_lt hc)
    obtain ⟨g', hrun, h⟩ := restore_spec hminted hg.isWellFormed hs (Int.ofNat_le.1 hr)
      (Int.ofNat_le.1 hc)
    exact ⟨g', _, hrun, rfl, rfl, h.putsBack hminted hg.isWellFormed.toIsMinted hs⟩
  · have hrun := restore_of_lt (g := g) (s := s) h
    refine ⟨hrun, ?_⟩
    rw [Operation.apply, hrun]
    rfl
  · obtain ⟨b, -, hshape⟩ := Option.map_eq_some_iff.1 hs
    have hpos : 0 < s.rows ∧ 0 < s.cols := by
      rw [← hshape]
      exact ⟨b.rows_pos, b.cols_pos⟩
    obtain ⟨g', hrun, h⟩ := restore_spec hminted hg.isWellFormed hs hpos.1 hpos.2
    exact ⟨g', hrun, h.snapshot?_eq hs⟩

/-- A graph with a matrix of two painted cells, of which the first one has an edge to another
matrix. -/
def tintedGraph : Graph :=
  runAll "elem" [.initMatrix "A" 2 2,
    .update "A" 0 0 (.int 1) (some "#ff0000") (some true) (some 3),
    .update "A" 1 1 (.int 2) (some "#00ff00") none none, .initMatrix "B" 1 1,
    .link "elem_4" "elem_0"]

theorem isReachable_tintedGraph : tintedGraph.IsReachable :=
  ⟨"elem", _, rfl⟩

/-- In one row of three columns, `A` keeps its first cell, but not the edge. The other matrix keeps
it. No shape without rows is accepted. -/
theorem restore_resized_sample : ∃ s g' b, tintedGraph.snapshot? "A" = some s ∧
    tintedGraph.restore s 1 3 = .ok g' ∧ (b.rows : Int) = 1 ∧ (b.cols : Int) = 3 ∧
    g'.cell (g'.idAt b 0 0) =
      ⟨g'.idAt b 0 0, "A", 0, 0, .int 1, some "#ff0000", some 3, true, [], []⟩ ∧
    g'.cell (g'.idAt b 0 2) = .blank (g'.idAt b 0 2) "A" 0 2 ∧
    (g'.cell "elem_4").dependencies = ["elem_0"] ∧
    tintedGraph.restore s 0 3 = .error (.dimensions "A" 0 3) := by
  have hb : tintedGraph.matrices[("A" : Text)]? = some ⟨0, 2, 2, by decide, by decide⟩ := by
    decide +kernel
  have hs := snapshot?_eq hb
  obtain ⟨-, -, hrestore, herror, -⟩ :=
    restore_resized isReachable_tintedGraph isReachable_tintedGraph hs
  obtain ⟨g', b, hrun, hrows, hcols, h⟩ := hrestore 1 3 (by decide) (by decide)
  refine ⟨_, g', b, hs, hrun, hrows, hcols, ?_, ?_, ?_, (herror 0 3 (by decide)).1⟩
  · have hfirst : tintedGraph.paintAt "A" 0 0 = ⟨0, 0, .int 1, some "#ff0000", some 3, true⟩ := by
      rfl
    refine h.inside 0 0 (by omega) (by omega)
      ⟨0, 0, .int 1, some "#ff0000", some 3, true⟩ ?_ rfl rfl
    exact (mem_cells_of_snapshot? isReachable_tintedGraph.isWellFormed.toIsMinted hs).2
      ⟨0, 0, by decide, by decide, rfl, rfl, hfirst.symm⟩
  · exact h.outside 0 2 (by omega) (by omega) (by decide)
  · rw [(h.kept "elem_4" (by decide +kernel)).2]
    decide +kernel

end Graph

end CellLineage
