import CellLineage.Proofs.Evaluation.Restore
import CellLineage.Proofs.Workspace.Mirror
import CellLineage.Proofs.Workspace.Pattern

/-!
# Edits that are repeated on the right matrix

In the mirror mode each write to the left matrix is repeated at the same position of the right one.
The two may differ in shape, and they may differ in paint where nothing was written since they came
to overlap. So an edit makes them agree where it writes, and everywhere else the right matrix is to
stay as it is, cell by cell and with its lineage.

Painting gives cells another look and changes nothing else of them, so a cell that looks as before
is the same cell (`Workspace.cellAt?_of_lookAt_eq`). Loading a table makes the left matrix anew first,
which touches no cell of another one (`Workspace.sameCells_resize`).

Taking all paint off is the exception. It is not done position by position: the right matrix is
cleared as a whole, also where the left one has no cells.

## Main definitions

* `Graph.SameIds`, `Graph.SameCells`: a matrix has the same ids, and they name the same cells.
* `Workspace.Operation.Edits`: the operations that edit a matrix.
* `Workspace.Operation.Writes`, `Workspace.Operation.Marks`, `Workspace.Operation.Wipes`: the
  positions that an edit writes, and what else it does to cells.
* `Workspace.Repeats`: the right matrix after an edit of the left one.

## Main results

* `Workspace.repeats_mark`, `Workspace.repeats_cleared`, `Workspace.repeats_loadTable`: the three
  kinds of edits, each perhaps after a check that stops it (`Workspace.repeats_self`).
* `Workspace.edit_repeats`: each edit of the left matrix is repeated.
* `Workspace.clearing_reaches_further`: clearing the left matrix clears cells that only the right
  one has.
-/

namespace CellLineage

/-- The cell with another look. -/
def Cell.withLook (c : Cell) (l : Look) : Cell :=
  { c with value := l.value, color := l.color, isIdentity := l.isIdentity }

/-- Cells that are the same without their paint differ in their looks only. -/
theorem Cell.eq_withLook {c d : Cell} (h : Graph.wipeCell d = Graph.wipeCell c) :
    d = c.withLook d.look := by
  have hlook : (Graph.wipeCell d).withLook d.look = (Graph.wipeCell c).withLook d.look := by rw [h]
  exact hlook

namespace Graph

variable {before g g' : Graph} {name other : Text} {i j : Nat}

/-! ### Matrices that are the same -/

/-- The matrix of the name, or its absence, has the same shape and the same ids in both graphs. -/
structure SameIds (g g' : Graph) (name : Text) : Prop where
  shape? : g'.shape? name = g.shape? name
  idAt? : ∀ i j : Nat, g'.idAt? name i j = g.idAt? name i j

/-- The matrix of the name, or its absence, has the same cells in both graphs. -/
structure SameCells (g g' : Graph) (name : Text) : Prop extends SameIds g g' name where
  cellAt? : ∀ i j : Nat, g'.cellAt? name i j = g.cellAt? name i j

theorem SameCells.refl (g : Graph) (name : Text) : g.SameCells g name :=
  ⟨⟨rfl, fun _ _ => rfl⟩, fun _ _ => rfl⟩

/-- A matrix is the same where its block and its cells are. -/
theorem sameCells_of_kept (hg : g.IsMinted) (hstem : g'.stem = g.stem)
    (hmatrices : g'.matrices[name]? = g.matrices[name]?)
    (hcell : ∀ id ∈ g.nodes, g'.cell id = g.cell id) : g.SameCells g' name := by
  have hid (i j : Nat) : g'.idAt? name i j = g.idAt? name i j := by
    simp only [Graph.idAt?, hmatrices, idAt, cellId, hstem]
  refine ⟨⟨congrArg (Option.map Block.shape) hmatrices, hid⟩, fun i j => ?_⟩
  rw [Graph.cellAt?, Graph.cellAt?, hid]
  cases h : g.idAt? name i j with
  | none => rfl
  | some id =>
    obtain ⟨b, hb, hi, hj, rfl⟩ := idAt?_eq_some_iff.1 h
    exact congrArg some (hcell _ (hg.idAt_mem hb hi hj))

/-- Making a matrix anew touches no other one. -/
theorem Restores.sameCells (hg : g.IsMinted) {rows cols : Nat} {hr : 0 < rows} {hc : 0 < cols}
    (h : before.Restores g g' name (g.nextBlock rows cols hr hc)) (hne : other ≠ name) :
    g.SameCells g' other := by
  refine sameCells_of_kept hg (h.stem.trans stem_addMatrix) ?_ fun id hid =>
    (h.cell_of_mem hg hid).2
  rw [h.matrices]
  exact (matrices_addMatrix other).trans (if_neg hne.symm)

end Graph

namespace Workspace

variable {w w' : Workspace} {name other : Text} {i j : Nat}

/-- **Resizing a matrix** touches no other one. -/
theorem sameCells_resize (hg : w.graph.IsWellFormed) (hne : other ≠ name) (rows cols : Datum) :
    w.graph.SameCells (left (resize name rows cols) w).graph other := by
  rcases resize_cases name rows cols w with h | ⟨shape, hcheck, h⟩
  · rw [h]
    exact .refl _ _
  obtain ⟨⟨hrows, -⟩, ⟨hcols, -⟩⟩ := Size.check_eq_ok hcheck
  rw [h]
  cases hshot : w.graph.snapshot? name with
  | none =>
    have hnone : w.graph.matrices[name]? = none := by
      rwa [Graph.snapshot?, Option.map_eq_none_iff] at hshot
    dsimp only
    rw [initMatrix, left_of_ok (liftGraph_of_ok (w := { w with shapes := w.shapes.put name shape })
      (fun g => g.initMatrix name shape.1 shape.2) (Graph.initMatrix_eq_ok hrows hcols))]
    exact (Graph.restores_addMatrix hnone hrows hcols).sameCells hg.toIsMinted hne
  | some s =>
    dsimp only
    split
    · obtain ⟨g', hrestore, hrestores⟩ :=
        Graph.restore_spec hg.toIsMinted hg hshot hrows hcols
      rw [left_of_ok (liftGraph_of_ok (w := { w with shapes := w.shapes.put name shape })
        (fun g => g.restore s shape.1 shape.2) hrestore)]
      exact hrestores.sameCells hg.toIsMinted hne
    · exact .refl _ _

/-! ### Cells that get another look -/

/-- Painting changes the looks of cells only. -/
theorem wipeCell_of_paints (h : Paints w w') (id : CellId) :
    Graph.wipeCell (w'.graph.cell id) = Graph.wipeCell (w.graph.cell id) := by
  induction h with
  | refl => rfl
  | @tail w₁ w₂ _ h ih =>
    refine Eq.trans ?_ ih
    cases h with
    | update name row col value color isIdentity =>
      change Graph.wipeCell ((w₁.graph.update name row col value color isIdentity none).cell id) = _
      rw [Graph.update, Graph.update?]
      cases w₁.graph.idAt? name row col with
      | none => rfl
      | some k =>
        rw [Option.map_some, Option.getD_some, Graph.cell_modify]
        split <;> rfl
    | wipe name =>
      change Graph.wipeCell ((w₁.graph.wipe name).cell id) = _
      rw [Graph.wipe]
      split
      · next b _ =>
        have hids : (w₁.graph.ids b).Nodup := List.pairwise_map.2 (w₁.graph.pairwise_idAt b)
        rw [Graph.cell_foldl_modify hids]
        split <;> rfl
      · rfl

theorem sameIds_of_paints (h : Paints w w') (name : Text) : w.graph.SameIds w'.graph name :=
  ⟨h.shape?_eq name, fun i j => h.sameTables.idAt?_eq name i j⟩

theorem cellAt?_of_paints (h : Paints w w') (name : Text) (i j : Nat) :
    w'.graph.cellAt? name i j =
      (w.graph.cellAt? name i j).map fun c => c.withLook (w'.graph.lookAt name i j) := by
  rw [Graph.lookAt, Graph.cellAt?, Graph.cellAt?, h.sameTables.idAt?_eq]
  cases w.graph.idAt? name i j with
  | none => rfl
  | some id => exact congrArg some (Cell.eq_withLook (wipeCell_of_paints h id))

/-- A cell that looks as before is the same. -/
theorem cellAt?_of_lookAt_eq (h : Paints w w')
    (hlook : w'.graph.lookAt name i j = w.graph.lookAt name i j) :
    w'.graph.cellAt? name i j = w.graph.cellAt? name i j := by
  rw [cellAt?_of_paints h, hlook, Graph.lookAt]
  cases w.graph.cellAt? name i j <;> rfl

/-- A cell that looks blank is the one before without its paint. -/
theorem cellAt?_of_lookAt_blank (h : Paints w w')
    (hlook : w'.graph.lookAt name i j = .blank) :
    w'.graph.cellAt? name i j = (w.graph.cellAt? name i j).map Graph.wipeCell := by
  rw [cellAt?_of_paints h, hlook]
  rfl

/-! ### Edits of a matrix -/

/-- The operation edits the matrix. -/
def Operation.Edits (name : Text) : Operation → Prop
  | .paint other _ _ _ _ _ | .toggle other _ _ _ | .fillDiagonal other _ _ | .clearMatrix other
  | .randomize other _ _ _ _ | .loadTable other _ _ => other = name
  | _ => False

/-- The position is painted with a cell of the matrix. -/
def PaintsAt (w : Workspace) (name : Text) (row col : Int) (i j : Nat) : Prop :=
  (w.graph.cellAt? name row col).isSome = true ∧ ((i : Int), (j : Int)) ∈ w.spread name row col

/-- The positions that an edit writes, among those that the matrix has afterwards. A table that is
loaded and a pattern write all of them; a table that is refused writes none. -/
def Operation.Writes (w : Workspace) : Operation → Nat → Nat → Prop
  | .paint name row col _ _ _, i, j | .toggle name row col _, i, j => w.PaintsAt name row col i j
  | .fillDiagonal _ _ _, i, j => i = j
  | .clearMatrix _, _, _ | .randomize _ _ _ _ _, _, _ => True
  | .loadTable name values color, _, _ => ∃ w', Workspace.loadTable name values color w = .ok () w'
  | _, _, _ => False

/-- The edit sets the identity marks of the cells that it writes. -/
def Operation.Marks : Operation → Prop
  | .paint _ _ _ _ _ isIdentity | .fillDiagonal _ _ isIdentity => isIdentity.isSome = true
  | _ => True

/-- The edit takes all paint off first. -/
def Operation.Wipes (w : Workspace) : Operation → Prop
  | .clearMatrix _ => True
  | .randomize name _ _ _ _ => w.graph.hasMatrix name = true
  | _ => False

/-- The right matrix after an edit of the left one. The edit writes some positions of the left
matrix; it may set identity marks, and it may take all paint off first. -/
structure Repeats (w w' : Workspace) (writes : Nat → Nat → Prop) (marks wipes : Prop) : Prop where
  /-- The right matrix has the same shape and the same ids. -/
  sameIds : w.graph.SameIds w'.graph mirrorTarget
  /-- It looks like the left one where that is written. -/
  written : ∀ i j, w'.graph.HasCell mirrorTarget i j → w'.graph.HasCell mirrorSource i j →
    writes i j →
    (w'.graph.lookAt mirrorTarget i j).value = (w'.graph.lookAt mirrorSource i j).value ∧
    (w'.graph.lookAt mirrorTarget i j).color = (w'.graph.lookAt mirrorSource i j).color ∧
    (marks → (w'.graph.lookAt mirrorTarget i j).isIdentity =
      (w'.graph.lookAt mirrorSource i j).isIdentity)
  /-- Elsewhere its cells are the same, unless all paint is taken off. -/
  kept : ∀ i j, ¬(w'.graph.HasCell mirrorSource i j ∧ writes i j) → ¬wipes →
    w'.graph.cellAt? mirrorTarget i j = w.graph.cellAt? mirrorTarget i j
  /-- If it is, they lose their own and are the same otherwise. -/
  wiped : ∀ i j, ¬(w'.graph.HasCell mirrorSource i j ∧ writes i j) → wipes →
    w'.graph.cellAt? mirrorTarget i j = (w.graph.cellAt? mirrorTarget i j).map Graph.wipeCell
  /-- The cells of the left matrix that are not written are the same. -/
  unwritten : ∀ i j, w'.graph.HasCell mirrorSource i j → ¬writes i j →
    w'.graph.cellAt? mirrorSource i j = w.graph.cellAt? mirrorSource i j

section

variable {writes : Nat → Nat → Prop} {marks wipes : Prop}

theorem isLocked_mirrorSource (w : Workspace) : w.isLocked mirrorSource = false := by
  have hne : (mirrorSource == mirrorTarget) = false := by decide
  rw [isLocked, hne, Bool.and_false]

/-- In the mirror mode what is written to the left matrix is seen on the right one. -/
theorem reaches_of_mirror (hmirror : w.mirror.isTruthy = true) :
    w.Reaches mirrorSource mirrorTarget :=
  (reaches_mirrorTarget hmirror (isLocked_mirrorSource w)).2 (.inl rfl)

/-- An edit that stops or writes nothing. -/
theorem repeats_self (hnone : ∀ i j, ¬(w.graph.HasCell mirrorSource i j ∧ writes i j))
    (hwipes : ¬wipes) : Repeats w w writes marks wipes where
  sameIds := (Graph.SameCells.refl ..).toSameIds
  written i j _ hs hwrites := absurd ⟨hs, hwrites⟩ (hnone i j)
  kept _ _ _ _ := rfl
  wiped _ _ _ h := absurd h hwipes
  unwritten _ _ _ _ := rfl

/-- **Writing the same at several positions** of the left matrix. -/
theorem repeats_mark (hg : w.graph.IsWellFormed) (hmirror : w.mirror.isTruthy = true)
    {ps : List (Int × Int)}
    (hps : ∀ i j : Nat, ((i : Int), (j : Int)) ∈ ps ↔ w.graph.HasCell mirrorSource i j ∧ writes i j)
    (value : Number) (color : Option Text) {isIdentity : Option Bool}
    (hmarks : marks → isIdentity.isSome = true) (hwipes : ¬wipes) :
    Repeats w (w.mark mirrorSource ps value color isIdentity) writes marks wipes := by
  have hpaints := paints_mark w mirrorSource ps value color isIdentity
  have hlook := lookAt_mark hg mirrorSource ps value color isIdentity
  refine ⟨sameIds_of_paints hpaints _, fun i j ht hs hwrites => ?_, fun i j hnot _ => ?_,
    fun i j _ h => absurd h hwipes, fun i j hs hnot => ?_⟩
  · rw [hasCell_of_paints hpaints] at ht hs
    have hmem := (hps i j).2 ⟨hs, hwrites⟩
    rw [hlook, hlook, if_pos ⟨reaches_of_mirror hmirror, hmem, ht⟩, if_pos ⟨.inl rfl, hmem, hs⟩]
    refine ⟨rfl, rfl, fun h => ?_⟩
    obtain ⟨mark, rfl⟩ := Option.isSome_iff_exists.1 (hmarks h)
    rfl
  · rw [hasCell_of_paints hpaints, ← hps] at hnot
    exact cellAt?_of_lookAt_eq hpaints ((hlook ..).trans (if_neg fun h => hnot h.2.1))
  · exact cellAt?_of_lookAt_eq hpaints
      ((hlook ..).trans (if_neg fun h => hnot ((hps i j).1 h.2.1).2))

/-- **Clearing the left matrix** and writing the same at several of its positions. -/
theorem repeats_cleared (hg : w.graph.IsWellFormed) (hmirror : w.mirror.isTruthy = true)
    (ps : List (Int × Int))
    (hps : ∀ i j : Nat, ((i : Int), (j : Int)) ∈ ps → w.graph.HasCell mirrorSource i j)
    (value : Number) (color : Option Text) (isIdentity : Option Bool) (hwrites : ∀ i j, writes i j)
    (hwipes : wipes) :
    Repeats w ((w.cleared mirrorSource).mark mirrorSource ps value color isIdentity) writes marks
      wipes := by
  have hcleared := paints_cleared w mirrorSource
  have htarget (i j : Nat) := (lookAt_cleared hg mirrorSource mirrorTarget i j).trans
    (if_pos (reaches_of_mirror hmirror))
  have hsource (i j : Nat) := (lookAt_cleared hg mirrorSource mirrorSource i j).trans
    (if_pos (.inl rfl))
  generalize w.cleared mirrorSource = w₁ at *
  have hpaints := hcleared.trans (paints_mark w₁ mirrorSource ps value color isIdentity)
  have hlook := lookAt_mark (hcleared.edits.isWellFormed hg) mirrorSource ps value color isIdentity
  have hreaches : w₁.Reaches mirrorSource mirrorTarget :=
    reaches_of_mirror (hcleared.mirror ▸ hmirror)
  have hself : w₁.Reaches mirrorSource mirrorSource := .inl rfl
  refine ⟨sameIds_of_paints hpaints _, fun i j ht hs _ => ?_, fun _ _ _ h => absurd hwipes h,
    fun i j hnot _ => ?_, fun i j _ h => absurd (hwrites i j) h⟩
  · rw [hasCell_of_paints (paints_mark ..)] at ht hs
    -- both are blank or painted in the same way
    have hsame : (w₁.mark mirrorSource ps value color isIdentity).graph.lookAt mirrorTarget i j =
        (w₁.mark mirrorSource ps value color isIdentity).graph.lookAt mirrorSource i j := by
      rw [hlook, hlook, htarget, hsource]
      simp only [hreaches, hself, ht, hs]
    exact ⟨congrArg Look.value hsame, congrArg Look.color hsame,
      fun _ => congrArg Look.isIdentity hsame⟩
  · rw [hasCell_of_paints hpaints] at hnot
    refine cellAt?_of_lookAt_blank hpaints ?_
    rw [hlook, if_neg fun h => hnot ⟨hps i j h.2.1, hwrites i j⟩]
    exact htarget i j

/-- **Loading a table** into the left matrix. It is made anew in the shape of the table, and each of
its cells is written; or nothing happens. -/
theorem repeats_loadTable (hg : w.graph.IsWellFormed) (hmirror : w.mirror.isTruthy = true)
    (values : Datum) (color : Option Text) (marks : Prop) {wipes : Prop} (hwipes : ¬wipes) :
    Repeats w (left (loadTable mirrorSource values color) w)
      (fun _ _ => ∃ w', loadTable mirrorSource values color w = .ok () w') marks wipes := by
  rcases loadTable_fills mirrorSource values color w with
    ⟨e, hrun⟩ | ⟨hlocked, -⟩ | ⟨rows, c, hrows, hlocked, hdeclares, hrun⟩
  · rw [left_of_error hrun, hrun]
    have hnone : ¬∃ w', EStateM.Result.error e w = .ok () w' := fun ⟨_, h⟩ => nomatch h
    exact repeats_self (fun _ _ h => hnone h.2) hwipes
  · rw [isLocked_mirrorSource] at hlocked
    cases hlocked
  rw [left_of_ok hrun]
  have hloaded : ∃ w', loadTable mirrorSource values color w = .ok () w' := ⟨_, hrun⟩
  have hne : mirrorTarget ≠ mirrorSource := by decide
  have hsame := sameCells_resize hg hne (.int rows.length) (.int c)
  have hg₁ := (editsGraph_resize mirrorSource (.int rows.length) (.int c) w).isWellFormed hg
  clear hrun
  generalize left (Workspace.resize mirrorSource (.int rows.length) (.int c)) w = w₁ at *
  have hmirror₁ : w₁.mirror = w.mirror := (congrArg Workspace.mirror hdeclares.eq).trans rfl
  have hshape := (hdeclares.shape?_eq mirrorSource).trans (if_pos rfl)
  have hpaints := paints_fillTable w₁ mirrorSource (positioned rows) color
  have hids := sameIds_of_paints hpaints mirrorTarget
  refine ⟨⟨hids.shape?.trans hsame.shape?, fun i j => (hids.idAt? i j).trans (hsame.idAt? i j)⟩,
    fun i j ht hs _ => ?_, fun i j hnot _ => ?_, fun _ _ _ h => absurd h hwipes,
    fun _ _ _ h => absurd hloaded h⟩
  · rw [hasCell_of_paints hpaints] at ht hs
    obtain ⟨hi, hj⟩ := (Graph.hasCell_iff_of_shape? hshape).1 hs
    have hlook := lookAt_fillTable hg₁ (hmirror₁ ▸ hmirror) (isLocked_mirrorSource w₁) hs ht
      (positioned rows) color (.inr ⟨rfl, exists_mem_positioned hrows hi hj⟩)
    exact ⟨congrArg Look.value hlook, congrArg Look.color hlook,
      fun _ => congrArg Look.isIdentity hlook⟩
  · -- the table has no value there
    rw [hasCell_of_paints hpaints, Graph.hasCell_iff_of_shape? hshape] at hnot
    refine (cellAt?_of_lookAt_eq hpaints ?_).trans (hsame.cellAt? i j)
    exact lookAt_fillTable_of_notMem hg₁ mirrorSource color
      (fun _ hmem => hnot ⟨lt_of_mem_positioned hrows hmem, hloaded⟩) mirrorTarget

end

/-! ### Edits of the left matrix -/

theorem hasCell_of_paintsAt {row col : Int} (h : w.PaintsAt name row col i j) :
    w.graph.HasCell name i j := by
  obtain ⟨hcell, hmem⟩ := h
  cases hb : w.graph.matrices[name]? with
  | none =>
    rw [Graph.cellAt?_of_missing hb] at hcell
    cases hcell
  | some b =>
    have hshape : w.graph.shape? name = some b.shape := congrArg (Option.map Block.shape) hb
    rw [Graph.hasCell_iff hb]
    rw [Graph.cellAt?, Option.isSome_map, Graph.idAt?, hb] at hcell
    rw [spread, hshape] at hmem
    dsimp only at hcell hmem
    split at hcell
    swap
    · cases hcell
    next hin =>
    split at hmem
    · next hsquare =>
      simp only [Bool.and_eq_true, beq_iff_eq, Block.shape] at hsquare
      simp only [List.mem_cons, List.not_mem_nil, or_false, Prod.mk.injEq] at hmem
      omega
    · simp only [List.mem_cons, List.not_mem_nil, or_false, Prod.mk.injEq] at hmem
      omega

theorem mem_diagonal {shape : Nat × Nat} :
    ((i : Int), (j : Int)) ∈ diagonal shape ↔ (i < shape.1 ∧ j < shape.2) ∧ i = j := by
  simp only [diagonal, List.mem_map, List.mem_range, Prod.mk.injEq, Int.natCast_inj]
  constructor
  · rintro ⟨k, hk, rfl, rfl⟩
    omega
  · rintro ⟨h, rfl⟩
    exact ⟨i, by omega, rfl, rfl⟩

/-- Painting a cell of the left matrix. -/
theorem repeats_paint (hg : w.graph.IsWellFormed) (hmirror : w.mirror.isTruthy = true)
    (row col : Int) (value : Number) (color : Option Text) {isIdentity : Option Bool}
    {marks wipes : Prop} (hmarks : marks → isIdentity.isSome = true) (hwipes : ¬wipes) :
    Repeats w (left (paint mirrorSource row col value color isIdentity) w)
      (w.PaintsAt mirrorSource row col) marks wipes := by
  simp only [left, paint_eq]
  cases hcell : w.graph.cellAt? mirrorSource row col with
  | none =>
    refine repeats_self (fun i j h => ?_) hwipes
    have hsome := h.2.1
    rw [hcell] at hsome
    cases hsome
  | some c =>
    dsimp only
    rw [if_neg (Bool.eq_false_iff.1 (isLocked_mirrorSource w))]
    refine repeats_mark hg hmirror (fun i j => ⟨fun hmem => ?_, fun h => h.2.2⟩) value color hmarks
      hwipes
    have hat : w.PaintsAt mirrorSource row col i j := ⟨by rw [hcell]; rfl, hmem⟩
    exact ⟨hasCell_of_paintsAt hat, hat⟩

/-- **Each edit of the left matrix is repeated** on the right one, in a reachable workspace in the
mirror mode, whatever the shapes of the two are, and whether the edit stops or not. The right matrix
looks like the left one where that is written. Elsewhere its cells are the same, but for their paint
if the edit takes off all that. -/
theorem edit_repeats (hw : w.IsReachable) (hmirror : w.mirror.isTruthy = true) {op : Operation}
    (hop : op.Edits mirrorSource) :
    Repeats w (op.apply w) (op.Writes w) op.Marks (op.Wipes w) := by
  have hg := hw.isWellFormed
  have hunlocked := Bool.eq_false_iff.1 (isLocked_mirrorSource w)
  cases op with
  | paint name row col value color isIdentity =>
    obtain rfl : name = mirrorSource := hop
    exact repeats_paint hg hmirror row col value color id id
  | toggle name row col color =>
    obtain rfl : name = mirrorSource := hop
    obtain ⟨value, color', hrun⟩ := exists_left_toggle mirrorSource row col color w
    rw [Operation.apply, hrun]
    exact repeats_paint hg hmirror row col value color' (fun _ => rfl) id
  | fillDiagonal name color isIdentity =>
    obtain rfl : name = mirrorSource := hop
    simp only [Operation.apply, left, fillDiagonal_eq]
    cases hshape : w.graph.shape? mirrorSource with
    | none => exact repeats_self (fun _ _ h => Graph.not_hasCell_of_shape? hshape h.1) id
    | some shape =>
      dsimp only
      rw [if_neg hunlocked]
      refine repeats_mark hg hmirror (fun i j => ?_) (.int 1) color id id
      rw [mem_diagonal, Graph.hasCell_iff_of_shape? hshape]
      rfl
  | clearMatrix name =>
    obtain rfl : name = mirrorSource := hop
    rw [Operation.apply, left_of_ok (clearMatrix_eq mirrorSource w), if_neg hunlocked]
    exact repeats_cleared hg hmirror [] (fun _ _ h => absurd h List.not_mem_nil) (.int 0) none none
      (fun _ _ => trivial) trivial
  | randomize name density color isSymmetric draw =>
    obtain rfl : name = mirrorSource := hop
    have hmissing : w.graph.hasMatrix mirrorSource = (w.graph.shape? mirrorSource).isSome :=
      w.graph.hasMatrix_eq mirrorSource
    simp only [Operation.apply, left, randomize_eq]
    cases hshape : w.graph.shape? mirrorSource with
    | none =>
      refine repeats_self (fun _ _ h => Graph.not_hasCell_of_shape? hshape h.1) ?_
      rw [Operation.Wipes, hmissing, hshape]
      exact Bool.false_ne_true
    | some shape =>
      dsimp only
      rw [if_neg hunlocked]
      refine repeats_cleared hg hmirror _ (fun i j hmem => ?_) (.int 1) color (some false)
        (fun _ _ => trivial) ?_
      · obtain ⟨⟨a, b⟩, hchosen, he⟩ := List.mem_map.1 hmem
        simp only [Prod.mk.injEq, Int.natCast_inj] at he
        obtain ⟨rfl, rfl⟩ := he
        obtain ⟨hi, hj, -⟩ := mem_chosen.1 hchosen
        exact (Graph.hasCell_iff_of_shape? hshape).2 ⟨hi, hj⟩
      · rw [Operation.Wipes, hmissing, hshape]
        rfl
  | loadTable name values color =>
    obtain rfl : name = mirrorSource := hop
    exact repeats_loadTable hg hmirror values color _ id
  | _ => exact hop.elim

/-- In the sample a table of one cell is loaded into the left matrix. That cell is repeated, and the
cell beside it, which the left matrix has lost, stays as it was painted. -/
theorem edit_repeats_sample : ∃ new, make mirroredSettings = .ok new ∧
    let w := runAll new [.paint mirrorSource 0 1 (.int 3) none none]
    let w' := (Operation.loadTable mirrorSource (.list [.list [.int 5]]) none).apply w
    w'.graph.shape? mirrorTarget = some (2, 2) ∧
      (w'.graph.lookAt mirrorTarget 0 0).value = (w'.graph.lookAt mirrorSource 0 0).value ∧
      (w'.graph.lookAt mirrorSource 0 0).value.toInt = 5 ∧
      w'.graph.cellAt? mirrorTarget 0 1 = w.graph.cellAt? mirrorTarget 0 1 ∧
      (w.graph.lookAt mirrorTarget 0 1).value.toInt = 3 := by
  let new := left (setFormula mirroredSettings.formula) (blank mirroredSettings)
  let w := runAll new [.paint mirrorSource 0 1 (.int 3) none none]
  let op : Operation := .loadTable mirrorSource (.list [.list [.int 5]]) none
  have hreachable : w.IsReachable := ⟨_, new, _, make_mirroredSettings, rfl⟩
  have hrepeats : Repeats w (op.apply w) (op.Writes w) op.Marks (op.Wipes w) :=
    edit_repeats hreachable (by decide +kernel) rfl
  have hloaded : op.Writes w 0 0 := by
    rcases loadTable_fills mirrorSource (.list [.list [.int 5]]) none w with
      ⟨e, hrun⟩ | ⟨-, hrun⟩ | ⟨_, _, -, -, -, hrun⟩
    · have hsame : (op.apply w).graph.shape? mirrorSource = w.graph.shape? mirrorSource :=
        congrArg (fun w => w.graph.shape? mirrorSource) (left_of_error hrun)
      exact absurd hsame (by decide +kernel)
    · exact ⟨_, hrun⟩
    · exact ⟨_, hrun⟩
  refine ⟨new, make_mirroredSettings, ?_, ?_, by decide +kernel, ?_, by decide +kernel⟩
  · exact hrepeats.sameIds.shape?.trans (by decide +kernel)
  · exact (hrepeats.written 0 0 (by decide +kernel) (by decide +kernel) hloaded).1
  · refine hrepeats.kept 0 1 (fun h => ?_) id
    have hnone : ¬(op.apply w).graph.HasCell mirrorSource 0 1 := by decide +kernel
    exact hnone h.1

/-- **Clearing the left matrix clears more of the right one.** In the sample a cell of the left
matrix is painted, and its copy with it, and cropped. The copy, which only the right matrix has now,
is blank once the left matrix is cleared or painted at random. -/
theorem clearing_reaches_further : ∃ new, make mirroredSettings = .ok new ∧
    let w := runAll new [.paint mirrorSource 0 1 (.int 1) none none,
      .resize mirrorSource (.int 1) (.int 1)]
    let cleared := (Operation.clearMatrix mirrorSource).apply w
    let drawn := (Operation.randomize mirrorSource (.float 1) none false fun _ => .float 0).apply w
    w.mirror.isTruthy = true ∧ ¬w.graph.HasCell mirrorSource 0 1 ∧
      (w.graph.lookAt mirrorTarget 0 1).value.toInt = 1 ∧
      (cleared.graph.lookAt mirrorTarget 0 1).value.toInt = 0 ∧
      (drawn.graph.lookAt mirrorTarget 0 1).value.toInt = 0 :=
  ⟨_, make_mirroredSettings, by decide +kernel⟩

end Workspace

end CellLineage
