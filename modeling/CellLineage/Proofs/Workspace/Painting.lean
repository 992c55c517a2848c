import CellLineage.Proofs.Workspace.Look

/-!
# What painting leaves

All paint is put on through one write, to a cell of the named matrix and, in the mirror mode, to the
same cell of the right matrix if the left one is named. Each operation that paints does nothing, if
it stops before it starts or the matrix is locked, or it writes the same to a list of positions,
perhaps after clearing the matrix. So what it leaves is told by one equation for such a list and by
the list. Loading a table differs: it resizes the matrix, and the values that it writes vary.

## Main definitions

* `Workspace.Reaches`: what is written to one matrix is seen on another.
* `Workspace.mark`: the same written at several positions.
* `Workspace.patterned`: a matrix cleared and marked at random.
* `Workspace.fillTable`: the values of a table written at their positions.

## Main results

* `Workspace.lookAt_mark`, `Workspace.lookAt_cleared`, `Workspace.lookAt_syncMirror`: the looks
  after writing, after clearing and after copying the left matrix.
* `Workspace.paint_eq`, `Workspace.exists_left_toggle`, `Workspace.fillDiagonal_eq`,
  `Workspace.clearMatrix_eq`, `Workspace.randomize_eq`, `Workspace.loadTable_fills`: what the
  operations write.
-/

namespace CellLineage

namespace Datum

theorem forall_of_itemExtents? {ds : List Datum} {n : Nat} {inner : List Nat}
    (h : itemExtents? ds = some (n :: inner)) :
    ds.length = n ∧ ∀ d ∈ ds, d.extents? = some inner := by
  induction ds generalizing n with
  | nil =>
    cases h
    exact ⟨rfl, by simp⟩
  | cons d ds ih =>
    cases ds with
    | nil =>
      rw [itemExtents?, Option.map_eq_some_iff] at h
      obtain ⟨inner', hd, he⟩ := h
      cases he
      exact ⟨rfl, by simpa using hd⟩
    | cons e ds =>
      rw [itemExtents?] at h
      split at h
      · next first m others hd hrest =>
        split at h
        · next hsame =>
          subst hsame
          cases h
          obtain ⟨hlength, hall⟩ := ih hrest
          exact ⟨by rw [List.length_cons, hlength], List.forall_mem_cons.2 ⟨hd, hall⟩⟩
        · cases h
      · cases h

theorem itemExtents?_ne_nil (ds : List Datum) : itemExtents? ds ≠ some [] := by
  intro h
  match ds with
  | [] => cases h
  | [d] => simp [itemExtents?] at h
  | d :: e :: ds =>
    rw [itemExtents?] at h
    split at h
    · split at h <;> cases h
    · cases h

/-- A number stands for one double. -/
theorem length_of_doubles {d : Datum} {xs : List Float} (he : d.extents? = some [])
    (hx : d.doubles = .ok xs) : xs.length = 1 := by
  cases d with
  | list items =>
    rw [extents?] at he
    exact absurd he (itemExtents?_ne_nil items)
  | _ =>
    obtain ⟨x, -, hx⟩ := exists_of_bind_eq_ok hx
    cases hx
    rfl

theorem length_of_itemDoubles {ds : List Datum} {xs : List Float}
    (he : ∀ d ∈ ds, d.extents? = some []) (hx : itemDoubles ds = .ok xs) :
    xs.length = ds.length := by
  induction ds generalizing xs with
  | nil =>
    cases hx
    rfl
  | cons d ds ih =>
    obtain ⟨hd, hds⟩ := List.forall_mem_cons.1 he
    rw [itemDoubles] at hx
    obtain ⟨first, hfirst, hx⟩ := exists_of_bind_eq_ok hx
    obtain ⟨rest, hrest, hx⟩ := exists_of_bind_eq_ok hx
    cases hx
    rw [List.length_append, length_of_doubles hd hfirst, ih hds hrest, List.length_cons,
      Nat.add_comm]

theorem length_of_row {d : Datum} {c : Nat} {xs : List Float} (he : d.extents? = some [c])
    (hx : d.doubles = .ok xs) : xs.length = c := by
  cases d with
  | list items =>
    rw [extents?] at he
    rw [doubles] at hx
    obtain ⟨hlength, hall⟩ := forall_of_itemExtents? he
    rw [length_of_itemDoubles hall hx, hlength]
  | _ => cases he

theorem exists_of_mapM_eq_ok {α β ε : Type} {f : α → Except ε β} {xs : List α} {ys : List β}
    (h : xs.mapM f = .ok ys) : ∀ y ∈ ys, ∃ x ∈ xs, f x = .ok y := by
  induction xs generalizing ys with
  | nil =>
    rw [List.mapM_nil] at h
    cases h
    simp
  | cons x xs ih =>
    rw [List.mapM_cons] at h
    obtain ⟨y, hy, h⟩ := exists_of_bind_eq_ok h
    obtain ⟨ys', hys, h⟩ := exists_of_bind_eq_ok h
    cases h
    exact List.forall_mem_cons.2 ⟨⟨x, List.mem_cons_self, hy⟩, fun y' hy' =>
      have ⟨x', hx', he⟩ := ih hys y' hy'
      ⟨x', List.mem_cons_of_mem _ hx', he⟩⟩

/-- **The rows of a table** are all of one length. -/
theorem exists_length_of_table {d : Datum} {rows : List (List Number)} (h : d.table = .ok rows) :
    ∃ c, ∀ row ∈ rows, row.length = c := by
  rw [table] at h
  split at h
  · cases h
  · next extents hextents =>
    obtain ⟨_, -, hrows⟩ := exists_of_bind_eq_ok h
    by_cases hlevels : extents.length = 2
    swap
    · rw [if_neg hlevels] at hrows
      cases hrows
    rw [if_pos hlevels] at hrows
    obtain ⟨r, c, rfl⟩ := List.length_eq_two.1 hlevels
    have hextents : d.extents? = some [r, c] := (Option.filter_eq_some_iff.1 hextents).1
    refine ⟨c, fun row hrow => ?_⟩
    obtain ⟨item, hitem, hx⟩ := exists_of_mapM_eq_ok hrows row hrow
    obtain ⟨xs, hxs, hx⟩ := exists_of_bind_eq_ok hx
    cases hx
    rw [List.length_map]
    cases d with
    | list items =>
      rw [extents?] at hextents
      exact length_of_row ((forall_of_itemExtents? hextents).2 item hitem) hxs
    | _ => cases hextents

end Datum

namespace Workspace

variable {w w' : Workspace} {name other : Text} {i j : Nat}

/-! ### Painting -/

/-- What is written to the first matrix is seen on the second: they are the same, or the second one
follows the first. -/
def Reaches (w : Workspace) (name other : Text) : Prop :=
  other = name ∨ w.isFollowed name = true ∧ other = mirrorTarget

instance (w : Workspace) (name other : Text) : Decidable (w.Reaches name other) :=
  inferInstanceAs (Decidable (_ ∨ _))

theorem ne_mirrorTarget_of_isFollowed (h : w.isFollowed name = true) : name ≠ mirrorTarget := by
  rw [isFollowed, Bool.and_eq_true, beq_iff_eq] at h
  rw [h.2]
  decide

/-- **Writing a cell** changes its look and that of the one that follows it. -/
theorem lookAt_write (hg : w.graph.IsWellFormed) (name : Text) (row col : Int) (value : Number)
    (color : Option Text) (isIdentity : Option Bool) (other : Text) (i j : Nat) :
    (w.write name row col value color isIdentity).graph.lookAt other i j =
      if w.Reaches name other ∧ row = i ∧ col = j ∧ w.graph.HasCell other i j then
        (w.graph.lookAt other i j).painted value color isIdentity
      else w.graph.lookAt other i j := by
  have hfirst := Graph.lookAt_update hg name row col value color isIdentity other i j
  have hcell : (w.graph.update name row col value color isIdentity none).HasCell other i j ↔
      w.graph.HasCell other i j :=
    Graph.hasCell_congr (Paints.shape?_eq
      (.single (.update w name row col value color isIdentity)) other)
  unfold write
  dsimp only
  split
  · next hfollowed =>
    have hne := ne_mirrorTarget_of_isFollowed hfollowed
    have hsecond := Graph.lookAt_update
      (Graph.isWellFormed_update hg name row col value color isIdentity) mirrorTarget row col value
      color isIdentity other i j
    simp only [hcell] at hsecond
    refine hsecond.trans ?_
    by_cases htarget : other = mirrorTarget
    · subst htarget
      have hlook : (w.graph.update name row col value color isIdentity none).lookAt mirrorTarget
          i j = w.graph.lookAt mirrorTarget i j := hfirst.trans (if_neg fun h => hne h.1.symm)
      simp only [hlook, Reaches, hfollowed, true_and, or_true]
    · rw [if_neg fun h => htarget h.1]
      refine hfirst.trans ?_
      simp only [Reaches, htarget, and_false, or_false]
  · next hnot =>
    refine hfirst.trans ?_
    simp only [Reaches, hnot, Bool.false_eq_true, false_and, or_false]

theorem Paints.mirror (h : Paints w w') : w'.mirror = w.mirror :=
  (congrArg Workspace.mirror h.eq).trans rfl

theorem isFollowed_congr (h : w'.mirror = w.mirror) (name : Text) :
    w'.isFollowed name = w.isFollowed name := by
  rw [isFollowed, h, isFollowed]

theorem isLocked_congr (h : w'.mirror = w.mirror) (name : Text) :
    w'.isLocked name = w.isLocked name := by
  rw [isLocked, h, isLocked]

theorem hasCell_of_paints (h : Paints w w') (name : Text) (i j : Nat) :
    w'.graph.HasCell name i j ↔ w.graph.HasCell name i j :=
  Graph.hasCell_congr (h.shape?_eq name)

/-- The workspace with the same written at several positions of a matrix. -/
def mark (w : Workspace) (name : Text) (ps : List (Int × Int)) (value : Number)
    (color : Option Text) (isIdentity : Option Bool) : Workspace :=
  ps.foldl (fun w p => w.write name p.1 p.2 value color isIdentity) w

theorem paints_mark (w : Workspace) (name : Text) (ps : List (Int × Int)) (value : Number)
    (color : Option Text) (isIdentity : Option Bool) :
    Paints w (w.mark name ps value color isIdentity) :=
  Graph.steps_foldl fun p _ w₁ _ => paints_write w₁ name p.1 p.2 value color isIdentity

/-- **Writing the same at several positions** of a matrix. -/
theorem lookAt_mark (hg : w.graph.IsWellFormed) (name : Text) (ps : List (Int × Int))
    (value : Number) (color : Option Text) (isIdentity : Option Bool) (other : Text) (i j : Nat) :
    (w.mark name ps value color isIdentity).graph.lookAt other i j =
      if w.Reaches name other ∧ ((i : Int), (j : Int)) ∈ ps ∧ w.graph.HasCell other i j then
        (w.graph.lookAt other i j).painted value color isIdentity
      else w.graph.lookAt other i j := by
  induction ps generalizing w with
  | nil => exact (if_neg fun h => List.not_mem_nil h.2.1).symm
  | cons p ps ih =>
    obtain ⟨row, col⟩ := p
    have hpaints := paints_write w name row col value color isIdentity
    have hreaches : (w.write name row col value color isIdentity).Reaches name other ↔
        w.Reaches name other := by
      rw [Reaches, isFollowed_congr hpaints.mirror, Reaches]
    change ((w.write name row col value color isIdentity).mark name ps value color
      isIdentity).graph.lookAt other i j = _
    rw [ih (hpaints.edits.isWellFormed hg), lookAt_write hg]
    simp only [hreaches, hasCell_of_paints hpaints, List.mem_cons, Prod.mk.injEq]
    -- a position that is written twice looks as if it were written once
    by_cases hall : w.Reaches name other ∧ row = i ∧ col = j ∧ w.graph.HasCell other i j
    · obtain ⟨hr, rfl, rfl, hcell⟩ := hall
      simp [hr, hcell]
    · grind

/-- The workspace with all paint taken off a matrix, and off the one that follows it. -/
def cleared (w : Workspace) (name : Text) : Workspace :=
  let wiped := { w with graph := w.graph.wipe name }
  if w.isFollowed name then { wiped with graph := wiped.graph.wipe mirrorTarget } else wiped

theorem paints_cleared (w : Workspace) (name : Text) : Paints w (w.cleared name) := by
  have hwipe : Paints w { w with graph := w.graph.wipe name } := .single (.wipe w name)
  unfold cleared
  dsimp only
  split
  · exact hwipe.tail (.wipe _ mirrorTarget)
  · exact hwipe

/-- **Clearing a matrix** blanks it and the one that follows it. -/
theorem lookAt_cleared (hg : w.graph.IsWellFormed) (name other : Text) (i j : Nat) :
    (w.cleared name).graph.lookAt other i j =
      if w.Reaches name other then .blank else w.graph.lookAt other i j := by
  have hfirst := Graph.lookAt_wipe hg name other i j
  have hwipe : Paints w { w with graph := w.graph.wipe name } := .single (.wipe w name)
  unfold cleared
  dsimp only
  split
  · next hfollowed =>
    have hsecond := Graph.lookAt_wipe (hwipe.edits.isWellFormed hg) mirrorTarget other i j
    refine hsecond.trans ?_
    by_cases htarget : other = mirrorTarget
    · simp only [htarget, Reaches, hfollowed, true_and, or_true, if_true]
    · simp only [htarget, if_false, Reaches, and_false, or_false]
      exact hfirst
  · next hnot =>
    refine hfirst.trans ?_
    simp only [Reaches, hnot, Bool.false_eq_true, false_and, or_false]

/-! ### What the operations paint -/

/-- What asks for a cell stops if there is none. -/
theorem requireCell_bind_eq {α : Type} (name : Text) (row col : Int) (f : Cell → Run α)
    (w : Workspace) : (requireCell name row col >>= f) w =
      match w.graph.cellAt? name row col with
      | none => .error (.noCell name row col) w
      | some c => f c w := by
  cases hcell : w.graph.cellAt? name row col with
  | none =>
    have hstop : requireCell name row col w = .error (.noCell name row col) w := by
      rw [requireCell, get_bind_eq, hcell]
      rfl
    exact bind_eq_of_error hstop
  | some c =>
    have hfound : requireCell name row col w = .ok c w := by
      rw [requireCell, get_bind_eq, hcell]
      rfl
    exact bind_eq_of_ok hfound

/-- What asks for a matrix stops if there is none. -/
theorem requireShape_bind_eq {α : Type} (name : Text) (f : Nat × Nat → Run α) (w : Workspace) :
    (requireShape name >>= f) w = match w.graph.shape? name with
      | none => .error (.noMatrix name) w
      | some shape => f shape w := by
  cases hshape : w.graph.shape? name with
  | none =>
    have hstop : requireShape name w = .error (.noMatrix name) w := by
      rw [requireShape, get_bind_eq, hshape]
      rfl
    exact bind_eq_of_error hstop
  | some shape =>
    have hfound : requireShape name w = .ok shape w := by
      rw [requireShape, get_bind_eq, hshape]
      rfl
    exact bind_eq_of_ok hfound

/-- **Painting a cell** stops if there is none. It does nothing if the matrix is locked, and marks the
positions that are painted with that one otherwise. -/
theorem paint_eq (name : Text) (row col : Int) (value : Number) (color : Option Text)
    (isIdentity : Option Bool) (w : Workspace) : paint name row col value color isIdentity w =
      match w.graph.cellAt? name row col with
      | none => .error (.noCell name row col) w
      | some _ => .ok () (if w.isLocked name then w
          else w.mark name (w.spread name row col) value color isIdentity) := by
  rw [paint, requireCell_bind_eq]
  cases w.graph.cellAt? name row col with
  | none => rfl
  | some c =>
    change (if w.isLocked name then pure () else set _ : Run Unit) w = _
    split <;> rfl

theorem exists_shape?_of_cellAt? {row col : Int} {c : Cell}
    (h : w.graph.cellAt? name row col = some c) : ∃ shape, w.graph.shape? name = some shape := by
  cases hb : w.graph.matrices[name]? with
  | none =>
    rw [Graph.cellAt?_of_missing hb] at h
    cases h
  | some b => exact ⟨b.shape, congrArg (Option.map Block.shape) hb⟩

/-- Painting a cell does nothing, or it marks the positions that are painted with that one. -/
theorem paint_cases (name : Text) (row col : Int) (value : Number) (color : Option Text)
    (isIdentity : Option Bool) (w : Workspace) :
    left (paint name row col value color isIdentity) w = w ∨
      ∃ shape, w.graph.shape? name = some shape ∧ w.isLocked name = false ∧
        left (paint name row col value color isIdentity) w =
          w.mark name (w.spread name row col) value color isIdentity := by
  simp only [left, paint_eq]
  cases hcell : w.graph.cellAt? name row col with
  | none => exact .inl rfl
  | some c =>
    cases hlocked : w.isLocked name with
    | true => exact .inl rfl
    | false =>
      obtain ⟨shape, hshape⟩ := exists_shape?_of_cellAt? hcell
      exact .inr ⟨shape, hshape, rfl, rfl⟩

/-- **Toggling a cell** leaves what painting it in some way leaves. -/
theorem exists_left_toggle (name : Text) (row col : Int) (color : Option Text) (w : Workspace) :
    ∃ value color', left (toggle name row col color) w =
      left (paint name row col value color' (some false)) w := by
  have hpaint (value : Number) (color : Option Text) : left (do
      paint name row col value color (some false)
      return value : Run Number) w = left (paint name row col value color (some false)) w := by
    cases h : paint name row col value color (some false) w with
    | ok a w₁ =>
      rw [left, bind_eq_of_ok h, left_of_ok h]
      rfl
    | error e w₁ => rw [left_of_error (bind_eq_of_error h), left_of_error h]
  rw [toggle, left, requireCell_bind_eq]
  cases hcell : w.graph.cellAt? name row col with
  | none => exact ⟨.int 0, none, by rw [left, paint_eq, hcell]⟩
  | some c =>
    change ∃ value color', left (if w.isLocked name then pure c.value else _) w =
      left (paint name row col value color' (some false)) w
    split
    · next hlocked =>
      refine ⟨.int 0, none, ?_⟩
      simp only [left, paint_eq, hcell, if_pos hlocked]
      rfl
    · split
      · exact ⟨_, _, hpaint (.int 0) none⟩
      · exact ⟨_, _, hpaint (.int 1) color⟩

/-- The positions of the main diagonal. -/
def diagonal (shape : Nat × Nat) : List (Int × Int) :=
  (List.range (min shape.1 shape.2)).map fun i : Nat => ((i : Int), (i : Int))

/-- **Filling the diagonal** stops if there is no matrix. It does nothing if that is locked, and
marks the diagonal otherwise. -/
theorem fillDiagonal_eq (name : Text) (color : Option Text) (isIdentity : Option Bool)
    (w : Workspace) : fillDiagonal name color isIdentity w =
      match w.graph.shape? name with
      | none => .error (.noMatrix name) w
      | some shape => .ok () (if w.isLocked name then w
          else w.mark name (diagonal shape) (.int 1) color isIdentity) := by
  rw [fillDiagonal, requireShape_bind_eq]
  cases w.graph.shape? name with
  | none => rfl
  | some shape =>
    dsimp only
    change (if w.isLocked name then pure () else set _ : Run Unit) w = _
    rw [mark, diagonal, List.foldl_map]
    split <;> rfl

/-- Filling the diagonal does nothing, or it marks that. -/
theorem fillDiagonal_cases (name : Text) (color : Option Text) (isIdentity : Option Bool)
    (w : Workspace) : left (fillDiagonal name color isIdentity) w = w ∨
      ∃ shape, w.graph.shape? name = some shape ∧ w.isLocked name = false ∧
        left (fillDiagonal name color isIdentity) w =
          w.mark name (diagonal shape) (.int 1) color isIdentity := by
  simp only [left, fillDiagonal_eq]
  cases w.graph.shape? name with
  | none => exact .inl rfl
  | some shape =>
    cases w.isLocked name with
    | true => exact .inl rfl
    | false => exact .inr ⟨shape, rfl, rfl, rfl⟩

/-- **Clearing a matrix** takes the paint off the matrix and its copy, unless it is locked. -/
theorem clearMatrix_eq (name : Text) (w : Workspace) : clearMatrix name w =
    .ok () (if w.isLocked name then w else w.cleared name) := by
  change (if w.isLocked name then pure () else _ : Run Unit) w = _
  split
  · rfl
  · change (if w.isFollowed name then _ else _ : Run Unit) { w with graph := w.graph.wipe name } = _
    rw [cleared]
    dsimp only
    split <;> rfl

theorem mem_drawnPositions {rows cols : Nat} {isSymmetric : Bool} :
    (i, j) ∈ drawnPositions rows cols isSymmetric ↔
      i < rows ∧ j < cols ∧ (isSymmetric = true → i ≤ j) := by
  cases isSymmetric with
  | false => simp [drawnPositions]
  | true => simp [drawnPositions]

/-- The positions that are painted at random, by the numbers drawn. -/
def chosen (shape : Nat × Nat) (density : Number) (isSymmetric : Bool) (draw : Nat → Number) :
    List (Nat × Nat) :=
  ((drawnPositions shape.1 shape.2 isSymmetric).zipIdx.filter fun p =>
    (draw p.2).lt density).flatMap fun p =>
      patternPositions shape.1 shape.2 isSymmetric p.1.1 p.1.2

/-- The workspace with the chosen positions of a matrix painted and all others blank. -/
def patterned (w : Workspace) (name : Text) (shape : Nat × Nat) (density : Number)
    (color : Option Text) (isSymmetric : Bool) (draw : Nat → Number) : Workspace :=
  (w.cleared name).mark name
    ((chosen shape density isSymmetric draw).map fun p : Nat × Nat => ((p.1 : Int), (p.2 : Int)))
    (.int 1) color (some false)

/-- **Painting at random** stops if there is no matrix. It draws nothing and does nothing if that is
locked. Otherwise it clears the matrix and marks the chosen positions. -/
theorem randomize_eq (name : Text) (density : Number) (color : Option Text) (isSymmetric : Bool)
    (draw : Nat → Number) (w : Workspace) :
    randomize name density color isSymmetric draw w =
      match w.graph.shape? name with
      | none => .error (.noMatrix name) w
      | some shape => if w.isLocked name then .ok 0 w
          else .ok (drawnPositions shape.1 shape.2 isSymmetric).length
            (w.patterned name shape density color isSymmetric draw) := by
  rw [randomize, requireShape_bind_eq]
  cases w.graph.shape? name with
  | none => rfl
  | some shape =>
    dsimp only
    change (if w.isLocked name then pure 0 else _ : Run Nat) w = _
    split
    · rfl
    · next hlocked =>
      have hclear := clearMatrix_eq name w
      rw [if_neg hlocked] at hclear
      rw [patterned, mark, List.foldl_map]
      exact bind_eq_of_ok hclear

/-- Painting at random does nothing, or it clears the matrix and marks the chosen positions. -/
theorem randomize_cases (name : Text) (density : Number) (color : Option Text)
    (isSymmetric : Bool) (draw : Nat → Number) (w : Workspace) :
    left (randomize name density color isSymmetric draw) w = w ∨
      ∃ shape, w.graph.shape? name = some shape ∧ w.isLocked name = false ∧
        left (randomize name density color isSymmetric draw) w =
          w.patterned name shape density color isSymmetric draw := by
  simp only [left, randomize_eq]
  cases w.graph.shape? name with
  | none => exact .inl rfl
  | some shape =>
    cases w.isLocked name with
    | true => exact .inl rfl
    | false => exact .inr ⟨shape, rfl, rfl, rfl⟩

/-- Values painted at their positions of a matrix, those that are not zero in a colour. -/
def fillTable (w : Workspace) (name : Text) (ps : List (Nat × Nat × Number))
    (color : Option Text) : Workspace :=
  ps.foldl (fun w p => w.write name p.1 p.2.1 p.2.2
    (if p.2.2.isNonzero then color else none) (some false)) w

theorem paints_fillTable (w : Workspace) (name : Text) (ps : List (Nat × Nat × Number))
    (color : Option Text) : Paints w (w.fillTable name ps color) :=
  Graph.steps_foldl fun p _ w₁ _ => paints_write w₁ name p.1 p.2.1 p.2.2 _ _

/-- Where no value is painted nothing changes. -/
theorem lookAt_fillTable_of_notMem (hg : w.graph.IsWellFormed) (name : Text)
    {ps : List (Nat × Nat × Number)} (color : Option Text) (h : ∀ value, (i, j, value) ∉ ps)
    (other : Text) :
    (w.fillTable name ps color).graph.lookAt other i j = w.graph.lookAt other i j := by
  induction ps generalizing w with
  | nil => rfl
  | cons p ps ih =>
    obtain ⟨row, col, value⟩ := p
    have hpaints := paints_write w name row col value (if value.isNonzero then color else none)
      (some false)
    refine (ih (hpaints.edits.isWellFormed hg) fun value' hmem =>
      h value' (List.mem_cons_of_mem _ hmem)).trans ?_
    rw [lookAt_write hg]
    refine if_neg fun ⟨_, hrow, hcol, _⟩ => h value ?_
    rw [Int.natCast_inj.1 hrow, Int.natCast_inj.1 hcol]
    exact List.mem_cons_self

theorem exists_mem_positioned {rows : List (List Number)} {c : Nat}
    (hrows : ∀ row ∈ rows, row.length = c) (hi : i < rows.length) (hj : j < c) :
    ∃ value, (i, j, value) ∈ positioned rows := by
  have hmem : rows[i] ∈ rows := List.getElem_mem hi
  have hj' : j < rows[i].length := by rwa [hrows _ hmem]
  refine ⟨rows[i][j], List.mem_flatMap.2 ⟨(rows[i], i), ?_,
    List.mem_map.2 ⟨(rows[i][j], j), ?_, rfl⟩⟩⟩
  · exact List.mk_mem_zipIdx_iff_getElem?.2 (List.getElem?_eq_getElem hi)
  · exact List.mk_mem_zipIdx_iff_getElem?.2 (List.getElem?_eq_getElem hj')

theorem lt_of_mem_positioned {rows : List (List Number)} {c : Nat}
    (hrows : ∀ row ∈ rows, row.length = c) {value : Number} (h : (i, j, value) ∈ positioned rows) :
    i < rows.length ∧ j < c := by
  obtain ⟨⟨row, k⟩, hrow, hmem⟩ := List.mem_flatMap.1 h
  obtain ⟨⟨x, l⟩, hx, he⟩ := List.mem_map.1 hmem
  cases he
  rw [← hrows row (List.fst_mem_of_mem_zipIdx hrow)]
  exact ⟨List.snd_lt_of_mem_zipIdx hrow, List.snd_lt_of_mem_zipIdx hx⟩

/-- **Loading a table** stops and changes nothing, or the matrix is locked and nothing happens, or
the matrix gets the shape of the table and the values of that are painted. -/
theorem loadTable_fills (name : Text) (values : Datum) (color : Option Text) (w : Workspace) :
    (∃ e, loadTable name values color w = .error e w) ∨
    w.isLocked name = true ∧ loadTable name values color w = .ok () w ∨
    ∃ (rows : List (List Number)) (c : Nat),
      (∀ row ∈ rows, row.length = c) ∧ w.isLocked name = false ∧
      Declares w (left (resize name (.int rows.length) (.int c)) w) name (rows.length, c) ∧
      loadTable name values color w =
        .ok () ((left (resize name (.int rows.length) (.int c)) w).fillTable name (positioned rows)
          color) := by
  rw [loadTable]
  cases htable : values.table with
  | error e =>
    refine .inl ?_
    cases e <;> exact ⟨_, rfl⟩
  | ok rows =>
    let c := (rows.head?.map List.length).getD 0
    change (∃ e, (if w.isLocked name then pure () else _ : Run Unit) w = .error e w) ∨
      _ ∧ (if w.isLocked name then pure () else _ : Run Unit) w = _ ∨
      ∃ _ _, _ ∧ _ ∧ _ ∧ (if w.isLocked name then pure () else _ : Run Unit) w = _
    split
    · next hlocked => exact .inr (.inl ⟨hlocked, rfl⟩)
    next hlocked =>
    have hrows : ∀ row ∈ rows, row.length = c := by
      obtain ⟨c', hregular⟩ := Datum.exists_length_of_table htable
      intro row hrow
      obtain ⟨first, rest, rfl⟩ := List.exists_cons_of_ne_nil (List.ne_nil_of_mem hrow)
      exact (hregular row hrow).trans (hregular first List.mem_cons_self).symm
    cases hcheck : Size.check (.int rows.length) (.int c) w.sizeLimit with
    | error e =>
      have hstop : resize name (.int rows.length) (.int c) w = .error (.size e) w := by
        rw [resize]
        simp only [get_bind_eq, hcheck]
        rfl
      exact .inl ⟨.size e, bind_eq_of_error hstop⟩
    | ok shape =>
      obtain ⟨⟨-, -, hr⟩, ⟨-, -, hc⟩⟩ := Size.check_eq_ok hcheck
      simp only [Datum.int, Datum.number.injEq, Number.int.injEq, Int.natCast_inj] at hr hc
      obtain rfl : shape = (rows.length, c) := Prod.ext hr.symm hc.symm
      obtain ⟨w₁, hrun, hdeclares⟩ := exists_declares_of_check hcheck name
      refine .inr (.inr ⟨rows, c, hrows, Bool.eq_false_iff.2 hlocked, ?_, ?_⟩)
      · rwa [left_of_ok hrun]
      · rw [left_of_ok hrun]
        exact bind_eq_of_ok hrun

/-! ### The copy of the left matrix -/

/-- **Copying the left matrix** gives its look to the right one, where both have a cell. -/
theorem lookAt_syncMirror (hg : w.graph.IsWellFormed) (other : Text) (i j : Nat) :
    w.syncMirror.graph.lookAt other i j =
      if other = mirrorTarget ∧ w.graph.HasCell mirrorTarget i j ∧ w.graph.HasCell mirrorSource i j
      then w.graph.lookAt mirrorSource i j else w.graph.lookAt other i j := by
  unfold syncMirror
  split
  swap
  · next hmissing =>
    have hnone : ¬(w.graph.HasCell mirrorTarget i j ∧ w.graph.HasCell mirrorSource i j) := by
      rintro ⟨⟨_, ht, -⟩, ⟨_, hs, -⟩⟩
      simp [Graph.hasMatrix_eq, ht, hs] at hmissing
    rw [if_neg fun h => hnone h.2]
  next hboth =>
  rw [Bool.and_eq_true, Graph.hasMatrix_eq, Graph.hasMatrix_eq] at hboth
  obtain ⟨b, hb⟩ : ∃ b, w.graph.matrices[mirrorSource]? = some b := by
    rw [← Option.isSome_iff_exists, ← Option.isSome_map (f := Block.shape)]
    exact hboth.1
  let copied := b.positions.map (w.graph.entryAt mirrorSource)
  -- the cells of the left matrix are entries for its positions
  have hcopy : (w.graph.cells mirrorSource).foldl (fun w c =>
      w.update mirrorTarget c.row c.col c.value c.color (some c.isIdentity)) w =
        { w with graph := w.graph.paintEntries mirrorTarget copied } := by
    rw [← foldl_update_eq, List.foldl_map, Graph.cells, hb]
    dsimp only
    rw [Graph.ids, List.map_map, List.foldl_map]
    refine List.foldl_ext _ _ w fun w₁ p hp => ?_
    obtain ⟨hi, hj⟩ := b.mem_positions.1 hp
    obtain ⟨-, hrow, hcol⟩ := hg.toIsMinted.place hb hi hj
    have hpaint : (w.graph.cell (w.graph.idAt b p.1 p.2)).painted =
        w.graph.paintAt mirrorSource p.1 p.2 := by
      rw [Graph.paintAt, Graph.cellAt?_of_lt hb hi hj]
      rfl
    simp only [Graph.entryAt, ← hpaint, Function.comp_apply, hrow, hcol]
    rfl
  rw [hcopy]
  change (w.graph.paintEntries _ _).lookAt other i j = _
  rw [Graph.lookAt_paintEntries hg]
  by_cases htarget : other = mirrorTarget ∧ w.graph.HasCell other i j
  swap
  · have hnone : ¬(other = mirrorTarget ∧ w.graph.HasCell mirrorTarget i j ∧
        w.graph.HasCell mirrorSource i j) := by
      rintro ⟨rfl, hcell, -⟩
      exact htarget ⟨rfl, hcell⟩
    rw [if_neg htarget, if_neg hnone]
  obtain ⟨rfl, hcell⟩ := htarget
  rw [if_pos ⟨rfl, hcell⟩, Graph.lastAt?_entryAt]
  simp only [hcell, true_and, Graph.hasCell_iff hb, b.mem_positions]
  split
  · exact (Graph.lookAt_eq ..).symm
  · rfl

end Workspace

end CellLineage
