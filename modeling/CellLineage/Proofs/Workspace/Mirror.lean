import CellLineage.Proofs.Workspace.Painting
import CellLineage.Proofs.Workspace.Plan

/-!
# The right matrix as a copy of the left one

In the mirror mode the right matrix is locked, and what is painted on the left one is painted on it
too. So painting keeps it a copy at all positions that both have. Operations that change shapes do
not look at the mode: each matrix keeps its own paint where it still has cells. Then the right
matrix stays a copy just if no position is newly shared on which one of the two is painted
(`Graph.IsMirrored.iff_overlapsBlank`). A matrix that was cropped and grows again breaks that, and
so does one that is declared beside a painted one. An evaluation breaks it as well if one of the two
is the output.

## Main definitions

* `Graph.IsMirrored`: the right matrix looks like the left one where both have cells.
* `Graph.OverlapsBlank`: newly shared positions are blank on both.
* `Workspace.Follows`: the mirror mode is on and the right matrix is a copy.
* `Workspace.Operation.KeepsCopy`, `Workspace.KeepCopy`: operations that leave the mode on and share
  blank positions only, and runs of them.

## Main results

* `Workspace.Follows.apply_of_isPainting`, `Workspace.Follows.loadTable`: painting keeps the copy.
* `Workspace.overlapsBlank_recompute`: an evaluation meets it if both matrices are in their declared
  shapes.
* `Workspace.Follows.apply`: an operation that leaves the mode on keeps it under that condition.
* `Workspace.right_follows_left`: so a run of them does.
* `Workspace.right_falls_behind`: without the condition it need not.
-/

namespace CellLineage

open Formula Workspace

namespace Graph

variable {g g' : Graph}

/-- Wherever both have a cell, the right matrix looks like the left one. -/
def IsMirrored (g : Graph) : Prop :=
  ∀ i j, g.HasCell mirrorSource i j → g.HasCell mirrorTarget i j →
    g.lookAt mirrorTarget i j = g.lookAt mirrorSource i j

/-- Where the two matrices have come to overlap, nothing was painted on either. -/
def OverlapsBlank (g g' : Graph) : Prop :=
  ∀ i j, g'.HasCell mirrorSource i j → g'.HasCell mirrorTarget i j →
    g.HasCell mirrorSource i j ∧ g.HasCell mirrorTarget i j ∨
      g.lookAt mirrorSource i j = .blank ∧ g.lookAt mirrorTarget i j = .blank

/-- **A copy that is kept when shapes change.** If both matrices keep their look, the right one is
still a copy of the left one just if they have come to overlap only where nothing was painted. -/
theorem IsMirrored.iff_overlapsBlank (h : g.IsMirrored) (hsource : g.KeepsLook g' mirrorSource)
    (htarget : g.KeepsLook g' mirrorTarget) : g'.IsMirrored ↔ g.OverlapsBlank g' := by
  refine ⟨fun h' i j hs ht => ?_, fun hoverlap i j hs ht => ?_⟩
  · have hlook : g.lookAt mirrorTarget i j = g.lookAt mirrorSource i j := by
      rw [← hsource i j hs, ← htarget i j ht, h' i j hs ht]
    -- a matrix without a cell there looks blank, and so does the other one then
    by_cases hs₀ : g.HasCell mirrorSource i j
    · by_cases ht₀ : g.HasCell mirrorTarget i j
      · exact .inl ⟨hs₀, ht₀⟩
      · exact .inr ⟨hlook ▸ lookAt_of_not_hasCell ht₀, lookAt_of_not_hasCell ht₀⟩
    · exact .inr ⟨lookAt_of_not_hasCell hs₀, hlook.trans (lookAt_of_not_hasCell hs₀)⟩
  · rw [hsource i j hs, htarget i j ht]
    rcases hoverlap i j hs ht with ⟨hs, ht⟩ | ⟨hs, ht⟩
    · exact h i j hs ht
    · rw [hs, ht]

/-- Matrices that share no more rows and columns than before. -/
theorem overlapsBlank_of_le (source target source' target' : Nat × Nat)
    (hs : g.shape? mirrorSource = some source) (ht : g.shape? mirrorTarget = some target)
    (hs' : g'.shape? mirrorSource = some source') (ht' : g'.shape? mirrorTarget = some target')
    (hrows : min source'.1 target'.1 ≤ min source.1 target.1)
    (hcols : min source'.2 target'.2 ≤ min source.2 target.2) : g.OverlapsBlank g' := by
  intro i j hcell hcell'
  rw [hasCell_iff_of_shape? hs'] at hcell
  rw [hasCell_iff_of_shape? ht'] at hcell'
  rw [hasCell_iff_of_shape? hs, hasCell_iff_of_shape? ht]
  exact .inl (by omega)

end Graph

namespace Workspace

variable {w w' w₁ new : Workspace} {name : Text}

/-- The mirror mode is on, and the right matrix is a copy of the left one. -/
structure Follows (w : Workspace) : Prop where
  mirror : w.mirror.isTruthy = true
  isMirrored : w.graph.IsMirrored

/-! ### Painting -/

theorem ne_mirrorTarget_of_isLocked (hmirror : w.mirror.isTruthy = true)
    (hlocked : w.isLocked name = false) : name ≠ mirrorTarget := by
  rintro rfl
  simp [isLocked, hmirror] at hlocked

/-- In the mirror mode what reaches the left matrix reaches the right one and the other way round:
the right one is locked. -/
theorem reaches_mirrorTarget (hmirror : w.mirror.isTruthy = true)
    (hlocked : w.isLocked name = false) :
    w.Reaches name mirrorTarget ↔ w.Reaches name mirrorSource := by
  have hne := (ne_mirrorTarget_of_isLocked hmirror hlocked).symm
  have hsource : mirrorSource ≠ mirrorTarget := by decide
  simp only [Reaches, hne, hsource, false_or, and_true, and_false, or_false, isFollowed, hmirror,
    Bool.true_and, beq_iff_eq]
  exact eq_comm

/-- Writing the same at several positions of an unlocked matrix. -/
theorem isMirrored_mark (hg : w.graph.IsWellFormed) (h : w.Follows)
    (hlocked : w.isLocked name = false) (ps : List (Int × Int)) (value : Number)
    (color : Option Text) (isIdentity : Option Bool) :
    (w.mark name ps value color isIdentity).graph.IsMirrored := by
  intro i j hs ht
  have hpaints := paints_mark w name ps value color isIdentity
  rw [hasCell_of_paints hpaints] at hs ht
  rw [lookAt_mark hg, lookAt_mark hg]
  simp only [reaches_mirrorTarget h.mirror hlocked, hs, ht, and_true, h.isMirrored i j hs ht]

theorem isMirrored_cleared (hg : w.graph.IsWellFormed) (h : w.Follows)
    (hlocked : w.isLocked name = false) : (w.cleared name).graph.IsMirrored := by
  intro i j hs ht
  rw [hasCell_of_paints (paints_cleared w name)] at hs ht
  rw [lookAt_cleared hg, lookAt_cleared hg]
  simp only [reaches_mirrorTarget h.mirror hlocked, h.isMirrored i j hs ht]

theorem isMirrored_syncMirror (hg : w.graph.IsWellFormed) : w.syncMirror.graph.IsMirrored := by
  intro i j hs ht
  rw [hasCell_of_paints (paints_syncMirror w)] at hs ht
  have hne : mirrorSource ≠ mirrorTarget := by decide
  rw [lookAt_syncMirror hg, lookAt_syncMirror hg, if_pos ⟨rfl, ht, hs⟩, if_neg fun h => hne h.1]

/-- Values of a table that are written to an unlocked matrix. Where the left matrix is written, it
does not matter how the two looked before. -/
theorem lookAt_fillTable (hg : w.graph.IsWellFormed) (hmirror : w.mirror.isTruthy = true)
    (hlocked : w.isLocked name = false) {i j : Nat} (hs : w.graph.HasCell mirrorSource i j)
    (ht : w.graph.HasCell mirrorTarget i j) (ps : List (Nat × Nat × Number)) (color : Option Text)
    (h : w.graph.lookAt mirrorTarget i j = w.graph.lookAt mirrorSource i j ∨
      name = mirrorSource ∧ ∃ value, (i, j, value) ∈ ps) :
    (w.fillTable name ps color).graph.lookAt mirrorTarget i j =
      (w.fillTable name ps color).graph.lookAt mirrorSource i j := by
  induction ps generalizing w with
  | nil => exact h.resolve_right fun ⟨_, value, hmem⟩ => by cases hmem
  | cons p ps ih =>
    obtain ⟨row, col, value⟩ := p
    have hpaints := paints_write w name row col value (if value.isNonzero then color else none)
      (some false)
    refine ih (hpaints.edits.isWellFormed hg) (hpaints.mirror ▸ hmirror)
      ((isLocked_congr hpaints.mirror name).trans hlocked)
      ((hasCell_of_paints hpaints _ i j).2 hs) ((hasCell_of_paints hpaints _ i j).2 ht) ?_
    rw [lookAt_write hg, lookAt_write hg]
    simp only [reaches_mirrorTarget hmirror hlocked, hs, ht, and_true, Int.natCast_inj]
    by_cases hwritten : w.Reaches name mirrorSource ∧ row = i ∧ col = j
    · rw [if_pos hwritten, if_pos hwritten]
      exact .inl rfl
    · rw [if_neg hwritten, if_neg hwritten]
      refine h.imp id fun ⟨hname, value', hmem⟩ => ⟨hname, value', ?_⟩
      refine (List.mem_cons.1 hmem).resolve_left fun he => ?_
      cases he
      exact hwritten ⟨.inl hname.symm, rfl, rfl⟩

theorem Follows.of_paints (h : w.Follows) (hpaints : Paints w w')
    (hmirrored : w'.graph.IsMirrored) : w'.Follows :=
  ⟨hpaints.mirror ▸ h.mirror, hmirrored⟩

theorem Follows.mark (h : w.Follows) (hg : w.graph.IsWellFormed) (hlocked : w.isLocked name = false)
    (ps : List (Int × Int)) (value : Number) (color : Option Text) (isIdentity : Option Bool) :
    (w.mark name ps value color isIdentity).Follows :=
  h.of_paints (paints_mark ..) (isMirrored_mark hg h hlocked ps value color isIdentity)

/-- **Painting keeps the copy**, whatever is painted on whichever matrix. -/
theorem Follows.apply_of_isPainting (h : w.Follows) (hg : w.graph.IsWellFormed) {op : Operation}
    (hop : op.IsPainting) : (op.apply w).Follows := by
  have hpaint (name : Text) (row col : Int) (value : Number) (color : Option Text)
      (isIdentity : Option Bool) :
      (left (paint name row col value color isIdentity) w).Follows := by
    rcases paint_cases name row col value color isIdentity w with
      hrun | ⟨shape, -, hlocked, hrun⟩
    · rwa [hrun]
    · rw [hrun]
      exact h.mark hg hlocked _ value color isIdentity
  cases op with
  | paint name row col value color isIdentity => exact hpaint ..
  | toggle name row col color =>
    rw [Operation.apply]
    obtain ⟨value, color', hrun⟩ := exists_left_toggle name row col color w
    rw [hrun]
    exact hpaint ..
  | fillDiagonal name color isIdentity =>
    rw [Operation.apply]
    rcases fillDiagonal_cases name color isIdentity w with hrun | ⟨shape, -, hlocked, hrun⟩
    · rwa [hrun]
    · rw [hrun]
      exact h.mark hg hlocked _ _ color isIdentity
  | clearMatrix name =>
    rw [Operation.apply, left_of_ok (clearMatrix_eq name w)]
    split
    · exact h
    · next hlocked =>
      exact h.of_paints (paints_cleared w name)
        (isMirrored_cleared hg h (Bool.eq_false_iff.2 hlocked))
  | randomize name density color isSymmetric draw =>
    rw [Operation.apply]
    rcases randomize_cases name density color isSymmetric draw w with
      hrun | ⟨shape, -, hlocked, hrun⟩
    · rwa [hrun]
    · rw [hrun]
      have hpaints := paints_cleared w name
      have hcleared := h.of_paints hpaints (isMirrored_cleared hg h hlocked)
      exact hcleared.mark (hpaints.edits.isWellFormed hg)
        ((isLocked_congr hpaints.mirror name).trans hlocked) _ _ color _
  | syncMirror => exact h.of_paints (paints_syncMirror w) (isMirrored_syncMirror hg)
  | _ => exact hop.elim

/-! ### Shapes that change -/

theorem Follows.of_keepsLook (h : w.Follows) (hmirror : w'.mirror = w.mirror)
    (hkeeps : ∀ name, name = mirrorSource ∨ name = mirrorTarget → w.graph.KeepsLook w'.graph name)
    (hoverlap : w.graph.OverlapsBlank w'.graph) : w'.Follows :=
  ⟨hmirror ▸ h.mirror,
    (h.isMirrored.iff_overlapsBlank (hkeeps _ (.inl rfl)) (hkeeps _ (.inr rfl))).2 hoverlap⟩

/-- **Loading a table keeps the copy**, whichever matrix it is loaded into. -/
theorem Follows.loadTable (h : w.Follows) (hg : w.graph.IsWellFormed) (name : Text) (values : Datum)
    (color : Option Text) : (left (loadTable name values color) w).Follows := by
  rcases loadTable_fills name values color w with
    ⟨e, hrun⟩ | ⟨-, hrun⟩ | ⟨rows, c, hrows, hlocked, hdeclares, hrun⟩
  · rwa [left_of_error hrun]
  · rwa [left_of_ok hrun]
  rw [left_of_ok hrun]
  have hkeeps := keepsLook_resize hg name (.int rows.length) (.int c)
  have hg₁ := (editsGraph_resize name (.int rows.length) (.int c) w).isWellFormed hg
  generalize left (Workspace.resize name (.int rows.length) (.int c)) w = w₁ at *
  have hmirror : w₁.mirror = w.mirror := (congrArg Workspace.mirror hdeclares.eq).trans rfl
  have hpaints := paints_fillTable w₁ name (positioned rows) color
  refine ⟨hpaints.mirror ▸ hmirror ▸ h.mirror, fun i j hs ht => ?_⟩
  rw [hasCell_of_paints hpaints] at hs ht
  refine lookAt_fillTable hg₁ (hmirror ▸ h.mirror) ((isLocked_congr hmirror name).trans hlocked)
    hs ht (positioned rows) color ?_
  by_cases hname : name = mirrorSource
  · subst hname
    obtain ⟨hi, hj⟩ := (Graph.hasCell_iff_of_shape?
      ((hdeclares.shape?_eq mirrorSource).trans (if_pos rfl))).1 hs
    exact .inr ⟨rfl, exists_mem_positioned hrows hi hj⟩
  · -- the two matrices are as they were
    have hcell (other : Text) (hother : other ≠ name) :
        w₁.graph.HasCell other i j ↔ w.graph.HasCell other i j :=
      Graph.hasCell_congr ((hdeclares.shape?_eq other).trans (if_neg hother))
    have hne := ne_mirrorTarget_of_isLocked h.mirror hlocked
    rw [hkeeps mirrorSource i j hs, hkeeps mirrorTarget i j ht]
    exact .inl (h.isMirrored i j ((hcell _ (Ne.symm hname)).1 hs) ((hcell _ hne.symm).1 ht))

/-- The operation leaves the mirror mode on and the workspace in place, and it makes the two
matrices overlap in more places only where nothing is painted on them. Neither of them is the output
of a formula that is evaluated. -/
def Operation.KeepsCopy (w : Workspace) : Operation → Prop
  | .setMirror enabled => enabled.isTruthy = true
  | .importDocument _ => False
  | .recompute => w.graph.OverlapsBlank (left Workspace.recompute w).graph ∧
      matrixName? w.output ≠ some mirrorSource ∧ matrixName? w.output ≠ some mirrorTarget
  | .setFormula formula => w.graph.OverlapsBlank (left (Workspace.setFormula formula) w).graph
  | .declare name rows? cols? =>
    w.graph.OverlapsBlank (left (Workspace.declare name rows? cols?) w).graph
  | .resize name rows cols => w.graph.OverlapsBlank (left (Workspace.resize name rows cols) w).graph
  | _ => True

/-- Each of the operations keeps the copy when its turn comes. -/
def KeepCopy : Workspace → List Operation → Prop
  | _, [] => True
  | w, op :: ops => op.KeepsCopy w ∧ KeepCopy (op.apply w) ops

theorem follows_setMirror (hg : w.graph.IsWellFormed) {enabled : Datum}
    (h : enabled.isTruthy = true) : (w.setMirror enabled).Follows := by
  refine ⟨(paints_setMirror enabled w).mirror ▸ h, ?_⟩
  rw [setMirror, if_pos h]
  exact isMirrored_syncMirror (w := { w with mirror := enabled }) hg

/-- The names of the two matrices are neither generated nor those of members of sequences. -/
theorem notMem_of_mirror {name : Text} (h : name = mirrorSource ∨ name = mirrorTarget) :
    name ∉ generatedNames ∧ name ∉ Graph.memberNames := by
  have hlast : name.symbols.getLast? = some (.char 't') := by
    rcases h with rfl | rfl <;> rfl
  refine ⟨IsPublic.notMem_generatedNames ?_,
    Graph.notMem_memberNames hlast (by decide) (by decide)⟩
  rcases h with rfl | rfl <;> decide

/-- A matrix that is declared, and in the graph in its declared shape, gets no new cells when the
formula is evaluated. -/
theorem hasCell_of_recompute {formula : Text} (hread : Plan.read formula = .ok w.plan)
    (hg : w.graph.IsWellFormed) {shape : Nat × Nat} (hlookup : w.shapes.lookup name = some shape)
    (hshape : w.graph.shape? name = some shape) (hgenerated : name ∉ generatedNames)
    (hmember : name ∉ Graph.memberNames) (hout : matrixName? w.output ≠ some name) {i j : Nat}
    (hcell : (left Workspace.recompute w).graph.HasCell name i j) : w.graph.HasCell name i j := by
  rcases recompute_remakes hread hg hgenerated hmember hout with
    hsame | ⟨config, hconfig, hpainted⟩ | hnone
  · rwa [hsame] at hcell
  · have hsame := hpainted.shape?_eq
    rw [Graph.inputShape, (of_config hconfig).1, hlookup, Option.getD_some, ← hshape] at hsame
    exact (Graph.hasCell_congr hsame).1 hcell
  · exact absurd hcell (Graph.not_hasCell_of_shape? hnone)

/-- **An evaluation shares no new positions** if both matrices are in their declared shapes. -/
theorem overlapsBlank_recompute {formula : Text} (hread : Plan.read formula = .ok w.plan)
    (hg : w.graph.IsWellFormed) (hsource : matrixName? w.output ≠ some mirrorSource)
    (htarget : matrixName? w.output ≠ some mirrorTarget)
    (hshapes : ∀ name, name = mirrorSource ∨ name = mirrorTarget →
      ∃ shape, w.shapes.lookup name = some shape ∧ w.graph.shape? name = some shape) :
    w.graph.OverlapsBlank (left Workspace.recompute w).graph := by
  intro i j hs ht
  have hcell (name : Text) (h : name = mirrorSource ∨ name = mirrorTarget)
      (hout : matrixName? w.output ≠ some name)
      (hcell : (left Workspace.recompute w).graph.HasCell name i j) :
      w.graph.HasCell name i j := by
    obtain ⟨shape, hlookup, hshape⟩ := hshapes name h
    obtain ⟨hgenerated, hmember⟩ := notMem_of_mirror h
    exact hasCell_of_recompute hread hg hlookup hshape hgenerated hmember hout hcell
  exact .inl ⟨hcell _ (.inl rfl) hsource hs, hcell _ (.inr rfl) htarget ht⟩

/-- **One operation keeps the copy**, whether it stops part-way or not. -/
theorem Follows.apply (h : w.Follows) (hg : w.graph.IsWellFormed) (hplan : w.HasPlan)
    {op : Operation} (hop : op.KeepsCopy w) : (op.apply w).Follows := by
  by_cases hpainting : op.IsPainting
  · exact h.apply_of_isPainting hg hpainting
  cases op with
  | setFormula formula =>
    have hsame := left_setFormula_eq formula w
    exact h.of_keepsLook ((congrArg Workspace.mirror hsame).trans rfl)
      (fun name _ => (sameLook_setFormula hg formula).keepsLook name) hop
  | declare name rows? cols? =>
    have hsame := sameSettings_declare name rows? cols? w
    exact h.of_keepsLook ((congrArg Workspace.mirror hsame).trans rfl)
      (fun other _ => (sameLook_declare hg name rows? cols?).keepsLook other) hop
  | resize name rows cols =>
    refine h.of_keepsLook ?_ (fun other _ => keepsLook_resize hg name rows cols other) hop
    rcases declares_resize name rows cols w with hrun | ⟨shape, hrun⟩
    · rw [Operation.apply, hrun]
    · exact (congrArg Workspace.mirror hrun.eq).trans rfl
  | loadTable name values color => exact h.loadTable hg name values color
  | setMirror enabled => exact follows_setMirror hg hop
  | recompute =>
    obtain ⟨text, hread⟩ := hplan.exists_read
    obtain ⟨hoverlap, hsource, htarget⟩ := hop
    refine h.of_keepsLook ?_ (fun other hother => ?_) hoverlap
    · rw [Operation.apply]
      rcases recompute_cases w with ⟨e, -, hrun⟩ | ⟨config, last?, -, hrun⟩
      · rw [hrun]
      · rw [hrun]
    · obtain ⟨hgenerated, hmember⟩ := notMem_of_mirror hother
      refine keepsLook_recompute hread hg hgenerated hmember ?_
      rcases hother with rfl | rfl
      · exact hsource
      · exact htarget
  | importDocument source => exact hop.elim
  | _ => exact absurd trivial hpainting

/-- Nothing is painted on a new workspace. -/
theorem follows_of_make {s : Settings} (hmake : make s = .ok new)
    (hmirror : s.mirror.isTruthy = true) : new.Follows := by
  have hsame := left_setFormula_eq s.formula (blank s)
  have hlook := sameLook_setFormula (w := blank s) (Graph.isWellFormed_empty stem) s.formula
  rw [left_setFormula_of_make hmake] at hsame hlook
  refine ⟨(congrArg (fun w => w.mirror.isTruthy) hsame).trans hmirror, fun i j _ _ => ?_⟩
  rw [hlook, hlook]
  rfl

/-- **The right matrix is a copy of the left one** from the time on that the workspace is made with
the mirror mode on, or the mode is turned on, through each run of operations that leave it on, of
any length and with any arguments, whether they stop part-way or not, as long as the two matrices
come to overlap only where nothing is painted on them, and neither becomes the output. -/
theorem right_follows_left {ops : List Operation}
    (hstart : (∃ s, make s = .ok new ∧ s.mirror.isTruthy = true) ∨
      ∃ w enabled, IsReachable w ∧ enabled.isTruthy = true ∧ new = w.setMirror enabled)
    (hops : KeepCopy new ops) : (runAll new ops).Follows := by
  have hnew : new.IsReachable ∧ new.Follows := by
    rcases hstart with ⟨s, hmake, hmirror⟩ | ⟨w, enabled, hreachable, henabled, rfl⟩
    · exact ⟨⟨s, new, [], hmake, rfl⟩, follows_of_make hmake hmirror⟩
    · exact ⟨hreachable.apply (.setMirror enabled),
        follows_setMirror hreachable.isWellFormed henabled⟩
  obtain ⟨hreachable, hfollows⟩ := hnew
  clear hstart
  induction ops generalizing new with
  | nil => exact hfollows
  | cons op ops ih =>
    refine ih hops.2 (hreachable.apply op) ?_
    exact hfollows.apply hreachable.isWellFormed hreachable.hasPlan hops.1

/-- A workspace for the product of the two matrices, in the mirror mode. -/
def mirroredSettings : Settings where
  formula := .text "S_left*S_right"
  rows := .int 2
  cols := .int 2
  mirror := .bool true

theorem make_mirroredSettings :
    make mirroredSettings =
      .ok (left (setFormula mirroredSettings.formula) (blank mirroredSettings)) :=
  make_of_isSome (by decide +kernel)

/-- In the sample the left matrix is painted, the right one is cropped, and the product is computed;
what is painted on the right one is not taken. -/
theorem right_follows_left_sample : ∃ new, make mirroredSettings = .ok new ∧
    let w := runAll new [.paint mirrorSource 0 0 (.int 3) none none,
      .paint mirrorTarget 0 0 (.int 5) none none, .resize mirrorTarget (.int 1) (.int 2),
      .resize mirrorSource (.int 4) (.int 2), .recompute]
    w.Follows ∧ w.graph.shape? mirrorTarget = some (1, 2) ∧
      (w.graph.lookAt mirrorTarget 0 0).value.toInt = 3 := by
  let new := left (setFormula mirroredSettings.formula) (blank mirroredSettings)
  refine ⟨new, make_mirroredSettings, ?_, by decide +kernel⟩
  refine right_follows_left (.inl ⟨_, make_mirroredSettings, by decide⟩)
    ⟨trivial, trivial, ?_, ?_, ⟨?_, by decide +kernel, by decide +kernel⟩, trivial⟩
  · exact Graph.overlapsBlank_of_le (2, 2) (2, 2) (2, 2) (1, 2) (by decide +kernel)
      (by decide +kernel) (by decide +kernel) (by decide +kernel) (by decide) (by decide)
  · exact Graph.overlapsBlank_of_le (2, 2) (1, 2) (4, 2) (1, 2) (by decide +kernel)
      (by decide +kernel) (by decide +kernel) (by decide +kernel) (by decide) (by decide)
  · let ops : List Operation := [.paint mirrorSource 0 0 (.int 3) none none,
      .paint mirrorTarget 0 0 (.int 5) none none, .resize mirrorTarget (.int 1) (.int 2),
      .resize mirrorSource (.int 4) (.int 2)]
    have hreachable : (runAll new ops).IsReachable := ⟨_, new, ops, make_mirroredSettings, rfl⟩
    have hread : Plan.read "S_left*S_right" = .ok (runAll new ops).plan := by decide +kernel
    refine overlapsBlank_recompute hread hreachable.isWellFormed (by decide +kernel)
      (by decide +kernel) fun name h => ?_
    rcases h with rfl | rfl
    · exact ⟨(4, 2), by decide +kernel, by decide +kernel⟩
    · exact ⟨(1, 2), by decide +kernel, by decide +kernel⟩

/-- **The right matrix may fall behind.** One that is cropped and grows again has blank cells where
the left one is painted. -/
theorem right_falls_behind : ∃ new, make mirroredSettings = .ok new ∧
    let w := runAll new [.paint mirrorSource 1 1 (.int 1) none none,
      .resize mirrorTarget (.int 1) (.int 1), .resize mirrorTarget (.int 2) (.int 2)]
    w.mirror.isTruthy = true ∧ w.graph.HasCell mirrorSource 1 1 ∧ w.graph.HasCell mirrorTarget 1 1 ∧
      (w.graph.lookAt mirrorSource 1 1).value.toInt = 1 ∧
      (w.graph.lookAt mirrorTarget 1 1).value.toInt = 0 :=
  ⟨_, make_mirroredSettings, by decide +kernel⟩

end Workspace

end CellLineage
