import CellLineage.Proofs.Recompute.Isolation
import CellLineage.Proofs.Workspace.Entered

/-!
# The look of cells

Of a cell its value, its colour and its identity mark are seen. At a position where a matrix has no
cell a blank one is imagined. So two workspaces can be compared at every position, and three kinds
of change are told apart: painting a cell gives it a new look and leaves all others alone, declaring
a matrix changes no look at all, and resizing a matrix or evaluating the formula keeps the look of
the cells that are still there, as long as the matrix is not what is computed.

A document shows cells as well. It may hold several entries for a position, the last of which
counts.

## Main definitions

* `Look`, `Graph.lookAt`: what is seen of a cell.
* `Graph.HasCell`: the positions at which a matrix has one.
* `Document.lastAt?`: the entry of a document that counts for a position.
* `Graph.KeepsLook`, `Workspace.SameLook`: cells look as before.

## Main results

* `Graph.lookAt_update`, `Graph.lookAt_wipe`: the looks after painting a cell and after taking all
  paint off a matrix.
* `Graph.lookAt_paintEntries`: the looks after painting the entries of a document.
* `Workspace.sameLook_declare`, `Workspace.sameLook_setFormula`: what changes no look.
* `Workspace.recompute_remakes`: what an evaluation makes of a matrix that it does not compute.
* `Workspace.keepsLook_resize`, `Workspace.keepsLook_recompute`: what keeps the look of the cells
  that are still there.
-/

namespace CellLineage

/-- What is seen of a cell: its value, its colour and its identity mark. -/
structure Look where
  value : Number
  color : Option Text
  isIdentity : Bool

namespace Look

/-- The look of a cell on which nothing is painted, and of a place where there is no cell. -/
def blank : Look :=
  ⟨.int 0, none, false⟩

/-- The look of a cell after painting it; the identity mark stays as it is if none is given. -/
def painted (l : Look) (value : Number) (color : Option Text) (isIdentity : Option Bool) : Look :=
  ⟨value, color, isIdentity.getD l.isIdentity⟩

@[simp] theorem painted_painted (l : Look) (value : Number) (color : Option Text)
    (isIdentity : Option Bool) :
    (l.painted value color isIdentity).painted value color isIdentity =
      l.painted value color isIdentity := by
  cases isIdentity <;> rfl

end Look

/-- What an entry of a document shows. -/
def Document.Entry.look (e : Document.Entry) : Look :=
  ⟨e.value, e.color, e.isIdentity⟩

/-- The last entry for a position, which is the one that counts. -/
def Document.lastAt? (entries : List Document.Entry) (i j : Nat) : Option Document.Entry :=
  (entries.filter fun e => e.row = i ∧ e.col = j).getLast?

theorem Document.lastAt?_append_singleton (entries : List Document.Entry) (e : Document.Entry)
    (i j : Nat) : lastAt? (entries ++ [e]) i j =
      if e.row = i ∧ e.col = j then some e else lastAt? entries i j := by
  rw [lastAt?, List.filter_append]
  by_cases he : e.row = i ∧ e.col = j
  · simp [he]
  · simp [he, lastAt?]

theorem Document.lastAt?_eq_none {entries : List Document.Entry} {i j : Nat}
    (h : ∀ e ∈ entries, ¬(e.row = i ∧ e.col = j)) : lastAt? entries i j = none := by
  rw [lastAt?, List.getLast?_eq_none_iff, List.filter_eq_nil_iff]
  simpa using h

/-- What is seen of a cell. -/
def Cell.look (c : Cell) : Look :=
  ⟨c.value, c.color, c.isIdentity⟩

open Formula

namespace Graph

variable {g g' : Graph} {name other : Text} {b : Block} {i j : Nat}

/-- The look of the cell at a position of a matrix. -/
def lookAt (g : Graph) (name : Text) (i j : Nat) : Look :=
  ((g.cellAt? name i j).map Cell.look).getD .blank

/-- The matrix has a cell at the position. -/
def HasCell (g : Graph) (name : Text) (i j : Nat) : Prop :=
  ∃ shape, g.shape? name = some shape ∧ i < shape.1 ∧ j < shape.2

theorem hasCell_iff (hb : g.matrices[name]? = some b) :
    g.HasCell name i j ↔ i < b.rows ∧ j < b.cols := by
  simp [HasCell, shape?, hb, Block.shape]

theorem hasCell_iff_of_shape? {shape : Nat × Nat} (hs : g.shape? name = some shape) :
    g.HasCell name i j ↔ i < shape.1 ∧ j < shape.2 := by
  simp [HasCell, hs]

instance (g : Graph) (name : Text) (i j : Nat) : Decidable (g.HasCell name i j) :=
  match h : g.shape? name with
  | some _ => decidable_of_iff _ (hasCell_iff_of_shape? h).symm
  | none => isFalse fun ⟨_, hshape, _⟩ => nomatch h.symm.trans hshape

theorem not_hasCell_of_shape? (hs : g.shape? name = none) : ¬g.HasCell name i j := by
  rintro ⟨shape, hshape, -⟩
  cases hs.symm.trans hshape

theorem hasCell_congr (h : g'.shape? name = g.shape? name) :
    g'.HasCell name i j ↔ g.HasCell name i j := by
  rw [HasCell, h, HasCell]

theorem lookAt_of_not_hasCell (h : ¬g.HasCell name i j) : g.lookAt name i j = .blank := by
  rw [lookAt]
  cases hb : g.matrices[name]? with
  | none =>
    rw [cellAt?_of_missing hb]
    rfl
  | some b =>
    rw [hasCell_iff hb] at h
    rw [cellAt?_of_not_lt hb h]
    rfl

theorem lookAt_of_lt (hb : g.matrices[name]? = some b) (hi : i < b.rows) (hj : j < b.cols) :
    g.lookAt name i j = (g.cell (g.idAt b i j)).look := by
  rw [lookAt, cellAt?_of_lt hb hi hj]
  rfl

/-- The look of a cell is part of what is painted on it. -/
theorem lookAt_eq (g : Graph) (name : Text) (i j : Nat) : g.lookAt name i j =
    ⟨(g.paintAt name i j).value, (g.paintAt name i j).color, (g.paintAt name i j).isIdentity⟩ := by
  rw [lookAt, paintAt]
  cases g.cellAt? name i j <;> rfl

theorem lookAt_congr (h : g'.paintAt name i j = g.paintAt name i j) :
    g'.lookAt name i j = g.lookAt name i j := by
  rw [lookAt_eq, h, lookAt_eq]

theorem Keeps.lookAt_eq (h : g.Keeps g' name) : g'.lookAt name i j = g.lookAt name i j :=
  lookAt_congr h.paintAt_eq

theorem IsUnpainted.lookAt_eq (h : g.IsUnpainted) (name : Text) (i j : Nat) :
    g.lookAt name i j = .blank := by
  rw [Graph.lookAt_eq, h]
  rfl

/-! ### Painting -/

/-- A matrix on which cells are painted is the only one that changes. -/
theorem Fills.keeps (hg : g.IsWellFormed) (hb : g.matrices[name]? = some b)
    (h : Fills (g.idSet b) ∅ g g') (hne : other ≠ name) : g.Keeps g' other :=
  (h.rewrites hg).keeps hg.toIsMinted hb hne

theorem sameTables_update (g : Graph) (name : Text) (row col : Int) (value : Number)
    (color : Option Text) (isIdentity : Option Bool) :
    g.SameTables (g.update name row col value color isIdentity none) := by
  rw [update, update?]
  cases g.idAt? name row col with
  | none => exact .refl g
  | some id => exact sameTables_modify g id _

/-- **Painting a cell** changes its look and that of no other one. -/
theorem lookAt_update (hg : g.IsWellFormed) (name : Text) (row col : Int) (value : Number)
    (color : Option Text) (isIdentity : Option Bool) (other : Text) (i j : Nat) :
    (g.update name row col value color isIdentity none).lookAt other i j =
      if other = name ∧ row = i ∧ col = j ∧ g.HasCell other i j then
        (g.lookAt other i j).painted value color isIdentity
      else g.lookAt other i j := by
  have hcell : (g.update name row col value color isIdentity none).HasCell other i j ↔
      g.HasCell other i j :=
    hasCell_congr (congrArg (fun m => m[other]?.map Block.shape)
      (sameTables_update g name row col value color isIdentity).matrices)
  by_cases hij : g.HasCell other i j
  swap
  · rw [if_neg fun h => hij h.2.2.2, lookAt_of_not_hasCell (mt hcell.1 hij),
      lookAt_of_not_hasCell hij]
  cases hb : g.matrices[name]? with
  | none =>
    rw [update, update?, idAt?_of_missing hb, Option.map_none, Option.getD_none, if_neg]
    rintro ⟨rfl, -⟩
    exact not_hasCell_of_shape? (congrArg (Option.map Block.shape) hb) hij
  | some b =>
    by_cases hname : other = name
    swap
    · rw [if_neg fun h => hname h.1]
      exact (Fills.keeps hg hb (fills_update ∅ g name row col value color isIdentity none hb)
        hname).lookAt_eq
    subst hname
    obtain ⟨hi, hj⟩ := (hasCell_iff hb).1 hij
    rw [update, update?, idAt?, hb]
    dsimp only
    by_cases hin : 0 ≤ row ∧ row < b.rows ∧ 0 ≤ col ∧ col < b.cols
    · have hid : g.idAt b i j = g.idAt b row.toNat col.toNat ↔ row = i ∧ col = j := by
        rw [idAt_inj hj (by omega)]
        omega
      rw [if_pos hin, Option.map_some, Option.getD_some]
      rw [lookAt_of_lt (g := g.modify _ _) hb hi hj, lookAt_of_lt hb hi hj]
      change ((g.modify (g.idAt b row.toNat col.toNat) _).cell (g.idAt b i j)).look = _
      rw [cell_modify]
      by_cases hp : row = i ∧ col = j
      · rw [if_pos ⟨hid.2 hp, hid.2 hp ▸ hg.idAt_mem hb hi hj⟩, if_pos ⟨rfl, hp.1, hp.2, hij⟩]
        rfl
      · rw [if_neg fun h => hp (hid.1 h.1), if_neg fun h => hp ⟨h.2.1, h.2.2.1⟩]
    · rw [if_neg hin, Option.map_none, Option.getD_none, if_neg fun h => by omega]

/-- **Taking all paint off a matrix** blanks its cells and no others. -/
theorem lookAt_wipe (hg : g.IsWellFormed) (name other : Text) (i j : Nat) :
    (g.wipe name).lookAt other i j = if other = name then .blank else g.lookAt other i j := by
  cases hb : g.matrices[name]? with
  | none =>
    have hnone : g.shape? name = none := congrArg (Option.map Block.shape) hb
    rw [wipe, hb]
    by_cases hname : other = name
    · rw [if_pos hname, hname, lookAt_of_not_hasCell (not_hasCell_of_shape? hnone)]
    · rw [if_neg hname]
  | some b =>
    have hfills := fills_wipe ∅ hb
    by_cases hname : other = name
    swap
    · rw [if_neg hname, (Fills.keeps hg hb hfills hname).lookAt_eq]
    subst hname
    rw [if_pos rfl]
    have htables := Fills.sameTables hfills
    have hb' : (g.wipe other).matrices[other]? = some b := by rw [htables.matrices, hb]
    by_cases hij : i < b.rows ∧ j < b.cols
    · have hids : (g.ids b).Nodup := List.pairwise_map.2 (g.pairwise_idAt b)
      have hmem : g.idAt b i j ∈ g.ids b := List.mem_map.2 ⟨(i, j), b.mem_positions.2 hij, rfl⟩
      have hcell : (g.wipe other).cell (g.idAt b i j) = wipeCell (g.cell (g.idAt b i j)) := by
        rw [wipe, hb]
        exact (cell_foldl_modify hids wipeCell).trans
          (if_pos ⟨hmem, hg.idAt_mem hb hij.1 hij.2⟩)
      rw [lookAt_of_lt hb' hij.1 hij.2, htables.idAt_eq, hcell]
      rfl
    · exact lookAt_of_not_hasCell (mt (hasCell_iff hb').1 hij)

theorem isWellFormed_update (hg : g.IsWellFormed) (name : Text) (row col : Int) (value : Number)
    (color : Option Text) (isIdentity : Option Bool) :
    (g.update name row col value color isIdentity none).IsWellFormed := by
  cases hb : g.matrices[name]? with
  | none => rwa [update, update?, idAt?_of_missing hb, Option.map_none, Option.getD_none]
  | some b =>
    exact (fills_update ∅ g name row col value color isIdentity none hb).edits.isWellFormed hg

theorem isWellFormed_paintEntries (hg : g.IsWellFormed) (name : Text)
    (entries : List Document.Entry) : (g.paintEntries name entries).IsWellFormed := by
  rw [paintEntries]
  exact List.foldlRecOn entries _ hg fun g₁ h₁ e _ => isWellFormed_update h₁ name _ _ _ _ _

theorem sameTables_paintEntries (g : Graph) (name : Text) (entries : List Document.Entry) :
    g.SameTables (g.paintEntries name entries) := by
  rw [paintEntries]
  exact .foldl (fun g e => sameTables_update g name e.row e.col e.value e.color (some e.isIdentity))
    entries g

/-- **Painting the entries of a document** on a matrix: at every position the last one counts. -/
theorem lookAt_paintEntries (hg : g.IsWellFormed) (name : Text) (entries : List Document.Entry)
    (other : Text) (i j : Nat) :
    (g.paintEntries name entries).lookAt other i j =
      if other = name ∧ g.HasCell other i j then
        ((Document.lastAt? entries i j).map Document.Entry.look).getD (g.lookAt other i j)
      else g.lookAt other i j := by
  induction entries using List.reverseRecOn with
  | nil => exact (ite_self _).symm
  | append_singleton entries e ih =>
    have hcell : (g.paintEntries name entries).HasCell other i j ↔ g.HasCell other i j :=
      hasCell_congr (congrArg (fun m => m[other]?.map Block.shape)
        (sameTables_paintEntries g name entries).matrices)
    have hlast : g.paintEntries name (entries ++ [e]) =
        (g.paintEntries name entries).update name e.row e.col e.value e.color (some e.isIdentity)
          none := List.foldl_concat ..
    rw [hlast, lookAt_update (isWellFormed_paintEntries hg name entries), ih,
      Document.lastAt?_append_singleton]
    simp only [hcell, Int.natCast_inj]
    by_cases he : e.row = i ∧ e.col = j
    · by_cases hall : other = name ∧ g.HasCell other i j
      · obtain ⟨rfl, hij⟩ := hall
        simp [he, hij, Look.painted, Document.Entry.look]
      · rw [if_neg fun h => hall ⟨h.1, h.2.2.2⟩, if_neg hall, if_neg hall]
    · rw [if_neg fun h => he ⟨h.2.1, h.2.2.1⟩, if_neg he]

/-- The entry that counts for a position, where every position has at most one. -/
theorem lastAt?_entryAt (g : Graph) (name : Text) (ps : List (Nat × Nat)) (i j : Nat) :
    Document.lastAt? (ps.map (g.entryAt name)) i j =
      if (i, j) ∈ ps then some (g.entryAt name (i, j)) else none := by
  induction ps using List.reverseRecOn with
  | nil => rfl
  | append_singleton ps p ih =>
    obtain ⟨row, col⟩ := p
    rw [List.map_append, List.map_singleton, Document.lastAt?_append_singleton, ih]
    by_cases hp : row = i ∧ col = j
    · obtain ⟨rfl, rfl⟩ := hp
      simp [entryAt]
    · have hne : ¬(i, j) = (row, col) := fun he => by
        cases he
        exact hp ⟨rfl, rfl⟩
      simp only [entryAt, hp, if_false, List.mem_append, List.mem_singleton, hne, or_false]

/-! ### Making matrices -/

/-- A fresh matrix is blank, and no other one changes. -/
theorem lookAt_addMatrix (hg : g.IsWellFormed) (name : Text) {rows cols : Nat} (hr : 0 < rows)
    (hc : 0 < cols) (other : Text) (i j : Nat) :
    (g.addMatrix name rows cols hr hc).lookAt other i j =
      if other = name then .blank else g.lookAt other i j := by
  have hprepared := prepared_addMatrix hg name hr hc
  by_cases hname : other = name
  · subst hname
    rw [if_pos rfl]
    by_cases hij : i < rows ∧ j < cols
    · have hcore : (g.addMatrix other rows cols hr hc).coreAt (g.nextBlock rows cols hr hc) i j =
          .blank (g.idAt (g.nextBlock rows cols hr hc) i j) other i j :=
        coreAt_addMatrix hij.1 hij.2
      rw [lookAt_of_lt hprepared.matrices hij.1 hij.2]
      exact congrArg Cell.look hcore
    · exact lookAt_of_not_hasCell (mt (hasCell_iff hprepared.matrices).1 hij)
  · rw [if_neg hname, (hprepared.keeps other hname).lookAt_eq]

/-- Every cell of the matrix looks as before, and a new one as if nothing were painted on it. -/
def KeepsLook (g g' : Graph) (name : Text) : Prop :=
  ∀ i j, g'.HasCell name i j → g'.lookAt name i j = g.lookAt name i j

theorem KeepsLook.refl (g : Graph) (name : Text) : g.KeepsLook g name :=
  fun _ _ _ => rfl

theorem Keeps.keepsLook (h : g.Keeps g' name) : g.KeepsLook g' name :=
  fun _ _ _ => h.lookAt_eq

theorem PaintedFrom.shape?_eq {shape : Nat × Nat} (h : g.PaintedFrom g' name shape) :
    g'.shape? name = some shape := by
  obtain ⟨b, hb, rfl, -⟩ := h
  exact congrArg (Option.map Block.shape) hb

theorem PaintedFrom.keepsLook {shape : Nat × Nat} (h : g.PaintedFrom g' name shape) :
    g.KeepsLook g' name := by
  intro i j hij
  obtain ⟨hi, hj⟩ := (hasCell_iff_of_shape? h.shape?_eq).1 hij
  exact lookAt_congr (h.paintAt_eq hi hj)

/-- **A matrix that is put back** in another shape keeps the look of its cells. -/
theorem exists_restore (hg : g.IsWellFormed) {s : Snapshot} (hs : g.snapshot? name = some s)
    {rows cols : Nat} (hr : 0 < rows) (hc : 0 < cols) :
    ∃ g', g.restore s rows cols = .ok g' ∧ ∀ other, g.KeepsLook g' other := by
  obtain ⟨g', hrun, hrestores⟩ := restore_spec hg.toIsMinted hg hs hr hc
  refine ⟨g', hrun, fun other => ?_⟩
  by_cases hname : other = name
  · exact hname ▸ hrestores.paintedFrom.keepsLook
  · have hmakes := (makes_restore hrun).writesOnly hg
    rw [name_of_snapshot? hs] at hmakes
    exact (hmakes.keeps other hname).keepsLook

/-! ### Evaluating -/

variable {plan : Plan} {config : Config} {names : List Text}

/-- The names of members of sequences. -/
def memberNames : Set Text :=
  {name | ∃ base index, name = memberName base index}

/-- The name of a member ends in a number. -/
theorem notMem_memberNames {c : Char} (hlast : name.symbols.getLast? = some (.char c))
    (hdigit : c.isDigit = false) (hc : c ≠ '-' ∧ c ≠ '_') : name ∉ memberNames := by
  rintro ⟨base, index, rfl⟩
  have hsymbols : (memberName base index).symbols =
      base.symbols ++ (.char '_' :: (toString index : Text).symbols) := by
    simp [memberName, symbols_ofString]
  have hmem : Symbol.char c ∈ Symbol.char '_' :: (toString index : Text).symbols := by
    rw [hsymbols, List.getLast?_append_of_ne_nil _ (List.cons_ne_nil _ _)] at hlast
    exact List.mem_of_getLast? hlast
  rcases List.mem_cons.1 hmem with he | hmem
  · exact hc.2 (Symbol.char.inj he)
  · exact notMem_toString hdigit hc.1 hmem

/-- **Evaluating a plan that was read** writes matrices of generated names and members of sequences
only. -/
theorem writes_evaluatePlan_of_read {formula : Text} (hread : Plan.read formula = .ok plan)
    (config : Config) (g : Graph) :
    Writes (generatedNames ∪ memberNames) g (after (evaluatePlan config plan) g) := by
  cases plan with
  | simple p =>
    rw [evaluatePlan]
    cases p.product? with
    | none => exact steps_bind (steps_pure _) fun _ _ _ => steps_pure _
    | some p =>
      exact steps_bind ((writes_evaluate p 0 g).mono Set.subset_union_left) fun _ _ _ =>
        steps_pure _
  | iterative p =>
    have htargets : ∀ s ∈ p.baseCases, s.target.name ∈ generatedNames ∪ memberNames := by
      intro s hs
      have hnumber := IterativePlan.isPreserved_isNumber.of_read
        (fun _ hs => absurd hs List.not_mem_nil) (Plan.iterative_of_read hread) s hs
      rw [Reference.name]
      cases hsub : s.target.subscript with
      | number k => exact .inr ⟨_, k, rfl⟩
      | absent | current | next | label _ =>
        rw [hsub] at hnumber
        cases hnumber
    have hmembers (base : Text) (index : Int) :
        membersFrom base index ⊆ generatedNames ∪ memberNames := by
      rintro _ ⟨k, -, rfl⟩
      exact .inr ⟨base, k, rfl⟩
    refine steps_bind ?_ fun _ _ _ => steps_pure _
    rw [runStatements_eq]
    refine steps_bind (writes_runBaseCases _ g Set.subset_union_left htargets)
      fun progress g₁ _ => ?_
    exact writes_applyRecurrence config progress Set.subset_union_left fun _ _ index _ =>
      hmembers _ index

/-- **A recompute** makes a matrix that it reads anew, as it was painted, and drops one that it does
not, unless that is the output, has a generated name or is a member of a sequence. -/
theorem recompute_remakes {formula : Text} (hread : Plan.read formula = .ok plan)
    (hconfig : config.HasCells) (hg : g.IsWellFormed)
    (hobstacle : plan.obstacle? config.output = none) (hnames : inputNames plan config = .ok names)
    (hgenerated : name ∉ generatedNames) (hmember : name ∉ memberNames)
    (hout : name ≠ config.output) :
    (name ∈ names → g.PaintedFrom (after (recompute plan config) g) name
      (g.inputShape config name)) ∧
    (name ∉ names → (after (recompute plan config) g).matrices[name]? = none) := by
  obtain ⟨g₀, hrebuild, hwf, -, hothers, hpainted⟩ :=
    rebuild_spec hconfig hg.toIsMinted (nodup_of_inputNames hnames)
  have hafter : after (recompute plan config) g =
      after (runPlan config (g.shape? config.output) plan) g₀ := by
    simp only [after, recompute_eq hobstacle hnames hrebuild]
  have hrun : Writes (generatedNames ∪ memberNames ∪ {config.output}) g₀
      (after (recompute plan config) g) := by
    rw [hafter]
    exact writes_runPlan ((writes_evaluatePlan_of_read hread config g₀).mono
      Set.subset_union_left) (.inr rfl)
  have hkeeps : g₀.Keeps (after (recompute plan config) g) name :=
    hrun.keeps hwf fun h => h.elim (fun h => h.elim hgenerated hmember) hout
  exact ⟨fun hname => (hpainted name hname).of_keeps hkeeps, fun hname =>
    hkeeps.matrices.trans (hothers name hname)⟩

end Graph

namespace Workspace

variable {w w' w₁ : Workspace} {name other : Text} {i j : Nat}

/-! ### Declaring and resizing -/

/-- Cells look the same in both workspaces, whatever they are. -/
def SameLook (w w' : Workspace) : Prop :=
  ∀ name i j, w'.graph.lookAt name i j = w.graph.lookAt name i j

theorem SameLook.trans (h : SameLook w w₁) (h' : SameLook w₁ w') : SameLook w w' :=
  fun name i j => (h' name i j).trans (h name i j)

theorem SameLook.keepsLook (h : SameLook w w') (name : Text) :
    w.graph.KeepsLook w'.graph name :=
  fun i j _ => h name i j

/-- A matrix that is made where there was none changes no look: it is blank. -/
theorem sameLook_initMatrix (hg : w.graph.IsWellFormed) {shape : Nat × Nat}
    (hshape : 1 ≤ shape.1 ∧ 1 ≤ shape.2) (hnone : w.graph.shape? name = none) :
    SameLook w (left (initMatrix name shape) w) := by
  intro other i j
  rw [initMatrix, left_of_ok (liftGraph_of_ok (fun g => g.initMatrix name shape.1 shape.2)
    (Graph.initMatrix_eq_ok hshape.1 hshape.2))]
  change (w.graph.addMatrix name _ _ hshape.1 hshape.2).lookAt other i j = _
  rw [Graph.lookAt_addMatrix hg]
  split
  · next he =>
    subst he
    exact (Graph.lookAt_of_not_hasCell (Graph.not_hasCell_of_shape? hnone)).symm
  · rfl

/-- **Declaring a matrix** changes no look. -/
theorem sameLook_declare (hg : w.graph.IsWellFormed) (name : Text) (rows? cols? : Option Datum) :
    SameLook w (left (declare name rows? cols?) w) := by
  rcases declare_cases name rows? cols? w with h | ⟨shape, -, hcheck, h⟩
  · rw [h]
    exact fun _ _ _ => rfl
  obtain ⟨⟨hrows, -⟩, ⟨hcols, -⟩⟩ := Size.check_eq_ok hcheck
  rw [h]
  split
  · next hnew =>
    have hnone : w.graph.shape? name = none := by
      rw [Graph.hasMatrix_eq] at hnew
      simpa using hnew
    exact sameLook_initMatrix (w := { w with shapes := w.shapes.put name shape }) hg
      ⟨hrows, hcols⟩ hnone
  · exact fun _ _ _ => rfl

theorem sameLook_declareBases (hg : w.graph.IsWellFormed) (plan : Plan) :
    SameLook w (left (declareBases plan) w) := by
  let P (w' : Workspace) : Prop := w'.graph.IsWellFormed ∧ SameLook w w'
  have hkeep :
      P { w with shapes := w.shapes.keep fun name => plan.baseMatrices.contains name } :=
    ⟨hg, fun _ _ _ => rfl⟩
  refine (left_forM_of (P := P) hkeep fun base _ w₁ h₁ => ?_).2
  exact ⟨(editsGraph_declare base none none w₁).isWellFormed h₁.1,
    h₁.2.trans (sameLook_declare h₁.1 base none none)⟩

/-- **Taking a formula** changes no look. -/
theorem sameLook_setFormula (hg : w.graph.IsWellFormed) (formula : Datum) :
    SameLook w (left (setFormula formula) w) := by
  rcases setFormula_cases formula w with
    ⟨e, -, h⟩ | ⟨plan, -, ⟨h, -⟩ | ⟨output, -, -, h⟩⟩
  · rw [h]
    exact fun _ _ _ => rfl
  · rw [h]
    exact fun _ _ _ => rfl
  · rw [h]
    exact sameLook_declareBases (w := { w with formula, plan }) hg plan

/-- **Resizing a matrix** keeps the look of the cells that still fit. -/
theorem keepsLook_resize (hg : w.graph.IsWellFormed) (name : Text) (rows cols : Datum)
    (other : Text) : w.graph.KeepsLook (left (resize name rows cols) w).graph other := by
  rcases resize_cases name rows cols w with h | ⟨shape, hcheck, h⟩
  · rw [h]
    exact .refl _ _
  obtain ⟨⟨hrows, -⟩, ⟨hcols, -⟩⟩ := Size.check_eq_ok hcheck
  rw [h]
  cases hshot : w.graph.snapshot? name with
  | none =>
    have hnone : w.graph.shape? name = none := by
      rw [Graph.snapshot?, Option.map_eq_none_iff] at hshot
      rw [Graph.shape?, hshot, Option.map_none]
    exact (sameLook_initMatrix (w := { w with shapes := w.shapes.put name shape }) hg
      ⟨hrows, hcols⟩ hnone).keepsLook other
  | some s =>
    dsimp only
    split
    · obtain ⟨g', hrestore, hlook⟩ := Graph.exists_restore hg hshot hrows hcols
      rw [left_of_ok (liftGraph_of_ok (w := { w with shapes := w.shapes.put name shape })
        (fun g => g.restore s shape.1 shape.2) hrestore)]
      exact hlook other
    · exact .refl _ _

/-- **An input matrix after evaluating the formula** is painted as before, in its declared shape,
unless it is the output or has a generated name. -/
theorem paintedFrom_recompute {config : Config} {names : List Text} {shape : Nat × Nat}
    (hg : w.graph.IsWellFormed) (hconfig : w.config = .ok config)
    (hobstacle : w.plan.obstacle? config.output = none)
    (hnames : inputNames w.plan config = .ok names) (hname : name ∈ names)
    (hgenerated : name ∉ generatedNames) (hne : name ≠ config.output)
    (hshape : w.shapes.lookup name = some shape) :
    w.graph.PaintedFrom (Graph.after (Graph.recompute w.plan config) w.graph) name shape := by
  obtain ⟨hshapes, hcells, -⟩ := of_config hconfig
  obtain ⟨g₀, written, -, -, hkept⟩ :=
    Graph.exists_writes_recompute hcells hg hobstacle hnames
  have hinput : w.graph.inputShape config name = shape := by
    rw [Graph.inputShape, hshapes, hshape, Option.getD_some]
  rw [← hinput]
  exact (hkept name hname hgenerated hne).2

/-- **A matrix after evaluating the formula** that is neither the output nor computed on the way: it
is as it was, or it is made anew as it was painted, or it is dropped. -/
theorem recompute_remakes {formula : Text} (hread : Plan.read formula = .ok w.plan)
    (hg : w.graph.IsWellFormed) (hgenerated : name ∉ generatedNames)
    (hmember : name ∉ Graph.memberNames) (hout : matrixName? w.output ≠ some name) :
    (left Workspace.recompute w).graph = w.graph ∨
      (∃ config, w.config = .ok config ∧ w.graph.PaintedFrom (left Workspace.recompute w).graph
        name (w.graph.inputShape config name)) ∨
      (left Workspace.recompute w).graph.shape? name = none := by
  rcases recompute_cases w with ⟨e, -, hrun⟩ | ⟨config, last?, hconfig, hrun⟩
  · exact .inl (congrArg Workspace.graph hrun)
  rw [hrun]
  by_cases hruns : w.plan.obstacle? config.output = none ∧
      ∃ names, inputNames w.plan config = .ok names
  swap
  · exact .inl (Graph.after_recompute_of_not hruns)
  obtain ⟨hobstacle, names, hnames⟩ := hruns
  obtain ⟨-, hcells, houtput⟩ := of_config hconfig
  have hne : name ≠ config.output := by
    rintro rfl
    exact hout (matrixName?_of_outputFor houtput (Plan.obstacle?_eq_none_iff.1 hobstacle).1)
  obtain ⟨hpainted, hdropped⟩ :=
    Graph.recompute_remakes hread hcells hg hobstacle hnames hgenerated hmember hne
  by_cases hname : name ∈ names
  · exact .inr (.inl ⟨config, hconfig, hpainted hname⟩)
  · exact .inr (.inr (congrArg (Option.map Block.shape) (hdropped hname)))

/-- **Evaluating the formula** keeps the look of such a matrix. -/
theorem keepsLook_recompute {formula : Text} (hread : Plan.read formula = .ok w.plan)
    (hg : w.graph.IsWellFormed) (hgenerated : name ∉ generatedNames)
    (hmember : name ∉ Graph.memberNames) (hout : matrixName? w.output ≠ some name) :
    w.graph.KeepsLook (left Workspace.recompute w).graph name := by
  rcases recompute_remakes hread hg hgenerated hmember hout with
    hsame | ⟨config, -, hpainted⟩ | hnone
  · rw [hsame]
    exact .refl _ _
  · exact hpainted.keepsLook
  · exact fun i j hcell => absurd hcell (Graph.not_hasCell_of_shape? hnone)

end Workspace

end CellLineage
