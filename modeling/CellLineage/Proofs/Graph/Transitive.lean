import CellLineage.Proofs.Graph.Closure
import CellLineage.Proofs.Graph.Contribution

/-!
# Lineages that are closed under steps

A cell that is written takes over all that its sources derive from. So a cell derives directly from
whatever it derives from through others: its list of dependencies is all that a search from it
finds besides the cell itself. This lasts as long as no cell is written again that others derive
from already, for these would keep what they have taken over.

While the cells of a matrix are filled, a graph is *fillable* there: it is transitive, and nothing
derives from the cells to fill. Such a cell may take edges from any set of other cells that is
closed under steps (`Graph.IsFillable.of_edges`). What a transpose, an instance or a copy takes over
from one cell is such a set, and so is what an entry of a product takes over from a row and a column
(`Graph.closed_sources_of_dot`). Therefore it does not matter where a product stops.

## Main definitions

* `Graph.IsTransitive`: what a cell derives from in two steps, it derives from in one.
* `Graph.IsFillable`: a graph in which some cells are to be filled.

## Main results

* `Graph.IsTransitive.mem_allDependencies_iff`: what the search finds in a transitive graph.
* `Graph.IsTransitive.instantiate`, `Graph.IsTransitive.transpose`, `Graph.IsTransitive.multiply`,
  `Graph.IsTransitive.copy`, `Graph.IsTransitive.copy_self`: the operations keep a graph transitive.
-/

namespace CellLineage.Graph

open Relation

/-- A cell derives from all that the cells it derives from derive from. -/
def IsTransitive (g : Graph) : Prop :=
  ∀ ⦃a x y : CellId⦄, g.DependsOn a x → g.DependsOn x y → g.DependsOn a y

/-- The graph is well-formed and transitive, and nothing derives from the cells that are to be
filled. -/
structure IsFillable (g : Graph) (targets : Set CellId) : Prop where
  isWellFormed : g.IsWellFormed
  isTransitive : g.IsTransitive
  unread : ∀ a x, g.DependsOn a x → x ∉ targets

variable {g g' g₁ : Graph} {targets : Set CellId} {name left right source target : Text}
  {s t : Block} {a x y : CellId}

/-! ### What the search finds -/

/-- **In a transitive graph** the search from a cell finds the cell and its own dependencies. -/
theorem IsTransitive.mem_allDependencies_iff (h : g.IsTransitive) (hg : g.IsLinked)
    (ha : a ∈ g.nodes) : x ∈ g.allDependencies a ↔ x = a ∨ g.DependsOn a x := by
  have htrans : IsTrans CellId g.DependsOn := ⟨fun _ _ _ => @h _ _ _⟩
  rw [mem_allDependencies_iff_path hg, and_iff_right ha, reflTransGen_iff_eq_or_transGen,
    transGen_eq_self]

/-! ### Steps that record no edge -/

/-- A graph without edges is transitive. -/
theorem isTransitive_of_forall_not (h : ∀ a x, ¬g.DependsOn a x) : g.IsTransitive :=
  fun _ _ _ hax _ => absurd hax (h _ _)

/-- A cell that derives from another one is a cell of the graph. -/
theorem mem_nodes_of_dependsOn (h : g.DependsOn a x) : a ∈ g.nodes := by
  by_contra ha
  rw [DependsOn, cell_of_notMem ha] at h
  exact absurd h List.not_mem_nil

/-- What some cells derive from may be forgotten. -/
theorem IsTransitive.of_dependsOn_iff {p : CellId → Prop} (h : g.IsTransitive)
    (hedges : ∀ a x, g'.DependsOn a x ↔ p a ∧ g.DependsOn a x) : g'.IsTransitive := by
  intro a x y hax hxy
  rw [hedges] at hax hxy ⊢
  exact ⟨hax.1, h hax.2 hxy.2⟩

theorem dependsOn_addMatrix_iff (hg : g.IsMinted) {rows cols : Nat} {hr : 0 < rows}
    {hc : 0 < cols} :
    (g.addMatrix name rows cols hr hc).DependsOn a x ↔ g.DependsOn a x := by
  refine ⟨dependsOn_of_addMatrix, fun h => ?_⟩
  rwa [DependsOn, hg.cell_addMatrix_of_mem (mem_nodes_of_dependsOn h)]

theorem IsTransitive.addMatrix (h : g.IsTransitive) (hg : g.IsMinted) (name : Text)
    {rows cols : Nat} (hr : 0 < rows) (hc : 0 < cols) :
    (g.addMatrix name rows cols hr hc).IsTransitive := by
  intro a x y hax hxy
  rw [dependsOn_addMatrix_iff hg] at hax hxy ⊢
  exact h hax hxy

theorem IsTransitive.initMatrix (h : g.IsTransitive) (hg : g.IsMinted) {rows cols : Int}
    (hrun : g.initMatrix name rows cols = .ok g') : g'.IsTransitive := by
  unfold Graph.initMatrix at hrun
  split at hrun
  · cases hrun
    exact h.addMatrix hg name _ _
  · cases hrun

theorem dependsOn_unlink_iff (hg : g.IsWellFormed) {b : Block} (hb : g.matrices[name]? = some b) :
    (g.unlink name).DependsOn a x ↔ a ∉ g.idSet b ∧ g.DependsOn a x := by
  obtain ⟨hrewrites, hcells⟩ := rewrites_unlink hg hb
  by_cases ha : a ∈ g.idSet b
  · have hnil : ((g.unlink name).cell a).dependencies = [] := by
      obtain ⟨i, j, hi, hj, rfl⟩ := ha
      have h := congrArg Cell.dependencies (hcells i j hi hj)
      rwa [coreAt, hrewrites.idAt_eq] at h
    simp [DependsOn, hnil, ha]
  · simp [DependsOn, hrewrites.dependencies_eq ha, ha]

/-! ### Runs that may stop part-way -/

/-- What holds before a run of two parts and is kept by both, also if they stop part-way, holds
after it. -/
theorem after_bind_of {α β : Type} {P : Graph → Prop} {x : Run α} {f : α → Run β}
    (hx : P (after x g)) (hf : ∀ a g₁, x g = .ok a g₁ → P g₁ → P (after (f a) g₁)) :
    P (after (x >>= f) g) := by
  cases hrun : x g with
  | ok a g₁ =>
    rw [after_of_ok hrun] at hx
    rw [after_bind_of_ok hrun]
    exact hf a g₁ hrun hx
  | error e g₁ =>
    rw [after_of_error hrun] at hx
    rwa [after_of_error (bind_eq_of_error hrun)]

/-- What each step of a loop keeps, the loop keeps. -/
theorem after_forM_of {α : Type} {P : Graph → Prop} {as : List α} {f : α → Run Unit}
    (hf : ∀ a ∈ as, ∀ g, P g → P (after (f a) g)) (hg : P g) : P (after (as.forM f) g) := by
  induction as generalizing g with
  | nil => exact hg
  | cons a as ih =>
    exact after_bind_of (hf a List.mem_cons_self g hg) fun _ g₁ _ h₁ =>
      ih (fun b hb => hf b (List.mem_cons_of_mem a hb)) h₁

/-! ### A matrix that is ready to be filled -/

theorem isFillable_addMatrix (hg : g.IsWellFormed) (h : g.IsTransitive) (name : Text)
    {rows cols : Nat} (hr : 0 < rows) (hc : 0 < cols) :
    (g.addMatrix name rows cols hr hc).IsFillable
      ((g.addMatrix name rows cols hr hc).idSet (g.nextBlock rows cols hr hc)) where
  isWellFormed := (prepared_addMatrix hg name hr hc).isWellFormed
  isTransitive := h.addMatrix hg.toIsMinted name hr hc
  unread a x hax := by
    rintro ⟨i, j, -, -, rfl⟩
    rw [idAt_addMatrix] at hax
    exact hg.idAt_nextBlock_notMem hr hc i j (hg.mem_nodes (dependsOn_of_addMatrix hax))

/-- A matrix that nothing derives from is ready to be filled once it is prepared. -/
theorem isFillable_prepare (hg : g.IsWellFormed) (h : g.IsTransitive) (hname : g.IsUnread name)
    {rows cols : Nat} (hr : 0 < rows) (hc : 0 < cols) {b : Block}
    (hb : (g.prepare name rows cols hr hc).matrices[name]? = some b) :
    (g.prepare name rows cols hr hc).IsFillable ((g.prepare name rows cols hr hc).idSet b) := by
  by_cases hs : g.shape? name = some (rows, cols)
  · obtain ⟨c, hc', -⟩ := Option.map_eq_some_iff.1 hs
    have htables := (fills_unlink ∅ hc').sameTables
    rw [prepare, if_pos hs] at hb ⊢
    obtain rfl : c = b := Option.some.inj (hc'.symm.trans (htables.matrices ▸ hb))
    refine ⟨(fills_unlink ∅ hc').edits.isWellFormed hg,
      h.of_dependsOn_iff fun a x => dependsOn_unlink_iff hg hc', fun a x hax => ?_⟩
    rw [htables.idSet_eq]
    exact fun hx => hname c hc' a x hx ((dependsOn_unlink_iff hg hc').1 hax).2
  · rw [prepare, if_neg hs] at hb ⊢
    rw [matrices_addMatrix, if_pos rfl, Option.some.injEq] at hb
    rw [← hb]
    exact isFillable_addMatrix hg h name hr hc

/-! ### Filling one cell -/

/-- **A cell may take edges** from other cells that all they derive from is among. -/
theorem IsFillable.of_edges {z : CellId} (h : g.IsFillable targets) (hg' : g'.IsWellFormed)
    (hz : z ∈ targets) (sources : Set CellId) (hapart : ∀ x ∈ sources, x ∉ targets)
    (hclosed : ∀ x ∈ sources, ∀ y, g.DependsOn x y → y ∈ sources)
    (hedges : ∀ a x, g'.DependsOn a x ↔ g.DependsOn a x ∨ a = z ∧ x ∈ sources) :
    g'.IsFillable targets := by
  have hunread : ∀ a x, g'.DependsOn a x → x ∉ targets := fun a x hax =>
    ((hedges a x).1 hax).elim (h.unread a x) fun hx => hapart x hx.2
  refine ⟨hg', fun a x y hax hxy => ?_, hunread⟩
  -- the second edge is an old one: what is filled is read by nothing
  have hold : g.DependsOn x y := ((hedges x y).1 hxy).resolve_right fun hx =>
    hunread a x hax (hx.1 ▸ hz)
  rcases (hedges a x).1 hax with hax | ⟨ha, hx⟩
  · exact (hedges a y).2 (.inl (h.isTransitive hax hold))
  · exact (hedges a y).2 (.inr ⟨ha, hclosed x hx y hold⟩)

/-- Edges of a graph in which one cell was written. -/
theorem Rewrites.dependsOn_iff {z : CellId} (h : g.Rewrites g' {z}) (sources : List CellId)
    (hz : (g'.core z).dependencies = appendAllNew (g.core z).dependencies sources) :
    g'.DependsOn a x ↔ g.DependsOn a x ∨ a = z ∧ x ∈ sources := by
  by_cases ha : a = z
  · subst ha
    have hdeps : (g'.cell a).dependencies = appendAllNew (g.cell a).dependencies sources := hz
    rw [DependsOn, hdeps, mem_appendAllNew, and_iff_right rfl]
    rfl
  · rw [DependsOn, h.dependencies_eq (show a ∉ ({z} : Set CellId) from ha), DependsOn,
      or_iff_left fun hx => ha hx.1]

/-- Writing a cell from one that is not filled. -/
theorem IsFillable.transferCell {a z : CellId} (h : g.IsFillable targets) (ha : a ∈ g.nodes)
    (hread : a ∉ targets) (hz : z ∈ g.nodes) (hzt : z ∈ targets) (withIndex withSelf : Bool) :
    (g.transferCell withIndex withSelf a z).IsFillable targets := by
  have hg := h.isWellFormed
  have hne : a ≠ z := fun he => hread (he ▸ hzt)
  have hcore := core_transferCell hg ha hz hne withIndex withSelf
  have hid : (g.core a).id = a := hg.id_cell a
  refine h.of_edges ((edits_transferCell g withIndex withSelf a z).isWellFormed hg) hzt
    {x | withSelf = true ∧ x = a ∨ g.DependsOn a x} ?_ ?_ fun b x => ?_
  · rintro x (⟨-, rfl⟩ | hx)
    · exact hread
    · exact h.unread a x hx
  · rintro x (⟨-, rfl⟩ | hx) y hy
    · exact .inr hy
    · exact .inr (h.isTransitive hx hy)
  · cases withSelf with
    | false =>
      rw [(rewrites_transferCell g withIndex false a z).dependsOn_iff
        (g.cell a).dependencies (by rw [hcore]; rfl)]
      simp [DependsOn]
    | true =>
      rw [(rewrites_transferCell g withIndex true a z).dependsOn_iff
        (a :: (g.cell a).dependencies) (by rw [hcore, Cell.writtenFrom, hid]; rfl)]
      simp [DependsOn]

/-- **What an entry of a product derives from is closed**: with a cell that one of the factors hands
on, it derives from all that this cell derives from. -/
theorem closed_sources_of_dot (hg : g.IsMinted) (h : g.IsTransitive) {leafOnly : Bool}
    {row column : List CellId} {d : Dot} (hd : g.dot leafOnly row column = some d)
    (hx : x ∈ d.sources) (hxy : g.DependsOn x y) : y ∈ d.sources := by
  have hpairs : Dot.ofPairs leafOnly ((row.zip column).map fun p => (g.cell p.1, g.cell p.2)) =
      some d := by
    rw [Dot.ofPairs, List.foldlM_map]
    exact hd
  have hfeeds {b : CellId} (hb : (g.cell b).Feeds leafOnly x) : (g.cell b).Feeds leafOnly y := by
    refine ⟨hb.1, .inl ?_⟩
    rcases hb.2 with hb | ⟨rfl, -⟩
    · exact h hb hxy
    · rwa [hg.id_cell] at hxy
  rw [Dot.mem_sources_ofPairs hpairs] at hx ⊢
  obtain ⟨p, hp, hcounts, hx⟩ := hx
  obtain ⟨⟨b, c⟩, -, rfl⟩ := List.mem_map.1 hp
  exact ⟨_, hp, hcounts, hx.imp hfeeds hfeeds⟩

/-- Writing an entry of a product of cells that are not filled. -/
theorem IsFillable.writeDot {z : CellId} (h : g.IsFillable targets) {leafOnly : Bool}
    {row column : List CellId} {d : Dot} (hd : g.dot leafOnly row column = some d)
    (hread : ∀ a, a ∈ row ∨ a ∈ column → a ∈ g.nodes ∧ a ∉ targets) (hz : z ∈ g.nodes)
    (hzt : z ∈ targets) : (g.writeDot z d).IsFillable targets := by
  have hg := h.isWellFormed
  have hsource : ∀ x ∈ d.sources, x ∈ g.nodes ∧ x ∉ targets := by
    intro x hx
    obtain ⟨b, hb, -, hb' | ⟨rfl, -⟩⟩ := exists_feeds_of_dot hd hx
    · exact ⟨hg.mem_nodes hb', h.unread b x hb'⟩
    · rw [hg.id_cell]
      exact hread b hb
  refine h.of_edges
    ((fills_writeDot (Set.mem_univ z) fun _ _ => Set.mem_univ _).edits.isWellFormed hg) hzt
    {x | x ∈ d.sources} (fun x hx => (hsource x hx).2)
    (fun x hx y hy => closed_sources_of_dot hg.toIsMinted h.isTransitive hd hx hy)
    fun b x => (rewrites_writeDot g z d).dependsOn_iff d.sources ?_
  rw [core_writeDot hz fun x hx => (hsource x hx).1]

/-! ### Filling a matrix -/

/-- Writing cells of a block each from a cell of a block that is not filled. -/
theorem IsFillable.transferCells (h : g.IsFillable (g.idSet t))
    (hs : ∀ id ∈ g.idSet s, id ∈ g.nodes ∧ id ∉ g.idSet t) (ht : ∀ id ∈ g.idSet t, id ∈ g.nodes)
    (place : Nat × Nat → Nat × Nat) (hplace : ∀ p ∈ s.positions, place p ∈ t.positions)
    (withIndex withSelf : Bool) :
    (s.positions.foldl (fun g p => g.transferCell withIndex withSelf (g.idAt s p.1 p.2)
      (g.idAt t (place p).1 (place p).2)) g).IsFillable (g.idSet t) := by
  refine (List.foldlRecOn (motive := fun g₁ => g.SameTables g₁ ∧ g₁.IsFillable (g.idSet t))
    s.positions _ ⟨.refl g, h⟩ fun g₁ ⟨htables, h₁⟩ p hp => ?_).2
  obtain ⟨hi, hj⟩ := s.mem_positions.1 hp
  obtain ⟨hi', hj'⟩ := t.mem_positions.1 (hplace p hp)
  obtain ⟨hnode, hapart⟩ := hs _ (idAt_mem_idSet hi hj)
  rw [htables.idAt_eq, htables.idAt_eq]
  exact ⟨htables.trans (rewrites_transferCell ..).toSameTables,
    h₁.transferCell (htables.mem_nodes.2 hnode) hapart
      (htables.mem_nodes.2 (ht _ (idAt_mem_idSet hi' hj'))) (idAt_mem_idSet hi' hj') ..⟩

/-- Forming an entry of a product of blocks that are not filled, also if a number gets too large. -/
theorem IsFillable.multiplyAt {l r : Block} {p : Nat × Nat} (h : g.IsFillable targets)
    (hl : ∀ id ∈ g.idSet l, id ∈ g.nodes ∧ id ∉ targets)
    (hr : ∀ id ∈ g.idSet r, id ∈ g.nodes ∧ id ∉ targets) (hrow : p.1 < l.rows)
    (hcol : p.2 < r.cols) (hz : g.idAt t p.1 p.2 ∈ g.nodes) (hzt : g.idAt t p.1 p.2 ∈ targets)
    (leafOnly : Bool) : (after (Graph.multiplyAt leafOnly l r t p) g).IsFillable targets := by
  have hrun : after (Graph.multiplyAt leafOnly l r t p) g =
      ((g.dot leafOnly (g.row l p.1) (g.column r p.2)).map
        (g.writeDot (g.idAt t p.1 p.2))).getD g := by
    simp only [after, Graph.multiplyAt, get_bind_eq]
    cases g.dot leafOnly (g.row l p.1) (g.column r p.2) <;> rfl
  rw [hrun]
  cases hd : g.dot leafOnly (g.row l p.1) (g.column r p.2) with
  | none => exact h
  | some d =>
    refine h.writeDot hd ?_ hz hzt
    rintro a (ha | ha) <;> obtain ⟨k, hk, rfl⟩ := List.mem_map.1 ha <;> rw [List.mem_range] at hk
    · exact hl _ (idAt_mem_idSet hrow hk)
    · exact hr _ (idAt_mem_idSet hk hcol)

/-- Forming all entries of a product of blocks that are not filled. -/
theorem IsFillable.multiplyCells {l r : Block} (h : g.IsFillable (g.idSet t))
    (hl : ∀ id ∈ g.idSet l, id ∈ g.nodes ∧ id ∉ g.idSet t)
    (hr : ∀ id ∈ g.idSet r, id ∈ g.nodes ∧ id ∉ g.idSet t) (ht : ∀ id ∈ g.idSet t, id ∈ g.nodes)
    (hrow : t.rows = l.rows) (hcol : t.cols = r.cols) (leafOnly : Bool) :
    (after (t.positions.forM (Graph.multiplyAt leafOnly l r t)) g).IsFillable (g.idSet t) := by
  suffices hloop : g.SameTables (after (t.positions.forM (Graph.multiplyAt leafOnly l r t)) g) ∧
      (after (t.positions.forM (Graph.multiplyAt leafOnly l r t)) g).IsFillable (g.idSet t) from
    hloop.2
  refine after_forM_of (P := fun g₁ => g.SameTables g₁ ∧ g₁.IsFillable (g.idSet t))
    (fun p hpos g₁ ⟨htables, h₁⟩ => ⟨?_, ?_⟩) ⟨.refl g, h⟩
  · exact htables.trans (fills_multiplyAt leafOnly (g₁.supplies_univ true l)
      (g₁.supplies_univ true r) hpos hrow hcol).sameTables
  · obtain ⟨hi, hj⟩ := t.mem_positions.1 hpos
    have hid : g.idAt t p.1 p.2 ∈ g.idSet t := idAt_mem_idSet hi hj
    refine h₁.multiplyAt ?_ ?_ (hrow ▸ hi) (hcol ▸ hj) ?_ ?_ leafOnly
    · simpa only [htables.idSet_eq, htables.mem_nodes] using hl
    · simpa only [htables.idSet_eq, htables.mem_nodes] using hr
    · rw [htables.idAt_eq, htables.mem_nodes]
      exact ht _ hid
    · rwa [htables.idAt_eq]

/-! ### Operations -/

/-- The cells of a matrix of another name than the one that is filled. -/
theorem IsMinted.mem_nodes_and_notMem_idSet (hg : g.IsMinted) (hs : g.matrices[source]? = some s)
    (ht : g.matrices[target]? = some t) (hne : source ≠ target) {id : CellId}
    (hid : id ∈ g.idSet s) : id ∈ g.nodes ∧ id ∉ g.idSet t := by
  obtain ⟨i, j, hi, hj, rfl⟩ := hid
  exact ⟨hg.idAt_mem hs hi hj, hg.idAt_notMem_idSet ht hs hne hi hj⟩

/-- **An instance** of a matrix keeps a graph transitive. -/
theorem IsTransitive.instantiate (h : g.IsTransitive) (hg : g.IsWellFormed)
    (hrun : g.instantiate source target = some g') (hne : source ≠ target) : g'.IsTransitive := by
  obtain ⟨s, hs, rfl⟩ := Option.map_eq_some_iff.1 hrun
  have hp := prepared_addMatrix hg target s.rows_pos s.cols_pos
  have hs₁ := (hp.keeps source hne).matrices.trans hs
  have hp' := hp.isWellFormed.toIsMinted
  simp only [hp.matrices]
  exact ((isFillable_addMatrix hg h target s.rows_pos s.cols_pos).transferCells
    (fun _ => hp'.mem_nodes_and_notMem_idSet hs₁ hp.matrices hne)
    (fun _ => mem_nodes_of_mem_idSet hp' hp.matrices) id (fun _ hpos => hpos) true
    true).isTransitive

/-- **The transpose** of a matrix keeps a graph transitive, if nothing derives from the matrix that
it goes to. -/
theorem IsTransitive.transpose (h : g.IsTransitive) (hg : g.IsWellFormed)
    (hrun : g.transpose name = some (target, g')) (hunread : g.IsUnread (transposeName name)) :
    g'.IsTransitive := by
  obtain ⟨s, hs, hrun⟩ := Option.map_eq_some_iff.1 hrun
  have hne := ne_transposeName name
  obtain ⟨t, hp, hrow, hcol⟩ := prepared_prepare hg (transposeName name) s.cols_pos s.rows_pos
  have hfill := isFillable_prepare hg h hunread s.cols_pos s.rows_pos hp.matrices
  have hs₁ := (hp.keeps name hne).matrices.trans hs
  have hp' := hp.isWellFormed.toIsMinted
  simp only [hp.matrices, Prod.mk.injEq] at hrun
  obtain ⟨-, rfl⟩ := hrun
  refine (hfill.transferCells (fun _ => hp'.mem_nodes_and_notMem_idSet hs₁ hp.matrices hne)
    (fun _ => mem_nodes_of_mem_idSet hp' hp.matrices) Prod.swap (fun p hpos => ?_) false
    true).isTransitive
  obtain ⟨hi, hj⟩ := s.mem_positions.1 hpos
  exact t.mem_positions.2 ⟨hrow ▸ hj, hcol ▸ hi⟩

/-- **A copy** of a matrix keeps a graph transitive, if it goes to another one and nothing derives
from that. -/
theorem IsTransitive.copy (h : g.IsTransitive) (hg : g.IsWellFormed)
    (hrun : g.copy source target = some g') (hne : source ≠ target)
    (hunread : g.IsUnread target) : g'.IsTransitive := by
  obtain ⟨s, hs, rfl⟩ := Option.map_eq_some_iff.1 hrun
  obtain ⟨t, hp, hrow, hcol⟩ := prepared_prepare hg target s.rows_pos s.cols_pos
  have hfill := isFillable_prepare hg h hunread s.rows_pos s.cols_pos hp.matrices
  have hs₁ := (hp.keeps source hne).matrices.trans hs
  have hp' := hp.isWellFormed.toIsMinted
  simp only [hp.matrices]
  refine (hfill.transferCells (fun _ => hp'.mem_nodes_and_notMem_idSet hs₁ hp.matrices hne)
    (fun _ => mem_nodes_of_mem_idSet hp' hp.matrices) id (fun p hpos => ?_) true
    false).isTransitive
  obtain ⟨hi, hj⟩ := s.mem_positions.1 hpos
  exact t.mem_positions.2 ⟨hrow ▸ hi, hcol ▸ hj⟩

/-- A copy goes to another matrix if it goes to one that is not there. -/
theorem IsTransitive.copy_of_notMem (h : g.IsTransitive) (hg : g.IsWellFormed)
    (hrun : g.copy source target = some g') (htarget : target ∉ g.matrices) : g'.IsTransitive := by
  refine h.copy hg hrun ?_ (isUnread_of_notMem htarget)
  rintro rfl
  obtain ⟨s, hs, -⟩ := Option.map_eq_some_iff.1 hrun
  exact htarget (Std.ExtTreeMap.mem_iff_isSome_getElem?.2 (by rw [hs, Option.isSome_some]))

/-- **A copy of a matrix to itself** only forgets edges, so it may be read. -/
theorem IsTransitive.copy_self (h : g.IsTransitive) (hg : g.IsWellFormed)
    (hrun : g.copy name name = some g') : g'.IsTransitive := by
  obtain ⟨b, hb, -⟩ := Option.map_eq_some_iff.1 hrun
  obtain ⟨g₁, hrun₁, hw, hb₁, hcells⟩ := copy_self_spec hg hb
  obtain rfl : g₁ = g' := Option.some.inj (hrun₁.symm.trans hrun)
  obtain ⟨c, hdiffers⟩ := (makes_copy_self hg hrun).differsAt hg
  obtain rfl : b = c := Option.some.inj (hb₁.symm.trans hdiffers.matrices)
  refine h.of_dependsOn_iff (p := fun a => a ∉ g₁.idSet b) fun a x => ?_
  by_cases ha : a ∈ g₁.idSet b
  · have hnil : (g₁.cell a).dependencies = [] := by
      obtain ⟨i, j, hi, hj, rfl⟩ := ha
      exact congrArg Cell.dependencies (hcells i j hi hj)
    simp [DependsOn, hnil, ha]
  · obtain ⟨-, -, hdeps⟩ := Cell.fields_of_core_eq (hdiffers.core a ha)
    simp [DependsOn, hdeps, ha]

/-- **A product** keeps a graph transitive, also if it stops part-way, if it goes to a third matrix
and nothing derives from that. -/
theorem IsTransitive.multiply (h : g.IsTransitive) (hg : g.IsWellFormed) (hleft : left ≠ target)
    (hright : right ≠ target) (hunread : g.IsUnread target) (leafOnly : Bool) :
    (after (multiply left right target leafOnly) g).IsTransitive := by
  cases hissue : g.productIssue? left right with
  | some issue => rwa [after_of_ok (multiply_of_productIssue? leafOnly hissue)]
  | none =>
    obtain ⟨l, r, hl, hr, hfits⟩ := exists_of_productIssue?_eq_none hissue
    obtain ⟨t, hp, hrow, hcol⟩ := prepared_prepare hg target l.rows_pos r.cols_pos
    have hfill := isFillable_prepare hg h hunread l.rows_pos r.cols_pos hp.matrices
    have hl₁ := (hp.keeps left hleft).matrices.trans hl
    have hr₁ := (hp.keeps right hright).matrices.trans hr
    have hp' := hp.isWellFormed.toIsMinted
    set g₁ := g.prepare target l.rows r.cols l.rows_pos r.cols_pos
    have hrun : after (Graph.multiply left right target leafOnly) g =
        after (t.positions.forM (Graph.multiplyAt leafOnly l r t)) g₁ := by
      have hprep : g₁.matrices[target]? = some t := hp.matrices
      refine Eq.trans ?_ (after_bind_of_after_eq (f := fun _ => (pure none : Run (Option Issue)))
        fun _ _ => rfl)
      simp only [after, Graph.multiply, get_bind_eq, hl, hr, hfits, ne_eq, not_true_eq_false,
        if_false, set_bind_eq]
      rw [hprep]
    rw [hrun]
    exact (hfill.multiplyCells (fun _ => hp'.mem_nodes_and_notMem_idSet hl₁ hp.matrices hleft)
      (fun _ => hp'.mem_nodes_and_notMem_idSet hr₁ hp.matrices hright)
      (fun _ => mem_nodes_of_mem_idSet hp' hp.matrices) hrow hcol leafOnly).isTransitive

end CellLineage.Graph
