import CellLineage.Proofs.Graph.Reachable

/-!
# The invariant of reachable graphs

Two things hold of every reachable graph. Its ids are in order (`Graph.IsMinted`): the cells are
those with the numbers minted so far, the blocks of two matrices share no number, and a cell of a
block knows its place. And its lineage is in order (`Graph.IsLinked`): an edge is recorded on both
ends, it joins cells of the graph, and it is recorded once. The second needs the first: a fresh cell
may only start without edges if no edge names its id yet, and this is so because that id was never
minted.

## Main results

* `Graph.Edit.isWellFormed`: each edit preserves both.
* `Graph.IsReachable.isWellFormed`: every reachable graph has both.
* `Graph.lineage_symmetric`: the edges of a reachable graph, said without the invariant.
-/

namespace CellLineage.Graph

/-- The ids of the graph are in order. -/
structure IsMinted (g : Graph) : Prop where
  /-- The cells are those with the numbers minted so far. -/
  mem_nodes_iff : ∀ id, id ∈ g.nodes ↔ ∃ k < g.minted, id = g.cellId k
  /-- A cell knows its id. -/
  id_cell : ∀ id, (g.cell id).id = id
  /-- The numbers of a block were minted. -/
  block_le : ∀ {name : Text} {b : Block}, g.matrices[name]? = some b → b.first + b.size ≤ g.minted
  /-- Two matrices share no number. -/
  block_disjoint : ∀ {name other : Text} {b c : Block},
    g.matrices[name]? = some b → g.matrices[other]? = some c → name ≠ other →
      b.first + b.size ≤ c.first ∨ c.first + c.size ≤ b.first
  /-- A cell of a matrix knows its place. -/
  place : ∀ {name : Text} {b : Block} {i j : Nat}, g.matrices[name]? = some b →
    i < b.rows → j < b.cols → (g.cell (g.idAt b i j)).matrix = name ∧
      (g.cell (g.idAt b i j)).row = i ∧ (g.cell (g.idAt b i j)).col = j

/-- The lineage of the graph is in order. -/
structure IsLinked (g : Graph) : Prop where
  /-- An edge is recorded on both ends. -/
  symmetric : ∀ a b, b ∈ (g.cell a).dependents ↔ a ∈ (g.cell b).dependencies
  /-- An edge leads to a cell of the graph. -/
  mem_nodes : ∀ {a b}, b ∈ (g.cell a).dependencies → b ∈ g.nodes
  /-- An edge is recorded once. -/
  nodup_dependencies : ∀ a, (g.cell a).dependencies.Nodup
  nodup_dependents : ∀ a, (g.cell a).dependents.Nodup

/-- The ids and the lineage of the graph are in order. -/
structure IsWellFormed (g : Graph) : Prop extends IsMinted g, IsLinked g

variable {g g' : Graph}

/-! ### The ids -/

theorem isMinted_empty (stem : String) : (empty stem).IsMinted where
  mem_nodes_iff id := by simp [empty]
  id_cell id := by simp [empty, cell, Cell.blank]
  block_le h := by simp [empty] at h
  block_disjoint h := by simp [empty] at h
  place h := by simp [empty] at h

/-- What holds of the cells with the numbers minted so far holds of all cells. -/
theorem IsMinted.forall_cell_iff {P : Cell → Prop} (h : g.IsMinted) :
    (∀ id ∈ g.nodes, P (g.cell id)) ↔ ∀ k < g.minted, P (g.cell (g.cellId k)) := by
  simp only [h.mem_nodes_iff]
  constructor
  · intro hall k hk
    exact hall _ ⟨k, hk, rfl⟩
  · rintro hall id ⟨k, hk, rfl⟩
    exact hall k hk

theorem IsMinted.idAt_mem (h : g.IsMinted) {name : Text} {b : Block} {i j : Nat}
    (hb : g.matrices[name]? = some b) (hi : i < b.rows) (hj : j < b.cols) :
    g.idAt b i j ∈ g.nodes := by
  have h₁ := b.number_lt hi hj
  have h₂ := h.block_le hb
  exact (h.mem_nodes_iff _).2 ⟨b.number i j, by omega, rfl⟩

/-- The id at a position of a fresh block names no cell yet. -/
theorem IsMinted.idAt_nextBlock_notMem (h : g.IsMinted) {rows cols : Nat} (hr : 0 < rows)
    (hc : 0 < cols) (i j : Nat) : g.idAt (g.nextBlock rows cols hr hc) i j ∉ g.nodes := by
  rw [h.mem_nodes_iff]
  rintro ⟨k, hk, he⟩
  have := cellId_inj.1 he
  simp only [Block.number, nextBlock] at this
  omega

/-- A cell of the graph is none of a fresh block. -/
theorem IsMinted.cell_addMatrix_of_mem (h : g.IsMinted) {name : Text} {rows cols : Nat}
    {hr : 0 < rows} {hc : 0 < cols} {id : CellId} (hid : id ∈ g.nodes) :
    (g.addMatrix name rows cols hr hc).cell id = g.cell id := by
  refine cell_addMatrix_of_ne fun i j _ _ he => ?_
  exact h.idAt_nextBlock_notMem hr hc i j (he ▸ hid)

/-- Changes of cells that keep ids and places keep the ids in order. -/
theorem IsMinted.of_sameTables (h : g.IsMinted) (ht : g.SameTables g')
    (hid : ∀ k, (g'.cell k).id = (g.cell k).id)
    (hplace : ∀ k, (g'.cell k).matrix = (g.cell k).matrix ∧ (g'.cell k).row = (g.cell k).row ∧
      (g'.cell k).col = (g.cell k).col) : g'.IsMinted where
  mem_nodes_iff id := by
    rw [ht.mem_nodes, h.mem_nodes_iff]
    simp only [cellId, ht.stem, ht.minted]
  id_cell id := by rw [hid, h.id_cell]
  block_le hb := by
    rw [ht.matrices] at hb
    rw [ht.minted]
    exact h.block_le hb
  block_disjoint hb hc := by
    rw [ht.matrices] at hb hc
    exact h.block_disjoint hb hc
  place {name b i j} hb hi hj := by
    rw [ht.matrices] at hb
    obtain ⟨h₁, h₂, h₃⟩ := hplace (g.idAt b i j)
    rw [ht.idAt_eq, h₁, h₂, h₃]
    exact h.place hb hi hj

theorem IsMinted.addMatrix (h : g.IsMinted) (name : Text) (rows cols : Nat) (hr : 0 < rows)
    (hc : 0 < cols) : (g.addMatrix name rows cols hr hc).IsMinted where
  mem_nodes_iff id := by
    rw [mem_nodes_addMatrix, h.mem_nodes_iff, minted_addMatrix]
    simp only [cellId, stem_addMatrix]
    constructor
    · rintro (⟨k, hk, rfl⟩ | ⟨i, j, hi, hj, rfl⟩)
      · exact ⟨k, by omega, rfl⟩
      · exact ⟨_, Block.number_lt (b := g.nextBlock rows cols hr hc) hi hj, rfl⟩
    · rintro ⟨k, hk, rfl⟩
      by_cases hk' : k < g.minted
      · exact .inl ⟨k, hk', rfl⟩
      · obtain ⟨i, j, hi, hj, hn⟩ :=
          Block.exists_number (b := g.nextBlock rows cols hr hc) (Nat.le_of_not_lt hk') hk
        exact .inr ⟨i, j, hi, hj, congrArg g.cellId hn⟩
  id_cell id := by
    rcases cell_addMatrix_cases g name rows cols hr hc id with ⟨i, j, -, -, -, he⟩ | he
    · rw [he, Cell.blank]
    · rw [he, h.id_cell]
  block_le {other b} hb := by
    rw [matrices_addMatrix] at hb
    rw [minted_addMatrix]
    split at hb
    · cases hb
      exact Nat.le_refl _
    · exact Nat.le_add_right_of_le (h.block_le hb)
  block_disjoint {n m b c} hb hc hne := by
    rw [matrices_addMatrix] at hb hc
    split at hb <;> split at hc
    · next h₁ h₂ => exact absurd (h₁.symm.trans h₂) hne
    · cases hb
      exact .inr (h.block_le hc)
    · cases hc
      exact .inl (h.block_le hb)
    · exact h.block_disjoint hb hc hne
  place {n b i j} hb hi hj := by
    rw [idAt_addMatrix]
    rw [matrices_addMatrix] at hb
    split at hb
    · next hn =>
      cases hb
      rw [cell_addMatrix hi hj]
      exact ⟨hn, rfl, rfl⟩
    · rw [h.cell_addMatrix_of_mem (h.idAt_mem hb hi hj)]
      exact h.place hb hi hj

/-! ### The lineage -/

theorem isLinked_empty (stem : String) : (empty stem).IsLinked where
  symmetric a b := by simp [empty, cell, Cell.blank]
  mem_nodes h := by simp [empty, cell, Cell.blank] at h
  nodup_dependencies a := by simp [empty, cell, Cell.blank]
  nodup_dependents a := by simp [empty, cell, Cell.blank]

/-- What derives from a cell of the graph, or is derived from, is a cell of the graph. -/
theorem IsLinked.mem_nodes_of_mem_dependents (h : g.IsLinked) {a b : CellId}
    (hb : b ∈ (g.cell a).dependents) : a ∈ g.nodes ∧ b ∈ g.nodes := by
  have ha := (h.symmetric a b).1 hb
  refine ⟨h.mem_nodes ha, by_contra fun hn => ?_⟩
  rw [cell_of_notMem hn] at ha
  exact absurd ha List.not_mem_nil

/-- Changes of cells that keep edges keep the lineage in order. -/
theorem IsLinked.of_sameEdges (h : g.IsLinked) (hn : ∀ {id}, id ∈ g.nodes → id ∈ g'.nodes)
    (he : ∀ k, (g'.cell k).dependencies = (g.cell k).dependencies ∧
      (g'.cell k).dependents = (g.cell k).dependents) : g'.IsLinked where
  symmetric a b := by
    rw [(he a).2, (he b).1]
    exact h.symmetric a b
  mem_nodes {a b} hb := by
    rw [(he a).1] at hb
    exact hn (h.mem_nodes hb)
  nodup_dependencies a := by
    rw [(he a).1]
    exact h.nodup_dependencies a
  nodup_dependents a := by
    rw [(he a).2]
    exact h.nodup_dependents a

theorem IsLinked.link (h : g.IsLinked) (t s : CellId) : (g.link t s).IsLinked := by
  by_cases hts : t ∈ g.nodes ∧ s ∈ g.nodes
  · refine ⟨fun a b => ?_, fun {a b} hb => ?_, fun a => ?_, fun a => ?_⟩
    · have hab := h.symmetric a b
      rw [cell_link, cell_link, if_pos hts, if_pos hts]
      dsimp only
      split_ifs with ha hb hb <;> grind [mem_appendNew]
    · rw [cell_link, if_pos hts] at hb
      dsimp only at hb
      rw [(sameTables_link g t s).mem_nodes]
      split_ifs at hb with ha
      · rcases mem_appendNew.1 hb with hb | rfl
        · exact h.mem_nodes hb
        · exact hts.2
      · exact h.mem_nodes hb
    · rw [cell_link, if_pos hts]
      dsimp only
      split_ifs
      · exact nodup_appendNew (h.nodup_dependencies a)
      · exact h.nodup_dependencies a
    · rw [cell_link, if_pos hts]
      dsimp only
      split_ifs
      · exact nodup_appendNew (h.nodup_dependents a)
      · exact h.nodup_dependents a
  · refine h.of_sameEdges (fun hid => (sameTables_link g t s).mem_nodes.2 hid) fun k => ?_
    rw [cell_link, if_neg hts]
    exact ⟨rfl, rfl⟩

theorem IsLinked.unlinkCell (h : g.IsLinked) (id : CellId) : (g.unlinkCell id).IsLinked := by
  have hcell (k : CellId) := cell_unlinkCell (k := k) (h.nodup_dependencies id)
  refine ⟨fun a b => ?_, fun {a b} hb => ?_, fun a => ?_, fun a => ?_⟩
  · have hab := h.symmetric a b
    have hn := h.nodup_dependents a
    rw [hcell, hcell]
    dsimp only
    split_ifs with ha hb hb
    · simp [hb, hn.mem_erase_iff]
    · rw [hn.mem_erase_iff, hab]
      exact and_iff_right hb
    · subst hb
      simp [hab, ha]
    · exact hab
  · rw [hcell] at hb
    rw [(sameTables_unlinkCell g id).mem_nodes]
    dsimp only at hb
    split_ifs at hb
    · exact absurd hb List.not_mem_nil
    · exact h.mem_nodes hb
  · rw [hcell]
    dsimp only
    split_ifs
    · exact List.nodup_nil
    · exact h.nodup_dependencies a
  · rw [hcell]
    dsimp only
    split_ifs
    · exact (h.nodup_dependents a).erase id
    · exact h.nodup_dependents a

/-- A fresh cell starts without edges, and none can lead to it: its id was not minted before. -/
theorem IsLinked.addMatrix (h : g.IsLinked) (hm : g.IsMinted) (name : Text) (rows cols : Nat)
    (hr : 0 < rows) (hc : 0 < cols) : (g.addMatrix name rows cols hr hc).IsLinked := by
  refine h.of_sameEdges (fun hid => mem_nodes_addMatrix.2 (.inl hid)) fun k => ?_
  rcases cell_addMatrix_cases g name rows cols hr hc k with ⟨i, j, -, -, rfl, he⟩ | he
  · rw [he, cell_of_notMem (hm.idAt_nextBlock_notMem hr hc i j)]
    exact ⟨rfl, rfl⟩
  · rw [he]
    exact ⟨rfl, rfl⟩

/-! ### Every edit keeps the invariant -/

theorem isWellFormed_empty (stem : String) : (empty stem).IsWellFormed :=
  ⟨isMinted_empty stem, isLinked_empty stem⟩

/-- **Each edit preserves the invariant.** -/
theorem Edit.isWellFormed (he : Edit g g') (h : g.IsWellFormed) : g'.IsWellFormed := by
  cases he with
  | addMatrix name rows cols hr hc =>
    exact ⟨h.toIsMinted.addMatrix name rows cols hr hc,
      h.toIsLinked.addMatrix h.toIsMinted name rows cols hr hc⟩
  | paint id f hf =>
    have hbare (k : CellId) : ((g.modify id f).cell k).bare = (g.cell k).bare := by
      rw [cell_modify]
      split
      · exact hf _
      · rfl
    have ht := sameTables_modify g id f
    exact ⟨h.toIsMinted.of_sameTables ht (fun k => (Cell.eq_of_bare_eq (hbare k)).1)
        fun k => (Cell.eq_of_bare_eq (hbare k)).2.1,
      h.toIsLinked.of_sameEdges ht.mem_nodes.2 fun k => (Cell.eq_of_bare_eq (hbare k)).2.2⟩
  | link t s =>
    refine ⟨h.toIsMinted.of_sameTables (sameTables_link g t s) (fun k => ?_) fun k => ?_,
      h.toIsLinked.link t s⟩ <;> rw [cell_link] <;> split <;> simp
  | unlinkCell id =>
    refine ⟨h.toIsMinted.of_sameTables (sameTables_unlinkCell g id) (fun k => ?_) fun k => ?_,
      h.toIsLinked.unlinkCell id⟩ <;> simp [cell_unlinkCell (h.nodup_dependencies id)]
  | describe temporaries descriptions =>
    exact ⟨⟨h.mem_nodes_iff, h.id_cell, h.block_le, h.block_disjoint, h.place⟩,
      ⟨h.symmetric, h.mem_nodes, h.nodup_dependencies, h.nodup_dependents⟩⟩
  | clear => exact isWellFormed_empty g.stem

theorem Edits.isWellFormed (he : Edits g g') (h : g.IsWellFormed) : g'.IsWellFormed :=
  he.preserve (fun _ _ => Edit.isWellFormed) h

/-- **Every reachable graph is well-formed.** -/
theorem IsReachable.isWellFormed (h : g.IsReachable) : g.IsWellFormed :=
  h.of_edit isWellFormed_empty fun _ _ => Edit.isWellFormed

/-- **Edges are symmetric in every reachable graph.** After any run of operations an id is a
dependent of a second one exactly if the second one is a dependency of the first, whatever the two
ids are; the ids in the two lists are ids of cells, and no list holds an id twice. -/
theorem lineage_symmetric (stem : String) (operations : List Operation) :
    let g := runAll stem operations
    (∀ a b, b ∈ (g.cell a).dependents ↔ a ∈ (g.cell b).dependencies) ∧
    (∀ a b, b ∈ (g.cell a).dependencies ∨ b ∈ (g.cell a).dependents → b ∈ g.nodes) ∧
    ∀ a, (g.cell a).dependencies.Nodup ∧ (g.cell a).dependents.Nodup := by
  intro g
  have h : g.IsWellFormed := IsReachable.isWellFormed ⟨stem, operations, rfl⟩
  refine ⟨h.symmetric, fun a b hb => ?_, fun a => ⟨h.nodup_dependencies a, h.nodup_dependents a⟩⟩
  rcases hb with hb | hb
  · exact h.mem_nodes hb
  · exact (h.mem_nodes_of_mem_dependents hb).2

end CellLineage.Graph
