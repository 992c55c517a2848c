import CellLineage.Proofs.Graph.Frame

/-!
# Minted ids

Ids are minted block by block, and the number of the next one only goes up until all is dropped. So
no id is minted twice in between, and a fresh matrix takes none of the ids that are around, whether
they are still at some position or not.

`Graph.Mints` logs the ids that are minted on the way from one graph to another. The log is a list of
consecutive numbers (`Graph.Mints.ids_eq`), and every operation but those that drop all goes on with
it.

## Main definitions

* `Graph.grid?`: the ids of a matrix, row by row.
* `Graph.Mints`: the ids minted on the way from one graph to another.
* `Graph.GridsInOrder`: each position of a grid has a cell of its own.

## Main results

* `Graph.Writes.exists_mints`: steps that write mint ids.
* `Graph.grids_inOrder`: grids and ids of every reachable graph.
-/

namespace CellLineage

/-- The numbers of a block are consecutive, row by row. -/
theorem Block.map_number_positions (b : Block) :
    (b.positions.map fun p => b.number p.1 p.2) = List.range' b.first b.size := by
  have h (n : Nat) : ((List.range n).flatMap fun i => (List.range b.cols).map fun j =>
      b.number i j) = List.range' b.first (n * b.cols) := by
    induction n with
    | zero => rw [Nat.zero_mul, List.range_zero, List.flatMap_nil, List.range'_zero]
    | succ n ih =>
      have hrow : ((List.range b.cols).map fun j => b.number n j) =
          List.range' (b.first + n * b.cols) b.cols := by
        rw [List.range'_eq_map_range]
        refine List.map_congr_left fun j _ => ?_
        rw [number, Nat.add_assoc]
      rw [List.range_succ, List.flatMap_append, ih, List.flatMap_singleton, hrow,
        List.range'_append_1, Nat.succ_mul]
  rw [positions, List.map_flatMap]
  simp only [List.map_map]
  exact h b.rows

namespace Graph

/-- The ids of a matrix, row by row, if there is one of the name. -/
def grid? (g : Graph) (name : Text) : Option (List (List CellId)) :=
  g.matrices[name]?.map g.rowIds

/-- The id stands at a position of a matrix. -/
def StandsAt (g : Graph) (id : CellId) (name : Text) (i j : Nat) : Prop :=
  ∃ rows row, g.grid? name = some rows ∧ rows[i]? = some row ∧ row[j]? = some id

/-- The ids that are minted on the way from `g` to another graph, in order. Apart from making fresh
matrices, steps on the way keep the ids of cells and the number of the next one. -/
inductive Mints (g : Graph) : List CellId → Graph → Prop where
  | refl : Mints g [] g
  | mint {ids : List CellId} {g₁ : Graph} (h : Mints g ids g₁) (name : Text) (rows cols : Nat)
      (hr : 0 < rows) (hc : 0 < cols) :
      Mints g (ids ++ g₁.ids (g₁.nextBlock rows cols hr hc)) (g₁.addMatrix name rows cols hr hc)
  | step {ids : List CellId} {g₁ g₂ : Graph} (h : Mints g ids g₁) (he : Edit g₁ g₂)
      (hstem : g₂.stem = g₁.stem) (hminted : g₂.minted = g₁.minted)
      (hnodes : ∀ id, id ∈ g₂.nodes ↔ id ∈ g₁.nodes) : Mints g ids g₂

variable {g g' g₁ g₂ : Graph} {ids ids' : List CellId} {name : Text} {i j : Nat} {id : CellId}

/-! ### Positions -/

theorem standsAt_iff : g.StandsAt id name i j ↔
    ∃ b, g.matrices[name]? = some b ∧ i < b.rows ∧ j < b.cols ∧ id = g.idAt b i j := by
  constructor
  · rintro ⟨rows, row, hgrid, hrow, hid⟩
    obtain ⟨b, hb, rfl⟩ := Option.map_eq_some_iff.1 hgrid
    rw [rowIds, List.getElem?_map, Option.map_eq_some_iff] at hrow
    obtain ⟨i', hi, rfl⟩ := hrow
    rw [List.getElem?_map, Option.map_eq_some_iff] at hid
    obtain ⟨j', hj, rfl⟩ := hid
    rw [List.getElem?_eq_some_iff] at hi hj
    obtain ⟨hi, rfl⟩ := hi
    obtain ⟨hj, rfl⟩ := hj
    rw [List.length_range] at hi hj
    refine ⟨b, hb, hi, hj, ?_⟩
    rw [List.getElem_range, List.getElem_range]
  · rintro ⟨b, hb, hi, hj, rfl⟩
    refine ⟨g.rowIds b, (List.range b.cols).map fun j => g.idAt b i j, ?_, ?_, ?_⟩
    · rw [grid?, hb, Option.map_some]
    · rw [rowIds, List.getElem?_map, List.getElem?_range hi, Option.map_some]
    · rw [List.getElem?_map, List.getElem?_range hj, Option.map_some]

/-- A grid has a row, and its rows have the same positive length. -/
theorem rectangular_of_grid? {rows : List (List CellId)} (h : g.grid? name = some rows) :
    0 < rows.length ∧ ∃ n, 0 < n ∧ ∀ row ∈ rows, row.length = n := by
  obtain ⟨b, -, rfl⟩ := Option.map_eq_some_iff.1 h
  refine ⟨?_, b.cols, b.cols_pos, fun row hrow => ?_⟩
  · rw [rowIds, List.length_map, List.length_range]
    exact b.rows_pos
  · obtain ⟨i, -, rfl⟩ := List.mem_map.1 hrow
    rw [List.length_map, List.length_range]

/-- **A position knows its cell, and the cell its position.** -/
theorem IsMinted.of_standsAt (hg : g.IsMinted) (h : g.StandsAt id name i j) :
    id ∈ g.nodes ∧ (g.cell id).id = id ∧ (g.cell id).matrix = name ∧ (g.cell id).row = i ∧
      (g.cell id).col = j := by
  obtain ⟨b, hb, hi, hj, rfl⟩ := standsAt_iff.1 h
  exact ⟨hg.idAt_mem hb hi hj, hg.id_cell _, hg.place hb hi hj⟩

/-- No id stands at two positions. -/
theorem IsMinted.standsAt_inj (hg : g.IsMinted) {other : Text} {i' j' : Nat}
    (h : g.StandsAt id name i j) (h' : g.StandsAt id other i' j') :
    name = other ∧ i = i' ∧ j = j' := by
  obtain ⟨-, -, hname, hrow, hcol⟩ := hg.of_standsAt h
  obtain ⟨-, -, hname', hrow', hcol'⟩ := hg.of_standsAt h'
  refine ⟨hname.symm.trans hname', ?_, ?_⟩ <;> omega

/-! ### The log -/

theorem Mints.trans (h : g.Mints ids g₁) (h' : g₁.Mints ids' g₂) : g.Mints (ids ++ ids') g₂ := by
  induction h' with
  | refl => rwa [List.append_nil]
  | mint _ name rows cols hr hc ih =>
    rw [← List.append_assoc]
    exact ih.mint name rows cols hr hc
  | step _ he hstem hminted hnodes ih => exact ih.step he hstem hminted hnodes

theorem Mints.edits (h : g.Mints ids g') : Edits g g' := by
  induction h with
  | refl => exact .refl
  | mint _ name rows cols hr hc ih => exact ih.tail (.addMatrix _ name rows cols hr hc)
  | step _ he _ _ _ ih => exact ih.tail he

/-- **The log is a list of consecutive numbers**, from the number of the next id on. -/
theorem Mints.ids_eq (h : g.Mints ids g') : g'.stem = g.stem ∧ g.minted ≤ g'.minted ∧
    ids = (List.range' g.minted (g'.minted - g.minted)).map g.cellId := by
  induction h with
  | refl =>
    refine ⟨rfl, Nat.le_refl _, ?_⟩
    rw [Nat.sub_self, List.range'_zero, List.map_nil]
  | @mint ids g₁ _ name rows cols hr hc ih =>
    obtain ⟨hstem, hle, hids⟩ := ih
    have hblock : g₁.ids (g₁.nextBlock rows cols hr hc) =
        (List.range' g₁.minted (rows * cols)).map g.cellId := by
      have hnumbers := congrArg (List.map g₁.cellId)
        (g₁.nextBlock rows cols hr hc).map_number_positions
      rw [List.map_map] at hnumbers
      have hcellId : g₁.cellId = g.cellId := by
        funext k
        simp only [cellId, hstem]
      rw [← hcellId]
      exact hnumbers
    refine ⟨stem_addMatrix.trans hstem, ?_, ?_⟩
    · rw [minted_addMatrix]
      omega
    · have hfrom : g₁.minted = g.minted + (g₁.minted - g.minted) := by omega
      have hlen : g₁.minted + rows * cols - g.minted = g₁.minted - g.minted + rows * cols := by
        omega
      rw [hblock, hids, ← List.map_append, minted_addMatrix, hlen, ← List.range'_append_1, ← hfrom]
  | step _ _ hstem hminted _ ih =>
    rw [hstem, hminted]
    exact ih

/-- **No id is minted twice**, and none is minted that a cell has. -/
theorem Mints.fresh (h : g.Mints ids g') (hg : g.IsMinted) : ids.Nodup ∧
    (∀ id ∈ ids, id ∉ g.nodes) ∧ ∀ id, id ∈ g'.nodes ↔ id ∈ g.nodes ∨ id ∈ ids := by
  have hids := h.ids_eq.2.2
  refine ⟨?_, fun id hid hmem => ?_, ?_⟩
  · rw [hids]
    exact List.Nodup.map (fun k k' hk => cellId_inj.1 hk) List.nodup_range'
  · rw [hids, List.mem_map] at hid
    obtain ⟨k, hk, rfl⟩ := hid
    obtain ⟨k', hk', he⟩ := (hg.mem_nodes_iff _).1 hmem
    obtain rfl := cellId_inj.1 he
    rw [List.mem_range'_1] at hk
    omega
  · clear hids
    induction h with
    | refl => simp
    | @mint ids g₁ h' name rows cols hr hc ih =>
      intro id
      have hblock : id ∈ g₁.ids (g₁.nextBlock rows cols hr hc) ↔
          ∃ i j, i < rows ∧ j < cols ∧ id = g₁.idAt (g₁.nextBlock rows cols hr hc) i j := by
        simp only [Graph.ids, List.mem_map, Prod.exists, Block.mem_positions, and_assoc,
          eq_comm (b := id)]
        rfl
      rw [mem_nodes_addMatrix, ih, List.mem_append, hblock, or_assoc]
    | step _ _ _ _ hnodes ih => exact fun id => (hnodes id).trans (ih id)

/-! ### What operations mint -/

theorem Fills.mints {targets sources : Set CellId} (h : Fills targets sources g₁ g₂)
    (h₁ : g.Mints ids g₁) : g.Mints ids g₂ := by
  induction h with
  | refl => exact h₁
  | tail _ h ih =>
    have ht := h.sameTables
    exact ih.step h.edit ht.stem ht.minted fun _ => ht.mem_nodes

/-- **Steps that write** mint ids and drop nothing. -/
theorem Writes.exists_mints {names : Set Text} (h : Writes names g g') :
    ∃ ids, g.Mints ids g' := by
  induction h with
  | refl => exact ⟨[], .refl⟩
  | @tail g₁ g₂ _ hw ih =>
    obtain ⟨ids, hids⟩ := ih
    cases hw with
    | make hname h =>
      cases h with
      | anew h => exact ⟨_, Fills.mints h (hids.mint _ _ _ _ _)⟩
      | inPlace hb h => exact ⟨ids, Fills.mints h hids⟩
    | describe temporaries descriptions =>
      exact ⟨ids, hids.step (.describe g₁ temporaries descriptions) rfl rfl fun _ => Iff.rfl⟩

/-- An operation goes on with the log, or it starts a new one after all was dropped. -/
theorem exists_mints_apply (g : Graph) (op : Operation) :
    ∃ ids, g.Mints ids (op.apply g) ∨ op.Drops ∧ g.clear.Mints ids (op.apply g) := by
  rcases apply_cases g op with h | ⟨target, source, rfl⟩ | ⟨hop, h⟩
  · obtain ⟨ids, h⟩ := h.exists_mints
    exact ⟨ids, .inl h⟩
  · have ht := sameTables_link g target source
    exact ⟨[], .inl (Mints.refl.step (.link g target source) ht.stem ht.minted
      fun _ => ht.mem_nodes)⟩
  · obtain ⟨ids, h⟩ := h.exists_mints
    exact ⟨ids, .inr ⟨hop, h⟩⟩

/-- Operations, one after another, go on with a log that starts at a graph without cells, or with
another one that does. -/
theorem exists_mints_foldl {stem : String} (operations : List Operation)
    (h : (empty stem).Mints ids g) :
    ∃ ids', (empty stem).Mints ids' (operations.foldl Operation.apply g) := by
  induction operations generalizing ids g with
  | nil => exact ⟨ids, h⟩
  | cons op operations ih =>
    obtain ⟨ids', h' | ⟨-, h'⟩⟩ := exists_mints_apply g op
    · exact ih (h.trans h')
    · have hclear : g.clear = empty stem := congrArg empty h.ids_eq.1
      rw [hclear] at h'
      exact ih h'

/-! ### Grids of reachable graphs -/

/-- The grids are rectangular and have a cell, and each position has a cell of its own that knows
where it stands. -/
structure GridsInOrder (g : Graph) : Prop where
  rectangular : ∀ name rows, g.grid? name = some rows →
    0 < rows.length ∧ ∃ n, 0 < n ∧ ∀ row ∈ rows, row.length = n
  place : ∀ id name i j, g.StandsAt id name i j →
    id ∈ g.nodes ∧ (g.cell id).id = id ∧ (g.cell id).matrix = name ∧ (g.cell id).row = i ∧
      (g.cell id).col = j
  injective : ∀ id name i j other i' j', g.StandsAt id name i j → g.StandsAt id other i' j' →
    name = other ∧ i = i' ∧ j = j'

theorem IsMinted.gridsInOrder (hg : g.IsMinted) : g.GridsInOrder where
  rectangular _ _ := rectangular_of_grid?
  place _ _ _ _ := hg.of_standsAt
  injective _ _ _ _ _ _ _ := hg.standsAt_inj

/-- A matrix made by name has none of the ids that were there. -/
theorem IsMinted.notMem_of_initMatrix (hg : g.IsMinted) {rows cols : Int}
    (h : g.initMatrix name rows cols = .ok g') (hid : g'.StandsAt id name i j) : id ∉ g.nodes := by
  unfold initMatrix at h
  split at h
  · cases h
    obtain ⟨b, hb, -, -, rfl⟩ := standsAt_iff.1 hid
    rw [matrices_addMatrix, if_pos rfl] at hb
    cases hb
    rw [idAt_addMatrix]
    exact hg.idAt_nextBlock_notMem _ _ _ _
  · cases h

/-- **Grids and ids of every reachable graph.** After any run of operations the grids are in order,
and the ids of cells have numbers below that of the next one. The ids were minted, each once, since
all was last dropped, and any operation mints others than these, or drops all. A matrix that is made
anew has none of the ids that were there. Also at any point of what happens next the grids are in
order, and a matrix that was just made ready is there and has the shape that was asked for. -/
theorem grids_inOrder (stem : String) (operations : List Operation) :
    let g := runAll stem operations
    g.GridsInOrder ∧
    (∀ id ∈ g.nodes, ∃ k < g.minted, id = stem ++ "_" ++ toString k) ∧
    (∃ ids, (empty stem).Mints ids g ∧ ids.Nodup ∧ (∀ id, id ∈ g.nodes ↔ id ∈ ids) ∧
      ∀ op : Operation, ∃ ids',
        g.Mints ids' (op.apply g) ∧ (ids ++ ids').Nodup ∨
        op.Drops ∧ (empty stem).Mints ids' (op.apply g) ∧ ids'.Nodup) ∧
    (∀ name rows cols g', g.initMatrix name rows cols = .ok g' →
      ∀ id i j, g'.StandsAt id name i j → id ∉ g.nodes) ∧
    ∀ h, Edits g h → h.GridsInOrder ∧ ∀ name rows cols (hr : 0 < rows) (hc : 0 < cols),
      (h.prepare name rows cols hr hc).shape? name = some (rows, cols) ∧
      (h.addMatrix name rows cols hr hc).shape? name = some (rows, cols) := by
  intro g
  have hg : g.IsWellFormed := IsReachable.isWellFormed ⟨stem, operations, rfl⟩
  have hempty := isMinted_empty stem
  obtain ⟨ids, hids⟩ := exists_mints_foldl operations (Mints.refl (g := empty stem))
  have hids : (empty stem).Mints ids g := hids
  have hstem : g.stem = stem := hids.ids_eq.1
  obtain ⟨hnodup, -, hnodes⟩ := hids.fresh hempty
  refine ⟨hg.toIsMinted.gridsInOrder, fun id hid => ?_, ⟨ids, hids, hnodup, fun id => ?_,
    fun op => ?_⟩, fun name rows cols g' h id i j => hg.toIsMinted.notMem_of_initMatrix h,
    fun h hh => ⟨(hh.isWellFormed hg).toIsMinted.gridsInOrder, fun name rows cols hr hc => ?_⟩⟩
  · obtain ⟨k, hk, rfl⟩ := (hg.mem_nodes_iff id).1 hid
    exact ⟨k, hk, by rw [cellId, hstem]⟩
  · rw [hnodes]
    simp [empty]
  · obtain ⟨ids', h' | ⟨hop, h'⟩⟩ := exists_mints_apply g op
    · exact ⟨ids', .inl ⟨h', ((hids.trans h').fresh hempty).1⟩⟩
    · have hclear : g.clear = empty stem := congrArg empty hstem
      rw [hclear] at h'
      exact ⟨ids', .inr ⟨hop, h', (h'.fresh hempty).1⟩⟩
  · obtain ⟨b, hb, hrow, hcol, -⟩ := h.prepare_spec name hr hc
    refine ⟨?_, ?_⟩
    · rw [shape?, hb, Option.map_some, Block.shape, hrow, hcol]
    · rw [shape?, matrices_addMatrix, if_pos rfl]
      rfl

end Graph

end CellLineage
