import CellLineage.Graph.Product
import CellLineage.Graph.Snapshot
import CellLineage.Graph.Transfer
import Mathlib.Data.List.Nodup
import Mathlib.Tactic.SplitIfs

/-!
# Looking up cells after a change

Each elementary change of a graph is described here by what a look-up of a cell gives afterwards:
changing a cell, minting the cells of a block, recording one edge and forgetting the edges that lead
into a cell. Later modules use these equations and unfold none of the operations.

## Main results

* `Graph.cellId_inj`: ids with different numbers are different.
* `Graph.idAt?_eq_some_iff`: the ids at the positions of a matrix.
* `Graph.cell_modify`, `Graph.cell_addMatrix`, `Graph.cell_link`, `Graph.cell_unlinkCell`: the cells
  after each elementary change.
-/

namespace CellLineage

/-! ### Numbers as text -/

/-- Different numbers are shown differently. -/
theorem toString_nat_inj {m n : Nat} : toString m = toString n ↔ m = n := by
  refine ⟨fun h => ?_, congrArg _⟩
  have hd : Nat.toDigits 10 m = Nat.toDigits 10 n := by
    rw [Nat.toString_eq_repr, Nat.toString_eq_repr] at h
    simpa only [Nat.repr, String.toList_ofList] using congrArg String.toList h
  rw [← Nat.ofDigitChars_ten_toDigits (n := m), hd, Nat.ofDigitChars_ten_toDigits]

/-- The cell `c` with what is painted on the cell `s`; the colour index is left out if so asked. -/
def Cell.paintOnto (withIndex : Bool) (s c : Cell) : Cell :=
  { c with
    value := s.value
    color := s.color
    colorIndex := if withIndex then s.colorIndex else c.colorIndex
    isIdentity := s.isIdentity }

namespace Block

variable {b : Block} {i j i' j' : Nat}

theorem number_lt (hi : i < b.rows) (hj : j < b.cols) : b.number i j < b.first + b.size := by
  have h : (i + 1) * b.cols ≤ b.rows * b.cols := Nat.mul_le_mul_right _ hi
  rw [Nat.succ_mul] at h
  simp only [number, size]
  omega

theorem first_le_number : b.first ≤ b.number i j :=
  Nat.le_add_right _ _

/-- Each cell of a block has a number of its own. -/
theorem number_inj (hj : j < b.cols) (hj' : j' < b.cols)
    (h : b.number i j = b.number i' j') : i = i' ∧ j = j' := by
  have h : i * b.cols + j = i' * b.cols + j' := Nat.add_left_cancel h
  have hc := b.cols_pos
  have hi : i = i' := by
    have h₁ : (i * b.cols + j) / b.cols = i := by
      rw [Nat.mul_comm, Nat.mul_add_div hc, Nat.div_eq_of_lt hj, Nat.add_zero]
    have h₂ : (i' * b.cols + j') / b.cols = i' := by
      rw [Nat.mul_comm, Nat.mul_add_div hc, Nat.div_eq_of_lt hj', Nat.add_zero]
    rw [← h₁, h, h₂]
  subst hi
  exact ⟨rfl, by omega⟩

/-- Every number of a block is that of a position. -/
theorem exists_number {k : Nat} (h : b.first ≤ k) (h' : k < b.first + b.size) :
    ∃ i j, i < b.rows ∧ j < b.cols ∧ k = b.number i j := by
  have hc := b.cols_pos
  refine ⟨(k - b.first) / b.cols, (k - b.first) % b.cols, ?_, Nat.mod_lt _ hc, ?_⟩
  · rw [Nat.div_lt_iff_lt_mul hc]
    simp only [size] at h'
    omega
  · have := Nat.div_add_mod (k - b.first) b.cols
    simp only [number]
    rw [Nat.mul_comm] at this
    omega

theorem nodup_positions (b : Block) : b.positions.Nodup := by
  unfold positions
  rw [List.nodup_flatMap]
  refine ⟨fun i _ => ?_, ?_⟩
  · exact (List.nodup_range).map fun j j' h => by simpa using h
  · refine List.Pairwise.imp (fun {i i'} h => ?_) List.nodup_range
    simp only [Function.onFun, List.disjoint_left, List.mem_map, not_exists, not_and]
    rintro _ ⟨j, _, rfl⟩ j' _ hj
    exact h (congrArg Prod.fst hj).symm

end Block

namespace Graph

variable {g : Graph} {id k : CellId}

theorem cellId_inj {m n : Nat} : g.cellId m = g.cellId n ↔ m = n := by
  unfold cellId
  rw [String.append_right_inj, toString_nat_inj]

/-- Each position of a block has an id of its own. -/
theorem idAt_inj {b : Block} {i j i' j' : Nat} (hj : j < b.cols) (hj' : j' < b.cols) :
    g.idAt b i j = g.idAt b i' j' ↔ i = i' ∧ j = j' := by
  refine ⟨fun h => b.number_inj hj hj' (cellId_inj.1 h), ?_⟩
  rintro ⟨rfl, rfl⟩
  rfl

/-! ### Cells by their position -/

section

variable {name : Text} {b : Block} {i j : Nat}

theorem hasMatrix_eq (g : Graph) (name : Text) : g.hasMatrix name = (g.shape? name).isSome := by
  rw [hasMatrix, shape?, Option.isSome_map, Std.ExtTreeMap.contains_eq_isSome_getElem?]

theorem idAt?_of_lt (hb : g.matrices[name]? = some b) (hi : i < b.rows) (hj : j < b.cols) :
    g.idAt? name i j = some (g.idAt b i j) := by
  have hij : (0 : Int) ≤ i ∧ (i : Int) < b.rows ∧ (0 : Int) ≤ j ∧ (j : Int) < b.cols := by omega
  rw [idAt?, hb]
  simp only [if_pos hij, Int.toNat_natCast]

theorem idAt?_of_not_lt (hb : g.matrices[name]? = some b) (h : ¬(i < b.rows ∧ j < b.cols)) :
    g.idAt? name i j = none := by
  have hij : ¬((0 : Int) ≤ i ∧ (i : Int) < b.rows ∧ (0 : Int) ≤ j ∧ (j : Int) < b.cols) := by omega
  rw [idAt?, hb]
  simp only [if_neg hij]

theorem idAt?_of_missing (h : g.matrices[name]? = none) (row col : Int) :
    g.idAt? name row col = none := by
  rw [idAt?, h]

theorem idAt?_eq_some_iff : g.idAt? name i j = some id ↔
    ∃ b, g.matrices[name]? = some b ∧ i < b.rows ∧ j < b.cols ∧ g.idAt b i j = id := by
  constructor
  · intro h
    cases hb : g.matrices[name]? with
    | none =>
      rw [idAt?_of_missing hb] at h
      cases h
    | some b =>
      by_cases hij : i < b.rows ∧ j < b.cols
      · rw [idAt?_of_lt hb hij.1 hij.2, Option.some.injEq] at h
        exact ⟨b, rfl, hij.1, hij.2, h⟩
      · rw [idAt?_of_not_lt hb hij] at h
        cases h
  · rintro ⟨b, hb, hi, hj, rfl⟩
    exact idAt?_of_lt hb hi hj

theorem cellAt?_of_lt (hb : g.matrices[name]? = some b) (hi : i < b.rows) (hj : j < b.cols) :
    g.cellAt? name i j = some (g.cell (g.idAt b i j)) := by
  rw [cellAt?, idAt?_of_lt hb hi hj, Option.map_some]

theorem cellAt?_of_not_lt (hb : g.matrices[name]? = some b) (h : ¬(i < b.rows ∧ j < b.cols)) :
    g.cellAt? name i j = none := by
  rw [cellAt?, idAt?_of_not_lt hb h, Option.map_none]

theorem cellAt?_of_missing (h : g.matrices[name]? = none) (row col : Int) :
    g.cellAt? name row col = none := by
  rw [cellAt?, idAt?_of_missing h, Option.map_none]

end

/-! ### Changing a cell -/

theorem cell_of_notMem (h : id ∉ g.nodes) : g.cell id = .blank id "" 0 0 := by
  rw [cell, Std.ExtTreeMap.getD_eq_fallback h]

@[simp] theorem mem_nodes_modify {f : Cell → Cell} : k ∈ (g.modify id f).nodes ↔ k ∈ g.nodes :=
  Std.ExtTreeMap.mem_modify

theorem cell_modify (g : Graph) (id : CellId) (f : Cell → Cell) (k : CellId) :
    (g.modify id f).cell k = if k = id ∧ id ∈ g.nodes then f (g.cell k) else g.cell k := by
  unfold cell modify
  simp only [Std.ExtTreeMap.getD_eq_getD_getElem?, Std.ExtTreeMap.getElem?_modify,
    Std.LawfulEqCmp.compare_eq_iff_eq]
  by_cases hk : id = k
  · subst hk
    by_cases hm : id ∈ g.nodes
    · simp [hm]
    · simp [hm]
  · simp [hk, Ne.symm hk]

/-! ### Changing cells only -/

/-- The two graphs differ in their cells only, and they have cells of the same ids. -/
structure SameTables (g g' : Graph) : Prop where
  stem : g'.stem = g.stem
  minted : g'.minted = g.minted
  matrices : g'.matrices = g.matrices
  temporaries : g'.temporaries = g.temporaries
  descriptions : g'.descriptions = g.descriptions
  mem_nodes : ∀ {id}, id ∈ g'.nodes ↔ id ∈ g.nodes

namespace SameTables

variable {g₁ g₂ g₃ : Graph}

theorem refl (g : Graph) : g.SameTables g :=
  ⟨rfl, rfl, rfl, rfl, rfl, Iff.rfl⟩

theorem trans (h : g₁.SameTables g₂) (h' : g₂.SameTables g₃) : g₁.SameTables g₃ :=
  ⟨h'.stem.trans h.stem, h'.minted.trans h.minted, h'.matrices.trans h.matrices,
    h'.temporaries.trans h.temporaries, h'.descriptions.trans h.descriptions,
    h'.mem_nodes.trans h.mem_nodes⟩

theorem idAt_eq (h : g₁.SameTables g₂) (b : Block) (i j : Nat) : g₂.idAt b i j = g₁.idAt b i j := by
  simp only [idAt, cellId, h.stem]

theorem idAt?_eq (h : g₁.SameTables g₂) (name : Text) (row col : Int) :
    g₂.idAt? name row col = g₁.idAt? name row col := by
  simp only [idAt?, h.matrices, h.idAt_eq]

theorem foldl {α : Type} {f : Graph → α → Graph} (hf : ∀ (g : Graph) a, g.SameTables (f g a))
    (as : List α) (g : Graph) : g.SameTables (as.foldl f g) := by
  induction as generalizing g with
  | nil => exact refl g
  | cons a as ih => exact (hf g a).trans (ih (f g a))

end SameTables

theorem sameTables_modify (g : Graph) (id : CellId) (f : Cell → Cell) :
    g.SameTables (g.modify id f) :=
  ⟨rfl, rfl, rfl, rfl, rfl, mem_nodes_modify⟩

/-! ### Minting a block -/

@[simp] theorem mem_nodes_addCell {c : Cell} :
    k ∈ (g.addCell c).nodes ↔ k = c.id ∨ k ∈ g.nodes := by
  simp only [addCell, Std.ExtTreeMap.mem_insert, Std.LawfulEqCmp.compare_eq_iff_eq]
  rw [eq_comm]

theorem cell_addCell (g : Graph) (c : Cell) (k : CellId) :
    (g.addCell c).cell k = if k = c.id then c else g.cell k := by
  simp only [cell, addCell, Std.ExtTreeMap.getD_insert, Std.LawfulEqCmp.compare_eq_iff_eq]
  by_cases hk : c.id = k
  · simp [hk]
  · simp [hk, Ne.symm hk]

/-- The graph with blank cells at some positions of a block. -/
private def addBlanksAt (g : Graph) (name : Text) (b : Block) (ps : List (Nat × Nat)) : Graph :=
  ps.foldl (fun g p => g.addCell (.blank (g.cellId (b.number p.1 p.2)) name p.1 p.2)) g

private theorem addBlanksAt_eq (g : Graph) (name : Text) (b : Block) (ps : List (Nat × Nat)) :
    g.addBlanksAt name b ps = { g with nodes := (g.addBlanksAt name b ps).nodes } := by
  induction ps generalizing g with
  | nil => rfl
  | cons p ps ih =>
    have h := ih (g.addCell (.blank (g.cellId (b.number p.1 p.2)) name p.1 p.2))
    simpa only [addBlanksAt, List.foldl_cons, addCell] using h

private theorem mem_nodes_addBlanksAt (name : Text) (b : Block) (ps : List (Nat × Nat)) :
    k ∈ (g.addBlanksAt name b ps).nodes ↔ k ∈ g.nodes ∨ ∃ p ∈ ps, k = g.idAt b p.1 p.2 := by
  induction ps generalizing g with
  | nil => simp [addBlanksAt]
  | cons p ps ih =>
    have h := ih (g := g.addCell (.blank (g.cellId (b.number p.1 p.2)) name p.1 p.2))
    simp only [addBlanksAt, List.foldl_cons] at h ⊢
    rw [h, mem_nodes_addCell, List.exists_mem_cons_iff]
    simp only [Cell.blank, idAt, cellId, addCell]
    tauto

private theorem cell_addBlanksAt_of_ne (name : Text) {b : Block} {ps : List (Nat × Nat)}
    (h : ∀ p ∈ ps, k ≠ g.idAt b p.1 p.2) : (g.addBlanksAt name b ps).cell k = g.cell k := by
  induction ps generalizing g with
  | nil => rfl
  | cons p ps ih =>
    have h₀ := ih (g := g.addCell (.blank (g.cellId (b.number p.1 p.2)) name p.1 p.2))
      fun q hq => h q (List.mem_cons_of_mem p hq)
    simp only [addBlanksAt, List.foldl_cons] at h₀ ⊢
    rw [h₀, cell_addCell, if_neg]
    exact h p List.mem_cons_self

private theorem cell_addBlanksAt {name : Text} {b : Block} {ps : List (Nat × Nat)} {i j : Nat}
    (hps : ps.Nodup) (hc : ∀ p ∈ ps, p.2 < b.cols) (h : (i, j) ∈ ps) :
    (g.addBlanksAt name b ps).cell (g.idAt b i j) = .blank (g.idAt b i j) name i j := by
  induction ps generalizing g with
  | nil => cases h
  | cons p ps ih =>
    have hps := List.nodup_cons.1 hps
    rcases List.mem_cons.1 h with rfl | h
    · have h₀ : ∀ q ∈ ps, g.idAt b i j ≠ g.idAt b q.1 q.2 := fun q hq he => by
        obtain ⟨rfl, rfl⟩ := (idAt_inj (hc _ List.mem_cons_self)
          (hc q (List.mem_cons_of_mem _ hq))).1 he
        exact hps.1 hq
      have h := cell_addBlanksAt_of_ne name
        (g := g.addCell (.blank (g.cellId (b.number i j)) name i j)) h₀
      simp only [addBlanksAt, List.foldl_cons] at h ⊢
      refine h.trans ?_
      rw [cell_addCell]
      exact if_pos rfl
    · exact ih hps.2 (fun q hq => hc q (List.mem_cons_of_mem _ hq)) h

/-- The block of a matrix that is made next. -/
def nextBlock (g : Graph) (rows cols : Nat) (hr : 0 < rows) (hc : 0 < cols) : Block :=
  ⟨g.minted, rows, cols, hr, hc⟩

section

variable {name : Text} {rows cols : Nat} {hr : 0 < rows} {hc : 0 < cols} {i j : Nat}

/-- A fresh matrix changes the cells, the count of ids and one place of the table of matrices. -/
private theorem addMatrix_eq : g.addMatrix name rows cols hr hc =
    { g with
      nodes := (g.addMatrix name rows cols hr hc).nodes
      minted := g.minted + rows * cols
      matrices := g.matrices.insert name (g.nextBlock rows cols hr hc) } := by
  have h := g.addBlanksAt_eq name (g.nextBlock rows cols hr hc)
    (g.nextBlock rows cols hr hc).positions
  unfold addMatrix addBlanks
  unfold addBlanksAt at h
  simp only [nextBlock] at h ⊢
  rw [h]
  rfl

@[simp] theorem stem_addMatrix : (g.addMatrix name rows cols hr hc).stem = g.stem := by
  rw [addMatrix_eq]

@[simp] theorem minted_addMatrix :
    (g.addMatrix name rows cols hr hc).minted = g.minted + rows * cols := by
  rw [addMatrix_eq]

@[simp] theorem temporaries_addMatrix :
    (g.addMatrix name rows cols hr hc).temporaries = g.temporaries := by
  rw [addMatrix_eq]

@[simp] theorem descriptions_addMatrix :
    (g.addMatrix name rows cols hr hc).descriptions = g.descriptions := by
  rw [addMatrix_eq]

theorem matrices_addMatrix (other : Text) : (g.addMatrix name rows cols hr hc).matrices[other]? =
    if name = other then some (g.nextBlock rows cols hr hc) else g.matrices[other]? := by
  rw [addMatrix_eq]
  simp only [Std.ExtTreeMap.getElem?_insert, Std.LawfulEqCmp.compare_eq_iff_eq]

@[simp] theorem idAt_addMatrix (b : Block) :
    (g.addMatrix name rows cols hr hc).idAt b i j = g.idAt b i j := by
  simp only [idAt, cellId, stem_addMatrix]

theorem mem_nodes_addMatrix : k ∈ (g.addMatrix name rows cols hr hc).nodes ↔
    k ∈ g.nodes ∨ ∃ i j, i < rows ∧ j < cols ∧ k = g.idAt (g.nextBlock rows cols hr hc) i j := by
  have h := mem_nodes_addBlanksAt (g := g) (k := k) name (g.nextBlock rows cols hr hc)
    (g.nextBlock rows cols hr hc).positions
  refine h.trans (or_congr_right ?_)
  simp only [Prod.exists, Block.mem_positions, and_assoc]
  rfl

theorem cell_addMatrix_of_ne
    (h : ∀ i j, i < rows → j < cols → k ≠ g.idAt (g.nextBlock rows cols hr hc) i j) :
    (g.addMatrix name rows cols hr hc).cell k = g.cell k := by
  refine cell_addBlanksAt_of_ne name fun p hp => ?_
  rw [Block.mem_positions] at hp
  exact h p.1 p.2 hp.1 hp.2

theorem cell_addMatrix (hi : i < (g.nextBlock rows cols hr hc).rows)
    (hj : j < (g.nextBlock rows cols hr hc).cols) :
    (g.addMatrix name rows cols hr hc).cell (g.idAt (g.nextBlock rows cols hr hc) i j) =
      .blank (g.idAt (g.nextBlock rows cols hr hc) i j) name i j := by
  refine cell_addBlanksAt (Block.nodup_positions _) (fun p hp => ?_) ?_
  · rw [Block.mem_positions] at hp
    exact hp.2
  · rw [Block.mem_positions]
    exact ⟨hi, hj⟩

end

/-- A cell after a fresh matrix was made is one of it, or as it was before. -/
theorem cell_addMatrix_cases (g : Graph) (name : Text) (rows cols : Nat) (hr : 0 < rows)
    (hc : 0 < cols) (id : CellId) :
    (∃ i j, i < rows ∧ j < cols ∧ id = g.idAt (g.nextBlock rows cols hr hc) i j ∧
      (g.addMatrix name rows cols hr hc).cell id = .blank id name i j) ∨
    (g.addMatrix name rows cols hr hc).cell id = g.cell id := by
  by_cases h : ∃ i j, i < rows ∧ j < cols ∧ id = g.idAt (g.nextBlock rows cols hr hc) i j
  · obtain ⟨i, j, hi, hj, rfl⟩ := h
    exact .inl ⟨i, j, hi, hj, rfl, cell_addMatrix hi hj⟩
  · exact .inr (cell_addMatrix_of_ne fun i j hi hj he => h ⟨i, j, hi, hj, he⟩)

/-! ### Edges -/

theorem sameTables_link (g : Graph) (t s : CellId) : g.SameTables (g.link t s) := by
  unfold link
  split
  · exact (sameTables_modify g t _).trans (sameTables_modify _ s _)
  · exact .refl g

/-- An edge between two cells of the graph is recorded on both ends, any other one nowhere. -/
theorem cell_link (g : Graph) (t s k : CellId) :
    (g.link t s).cell k =
      if t ∈ g.nodes ∧ s ∈ g.nodes then
        { g.cell k with
          dependencies := if k = t then appendNew (g.cell k).dependencies s
            else (g.cell k).dependencies
          dependents := if k = s then appendNew (g.cell k).dependents t
            else (g.cell k).dependents }
      else g.cell k := by
  unfold link
  simp only [Bool.and_eq_true, Std.ExtTreeMap.contains_iff_mem]
  by_cases h : t ∈ g.nodes ∧ s ∈ g.nodes
  · rw [if_pos h, if_pos h, cell_modify, cell_modify]
    simp only [mem_nodes_modify, h.1, h.2, and_true]
    split_ifs <;> rfl
  · rw [if_neg h, if_neg h]

theorem cell_foldl_modify {ids : List CellId} (hids : ids.Nodup) (f : Cell → Cell) :
    (ids.foldl (fun g id => g.modify id f) g).cell k =
      if k ∈ ids ∧ k ∈ g.nodes then f (g.cell k) else g.cell k := by
  induction ids generalizing g with
  | nil => simp
  | cons id ids ih =>
    obtain ⟨hid, hids⟩ := List.nodup_cons.1 hids
    rw [List.foldl_cons, ih hids, cell_modify]
    by_cases hk : k = id
    · subst hk
      simp [hid]
    · simp [hk]

theorem sameTables_foldl_modify (g : Graph) (ids : List CellId) (f : Cell → Cell) :
    g.SameTables (ids.foldl (fun g id => g.modify id f) g) :=
  .foldl (fun g id => sameTables_modify g id f) ids g

theorem sameTables_unlinkCell (g : Graph) (id : CellId) : g.SameTables (g.unlinkCell id) :=
  (sameTables_foldl_modify g _ _).trans (sameTables_modify _ id _)

/-- Forgetting what a cell was derived from changes only the other ends of edges elsewhere. -/
theorem exists_cell_unlinkCell (g : Graph) (id k : CellId) :
    ∃ ds, (g.unlinkCell id).cell k =
      { g.cell k with
        dependencies := if k = id then [] else (g.cell k).dependencies
        dependents := ds } := by
  have hfold (ids : List CellId) (g : Graph) : ∃ ds, (ids.foldl (fun g source =>
      g.modify source fun c => { c with dependents := c.dependents.erase id }) g).cell k =
        { g.cell k with dependents := ds } := by
    induction ids generalizing g with
    | nil => exact ⟨(g.cell k).dependents, rfl⟩
    | cons source ids ih =>
      obtain ⟨ds, hds⟩ := ih (g.modify source fun c =>
        { c with dependents := c.dependents.erase id })
      refine ⟨ds, hds.trans ?_⟩
      rw [cell_modify]
      split <;> rfl
  obtain ⟨ds, hds⟩ := hfold (g.cell id).dependencies g
  refine ⟨ds, ?_⟩
  unfold unlinkCell
  rw [cell_modify, hds]
  simp only [(sameTables_foldl_modify ..).mem_nodes]
  by_cases hk : k = id
  · subst hk
    by_cases hmem : k ∈ g.nodes
    · simp [hmem]
    · simp [hmem, cell_of_notMem, Cell.blank]
  · simp [hk]

/-- Forgetting what a cell was derived from takes the edge away on the other end too. -/
theorem cell_unlinkCell (h : (g.cell id).dependencies.Nodup) :
    (g.unlinkCell id).cell k =
      { g.cell k with
        dependencies := if k = id then [] else (g.cell k).dependencies
        dependents := if k ∈ (g.cell id).dependencies then (g.cell k).dependents.erase id
          else (g.cell k).dependents } := by
  unfold unlinkCell
  rw [cell_modify, cell_foldl_modify h]
  simp only [(sameTables_foldl_modify ..).mem_nodes]
  by_cases hk : k ∈ g.nodes
  · by_cases hid : k = id
    · subst hid
      by_cases hs : k ∈ (g.cell k).dependencies <;> simp [hk, hs]
    · by_cases hs : k ∈ (g.cell id).dependencies <;> simp [hk, hid, hs]
  · by_cases hid : k = id
    · subst hid
      simp [hk, cell_of_notMem, Cell.blank]
    · simp [hk, hid, cell_of_notMem, Cell.blank]

/-! ### Writing one cell from another one -/

/-- A cell is written in three steps: it is painted, the edge from the source is recorded if so
asked, and then the edges into the source are taken over. -/
theorem transferCell_eq (g : Graph) (withIndex withSelf : Bool) (source target : CellId) :
    g.transferCell withIndex withSelf source target =
      let g₁ := g.modify target ((g.cell source).paintOnto withIndex)
      let g₂ := if withSelf then g₁.link target source else g₁
      g₂.linkAll target (g₂.cell source).dependencies :=
  rfl

end Graph

end CellLineage
