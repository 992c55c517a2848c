import CellLineage.Graph.View
import CellLineage.Proofs.Graph.Invariant

/-!
# The sparse form of a matrix

The nonzero cells of a matrix are listed row after row in one run of slots. The offsets are the
running sums of the lengths of the rows, so the slots between two neighbouring offsets are those of
one row (`Sparse.row_ofRows`), also where rows are empty. Nothing but the zero cells is lost: the
positions and ids of all others can be read off the lists again (`Sparse.entries`). The colours run
along the same slots.

## Main definitions

* `Sparse.row`: the part of a list over the slots that belongs to a row.
* `Sparse.entries`: the positions and ids that a sparse form lists.
* `Graph.Encodes`: a sparse form is that of a block.
* `Graph.ShownIn`: the colours that a cell is shown in.

## Main results

* `Sparse.row_ofRows`: cutting at the offsets gives the rows back.
* `Graph.shownIn_colors`: which colours those of a cell are.
* `Graph.sparse_encodes`: the sparse form and the colours of a matrix.
-/

namespace CellLineage

/-! ### Running sums -/

@[simp] theorem length_runningSums (start : Nat) (ns : List Nat) :
    (runningSums start ns).length = ns.length + 1 := by
  induction ns generalizing start with
  | nil => rfl
  | cons n ns ih => rw [runningSums, List.length_cons, ih, List.length_cons]

/-- At each place there is the sum of all that comes before it. -/
theorem getElem?_runningSums {start i : Nat} {ns : List Nat} (h : i ≤ ns.length) :
    (runningSums start ns)[i]? = some (start + (ns.take i).sum) := by
  induction ns generalizing start i with
  | nil =>
    obtain rfl := Nat.le_zero.1 h
    rfl
  | cons n ns ih =>
    cases i with
    | zero => rfl
    | succ i =>
      rw [runningSums, List.getElem?_cons_succ, ih (Nat.le_of_succ_le_succ h), List.take_succ_cons,
        List.sum_cons, Nat.add_assoc]

theorem le_of_mem_runningSums {start m : Nat} {ns : List Nat} (h : m ∈ runningSums start ns) :
    start ≤ m := by
  induction ns generalizing start with
  | nil => exact (List.mem_singleton.1 h).ge
  | cons n ns ih =>
    rcases List.mem_cons.1 h with rfl | h
    · exact Nat.le_refl _
    · exact Nat.le_trans (Nat.le_add_right start n) (ih h)

/-- Running sums never decrease. -/
theorem pairwise_runningSums (start : Nat) (ns : List Nat) :
    (runningSums start ns).Pairwise (· ≤ ·) := by
  induction ns generalizing start with
  | nil => exact List.pairwise_singleton _ _
  | cons n ns ih =>
    refine List.pairwise_cons.2 ⟨fun m hm => ?_, ih _⟩
    exact Nat.le_trans (Nat.le_add_right start n) (le_of_mem_runningSums hm)

/-- A list lies in the concatenation of lists between the sums of the lengths. -/
theorem extract_flatten {α : Type} {rows : List (List α)} {i : Nat} {row : List α}
    (h : rows[i]? = some row) :
    rows.flatten.extract ((rows.map List.length).take i).sum
      ((rows.map List.length).take (i + 1)).sum = row := by
  induction rows generalizing i with
  | nil => cases h
  | cons first rows ih =>
    cases i with
    | zero =>
      obtain rfl := Option.some.inj h
      simp
    | succ i =>
      have hrow := ih h
      simp only [List.map_cons, List.take_succ_cons, List.sum_cons, List.flatten_cons] at hrow ⊢
      rw [List.extract, List.drop_length_add_append, Nat.add_sub_add_left]
      exact hrow

/-! ### Cutting at the offsets -/

namespace Sparse

/-- The part of a list over the slots that belongs to a row: that between its two offsets. -/
def row {α : Type} (s : Sparse) (i : Nat) (xs : List α) : List α :=
  xs.extract (s.rowOffsets.getD i 0) (s.rowOffsets.getD (i + 1) 0)

/-- The positions and the ids that a sparse form lists. -/
def entries (s : Sparse) : List ((Nat × Nat) × CellId) :=
  (List.range (s.rowOffsets.length - 1)).flatMap fun i =>
    ((s.row i s.columns).zip (s.row i s.ids)).map fun slot => ((i, slot.1), slot.2)

/-- The sparse form of rows of cells, each with its column. -/
def ofRows (rows : List (List (Nat × Cell))) : Sparse :=
  ⟨runningSums 0 (rows.map List.length), rows.flatten.map Prod.fst,
    rows.flatten.map fun slot => slot.2.id⟩

/-- **Cutting at the offsets** gives the rows back. -/
theorem row_ofRows {α : Type} {rows : List (List (Nat × Cell))} {i : Nat} {cells : List (Nat × Cell)}
    (h : rows[i]? = some cells) (f : Nat × Cell → α) :
    (ofRows rows).row i (rows.flatten.map f) = cells.map f := by
  have hi : i + 1 ≤ (rows.map List.length).length := by
    rw [List.length_map]
    exact (List.getElem?_eq_some_iff.1 h).1
  rw [row, ofRows, List.getD_eq_getElem?_getD, List.getD_eq_getElem?_getD,
    getElem?_runningSums (Nat.le_of_succ_le hi), getElem?_runningSums hi, Option.getD_some,
    Option.getD_some, Nat.zero_add, Nat.zero_add, List.extract, ← List.map_drop, ← List.map_take]
  exact congrArg (List.map f) (extract_flatten h)

end Sparse

/-- The colour of a cell that is drawn as a part of another one: its own one, or the neutral one if
it has none. The empty text is no colour. -/
def Cell.shade (c : Cell) : Text :=
  match c.color with
  | some color => if color = "" then neutralColor else color
  | none => neutralColor

namespace Graph

variable {g : Graph} {name : Text} {b : Block}

/-! ### Nonzero cells -/

/-- The columns in which a row of a block has nonzero cells, in order. -/
def nonzeroColumns (g : Graph) (b : Block) (i : Nat) : List Nat :=
  (List.range b.cols).filter fun j => (g.cell (g.idAt b i j)).value.isNonzero

/-- The nonzero cells of a block, row by row, each with its column. -/
def nonzeroRows (g : Graph) (b : Block) : List (List (Nat × Cell)) :=
  (List.range b.rows).map fun i => (g.nonzeroColumns b i).map fun j => (j, g.cell (g.idAt b i j))

theorem nonzeroCells_map_range (n : Nat) (f : Nat → Cell) :
    nonzeroCells ((List.range n).map f) =
      ((List.range n).filter fun j => (f j).value.isNonzero).map fun j => (j, f j) := by
  have hzip : ((List.range n).map f).zipIdx = (List.range n).map fun j => (f j, j) := by
    refine List.ext_getElem (by simp) fun i h₁ h₂ => ?_
    simp
  rw [nonzeroCells, hzip, List.filter_map, List.map_map]
  rfl

theorem nonzeroRows?_eq (hb : g.matrices[name]? = some b) :
    g.nonzeroRows? name = some (g.nonzeroRows b) := by
  rw [nonzeroRows?, rows?, hb, Option.map_some, Option.map_some, rowIds, List.map_map, List.map_map]
  refine congrArg some (List.map_congr_left fun i _ => ?_)
  rw [Function.comp_apply, Function.comp_apply, List.map_map]
  exact nonzeroCells_map_range b.cols fun j => g.cell (g.idAt b i j)

theorem sparse?_eq (hb : g.matrices[name]? = some b) :
    g.sparse? name = some (.ofRows (g.nonzeroRows b)) := by
  rw [sparse?, nonzeroRows?_eq hb]
  rfl

/-! ### What a sparse form says -/

/-- The sparse form is that of a block: it lists the nonzero cells in the slots of their rows, by
ascending columns, with their ids. -/
structure Encodes (g : Graph) (b : Block) (s : Sparse) : Prop where
  length_rowOffsets : s.rowOffsets.length = b.rows + 1
  first : s.rowOffsets[0]? = some 0
  last : s.rowOffsets[b.rows]? = some s.columns.length
  length_ids : s.ids.length = s.columns.length
  ascending : s.rowOffsets.Pairwise (· ≤ ·)
  columns_ascending : ∀ i < b.rows, (s.row i s.columns).Pairwise (· < ·)
  column_lt : ∀ i < b.rows, ∀ j ∈ s.row i s.columns, j < b.cols
  isNonzero_iff : ∀ i < b.rows, ∀ j < b.cols,
    (g.cell (g.idAt b i j)).value.isNonzero = true ↔ j ∈ s.row i s.columns
  id_eq : ∀ i < b.rows, ∀ slot j : Nat, (s.row i s.columns)[slot]? = some j →
    (s.row i s.ids)[slot]? = some (g.idAt b i j)
  entries : s.entries =
    (b.positions.filter fun p => (g.cell (g.idAt b p.1 p.2)).value.isNonzero).map fun p =>
      (p, g.idAt b p.1 p.2)

/-- The rows of the sparse form of a block. -/
theorem row_ofRows_nonzeroRows {α : Type} {i : Nat} (hi : i < b.rows) (f : Nat × Cell → α) :
    (Sparse.ofRows (g.nonzeroRows b)).row i ((g.nonzeroRows b).flatten.map f) =
      (g.nonzeroColumns b i).map fun j => f (j, g.cell (g.idAt b i j)) := by
  have hrow : (g.nonzeroRows b)[i]? =
      some ((g.nonzeroColumns b i).map fun j => (j, g.cell (g.idAt b i j))) := by
    rw [nonzeroRows, List.getElem?_map, List.getElem?_range hi, Option.map_some]
  rw [Sparse.row_ofRows hrow, List.map_map]
  rfl

theorem row_columns {i : Nat} (hi : i < b.rows) :
    (Sparse.ofRows (g.nonzeroRows b)).row i (Sparse.ofRows (g.nonzeroRows b)).columns =
      g.nonzeroColumns b i :=
  (row_ofRows_nonzeroRows hi Prod.fst).trans (List.map_id' _)

theorem row_ids (hg : g.IsMinted) {i : Nat} (hi : i < b.rows) :
    (Sparse.ofRows (g.nonzeroRows b)).row i (Sparse.ofRows (g.nonzeroRows b)).ids =
      (g.nonzeroColumns b i).map fun j => g.idAt b i j := by
  refine (row_ofRows_nonzeroRows hi fun slot => slot.2.id).trans ?_
  exact List.map_congr_left fun j _ => hg.id_cell _

/-- The sparse form of a block encodes it. -/
theorem encodes_ofRows (hg : g.IsMinted) (b : Block) :
    g.Encodes b (.ofRows (g.nonzeroRows b)) where
  length_rowOffsets := by simp [Sparse.ofRows, nonzeroRows]
  first := getElem?_runningSums (Nat.zero_le _)
  last := by
    have hlength : b.rows = ((g.nonzeroRows b).map List.length).length := by simp [nonzeroRows]
    rw [Sparse.ofRows, getElem?_runningSums hlength.le, hlength, List.take_length, Nat.zero_add,
      List.length_map, List.length_flatten]
  length_ids := by simp only [Sparse.ofRows, List.length_map]
  ascending := pairwise_runningSums _ _
  columns_ascending i hi := by
    rw [row_columns hi]
    exact List.pairwise_lt_range.filter _
  column_lt i hi j hj := by
    rw [row_columns hi] at hj
    exact List.mem_range.1 (List.mem_filter.1 hj).1
  isNonzero_iff i hi j hj := by
    rw [row_columns hi, nonzeroColumns, List.mem_filter, List.mem_range]
    exact (and_iff_right hj).symm
  id_eq i hi slot j hj := by
    rw [row_columns hi] at hj
    rw [row_ids hg hi, List.getElem?_map, hj, Option.map_some]
  entries := by
    have hrows : (Sparse.ofRows (g.nonzeroRows b)).rowOffsets.length - 1 = b.rows := by
      simp [Sparse.ofRows, nonzeroRows]
    rw [Sparse.entries, hrows, Block.positions, List.filter_flatMap, List.map_flatMap]
    refine List.flatMap_congr fun i hi => ?_
    rw [List.mem_range] at hi
    rw [row_columns hi, row_ids hg hi, nonzeroColumns, List.filter_map, List.map_map,
      List.zip_map_right, List.zip_eq_zipWith, List.zipWith_self, List.map_map, List.map_map]
    rfl

/-! ### Colours -/

/-- The colours that a cell is shown in: its own one, if it has one, and then those of its
dependencies in order, or the neutral one if there are none at all. -/
structure ShownIn (g : Graph) (c : Cell) (colors : List Text) : Prop where
  ne_nil : colors ≠ []
  colored : ∀ color, c.color = some color → color ≠ "" →
    colors = color :: c.dependencies.map fun d => (g.cell d).shade
  uncolored : c.color = none ∨ c.color = some "" → c.dependencies ≠ [] →
    colors = c.dependencies.map fun d => (g.cell d).shade
  neutral : c.color = none ∨ c.color = some "" → c.dependencies = [] → colors = [neutralColor]

theorem getD_ownColor? (c : Cell) : c.ownColor?.getD neutralColor = c.shade := by
  unfold Cell.ownColor? Cell.shade
  cases c.color with
  | none => rfl
  | some color => by_cases h : color = "" <;> simp [Option.filter, h]

theorem ownColor?_eq_some {c : Cell} {color : Text} (h : c.color = some color) (hne : color ≠ "") :
    c.ownColor? = some color := by
  simp [Cell.ownColor?, Option.filter, h, hne]

theorem ownColor?_eq_none {c : Cell} (h : c.color = none ∨ c.color = some "") :
    c.ownColor? = none := by
  rcases h with h | h <;> simp [Cell.ownColor?, Option.filter, h]

/-- **The colours of a cell** are those that it is to be shown in. -/
theorem shownIn_colors (g : Graph) (c : Cell) : g.ShownIn c (g.colors c) := by
  have hown : ∀ color, c.ownColor? = some color →
      g.colors c = color :: c.dependencies.map fun d => (g.cell d).shade := by
    intro color h
    simp only [colors, getD_ownColor?, h]
  have hnone : c.ownColor? = none → c.dependencies = [] → g.colors c = [neutralColor] := by
    intro h hdeps
    simp only [colors, h, hdeps, List.map_nil]
  have hsome : c.ownColor? = none → c.dependencies ≠ [] →
      g.colors c = c.dependencies.map fun d => (g.cell d).shade := by
    intro h hdeps
    obtain ⟨d, ds, hd⟩ := List.exists_cons_of_ne_nil hdeps
    simp only [colors, getD_ownColor?, h, hd, List.map_cons]
  refine ⟨?nonempty, fun color hcolor hne => hown color (ownColor?_eq_some hcolor hne),
    fun hcolor => hsome (ownColor?_eq_none hcolor), fun hcolor => hnone (ownColor?_eq_none hcolor)⟩
  case nonempty =>
    cases h : c.ownColor? with
    | some color => exact hown color h ▸ List.cons_ne_nil _ _
    | none =>
      by_cases hdeps : c.dependencies = []
      · exact hnone h hdeps ▸ List.cons_ne_nil _ _
      · exact hsome h hdeps ▸ mt List.map_eq_nil_iff.1 hdeps

/-- **The sparse form of a matrix** of a reachable graph lists its nonzero cells and nothing else,
and their positions and ids can be read off it again. The colours come in the same slots, in each
those of the cell that is listed there. -/
theorem sparse_encodes (hg : g.IsReachable) (hb : g.matrices[name]? = some b) :
    ∃ s colors, g.sparse? name = some s ∧ g.sparseColors? name = some colors ∧ g.Encodes b s ∧
      colors.length = s.ids.length ∧ ∀ (slot : Nat) (id : CellId), s.ids[slot]? = some id →
        ∃ shown, colors[slot]? = some shown ∧ g.ShownIn (g.cell id) shown := by
  have hminted : g.IsMinted := hg.isWellFormed.toIsMinted
  refine ⟨_, (g.nonzeroRows b).flatten.map fun p => g.colors p.2, sparse?_eq hb, ?_,
    encodes_ofRows hminted b, ?_, fun slot id hid => ?_⟩
  · rw [sparseColors?, nonzeroRows?_eq hb, Option.map_some]
  · simp only [Sparse.ofRows, List.length_map]
  · rw [Sparse.ofRows, List.getElem?_map, Option.map_eq_some_iff] at hid
    obtain ⟨⟨j, c⟩, hslot, rfl⟩ := hid
    have hcell : g.cell c.id = c := by
      obtain ⟨row, hrow, hc⟩ := List.mem_flatten.1 (List.mem_of_getElem? hslot)
      obtain ⟨i, -, rfl⟩ := List.mem_map.1 hrow
      obtain ⟨j', -, heq⟩ := List.mem_map.1 hc
      obtain ⟨-, rfl⟩ := Prod.mk.inj heq
      rw [hminted.id_cell]
    refine ⟨g.colors c, ?_, ?_⟩
    · rw [List.getElem?_map, hslot, Option.map_some]
    · rw [hcell]
      exact g.shownIn_colors c

/-- A graph with a matrix whose second row is empty, though a cell of it is coloured. The first cell
of the last row has no colour and was derived from two other cells, of which one has a colour. -/
def spottedGraph : Graph :=
  runAll "elem" [.initMatrix "K" 3 2, .update "K" 0 1 (.int 5) (some "#00ff00") none none,
    .update "K" 1 0 (.int 0) (some "#ff0000") none none, .update "K" 2 0 (.int 2) none none none,
    .update "K" 2 1 (.int 3) (some "") none none, .link "elem_4" "elem_1", .link "elem_4" "elem_0"]

theorem isReachable_spottedGraph : spottedGraph.IsReachable :=
  ⟨"elem", _, rfl⟩

/-- The three nonzero cells of `K` can be read off its sparse form, and the second of them is shown
in the colours of what it was derived from. -/
theorem sparse_encodes_sample : ∃ s colors, spottedGraph.sparse? "K" = some s ∧
    spottedGraph.sparseColors? "K" = some colors ∧
    s.entries = [((0, 1), "elem_1"), ((2, 0), "elem_4"), ((2, 1), "elem_5")] ∧
    s.rowOffsets[3]? = some s.columns.length ∧
    colors[1]? = some (["#00ff00", "#000000"] : List Text) := by
  have hb : spottedGraph.matrices[("K" : Text)]? = some ⟨0, 3, 2, by decide, by decide⟩ := by
    decide +kernel
  obtain ⟨s, colors, hs, hcolors, hencodes, -, hshown⟩ :=
    sparse_encodes isReachable_spottedGraph hb
  have hentries : s.entries = [((0, 1), "elem_1"), ((2, 0), "elem_4"), ((2, 1), "elem_5")] :=
    hencodes.entries.trans (by decide +kernel)
  have hid : s.ids[1]? = some "elem_4" := by
    obtain rfl := Option.some.inj (hs.symm.trans (sparse?_eq hb))
    decide +kernel
  obtain ⟨shown, hslot, hcell⟩ := hshown 1 "elem_4" hid
  refine ⟨s, colors, hs, hcolors, hentries, hencodes.last, hslot.trans (congrArg some ?_)⟩
  exact (hcell.uncolored (by decide +kernel) (by decide +kernel)).trans (by decide +kernel)

end Graph

end CellLineage
