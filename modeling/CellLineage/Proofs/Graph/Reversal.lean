import CellLineage.Proofs.Evaluation.Names
import CellLineage.Proofs.Graph.Contribution

/-!
# Transposes of products

The transpose of a product is the product of the transposes in the other order. On the way there,
each of the two computations makes cells of its own, and these are among what the results derive
from: a transposed cell derives from the cell it is taken from, and a product derives from the
transposed cells. Apart from such new ids both results derive from the same cells, as a transposed
cell hands on to a product what its source would have handed on.

## Main definitions

* `Cell.IsEntryAmong`: a cell holds an entry of a product, as far as it derives from given cells.
* `Graph.IsApart`: a matrix has none of the given cells.
* `Graph.Carries`: a graph that came after another one and still has two matrices of it.
* `Graph.ProductThenTranspose`, `Graph.TransposesThenProduct`: the two computations.
* `Graph.HoldsReversed`: a matrix holds the transposed product of two others, up to new ids.
* `Graph.AgreeAmong`: two matrices show the same and derive from the same of the given cells.

## Main results

* `Cell.IsEntry.reversed`: an entry of the product of two transposes.
* `Graph.Carries.productThenTranspose`, `Graph.Carries.transposesThenProduct`: what the two
  computations leave.
* `Graph.transpose_multiply`: both leave the same.
-/

namespace CellLineage

variable {old : Set CellId} {n : Nat} {row column row' column' : Nat → Cell} {c d : Cell}
  {leafOnly : Bool}

namespace Cell

/-- The cell holds the entry of a product that the first `n` cells of a row and of a column make. Of
the given cells it derives from what those hand on, and of others from any. -/
structure IsEntryAmong (old : Set CellId) (n : Nat) (row column : Nat → Cell) (c : Cell) : Prop where
  value : c.value = .int (∑ k ∈ Finset.range n, (row k).value.toInt * (column k).value.toInt)
  mem_dependencies_iff : ∀ x ∈ old, x ∈ c.dependencies ↔ ∃ k < n,
    Dot.counts (row k, column k) = true ∧ Dot.countsAsIdentity (row k, column k) = false ∧
      ((row k).Feeds false x ∨ (column k).Feeds false x)
  isIdentity_iff : c.isIdentity = true ↔ (∃ k < n, Dot.counts (row k, column k) = true) ∧
    (∀ k < n, Dot.counts (row k, column k) = true →
      Dot.countsAsIdentity (row k, column k) = true) ∧ c.value = .int 1

theorem IsEntry.among (h : c.IsEntry false n row column) : c.IsEntryAmong old n row column :=
  ⟨h.value, fun x _ => h.mem_dependencies_iff x, h.isIdentity_iff⟩

/-- Pairs of cells that count for the same make the same entry. -/
theorem IsEntryAmong.of_pairs (h : c.IsEntryAmong old n row' column')
    (hvalue : ∀ k < n, (row' k).value.toInt * (column' k).value.toInt =
      (row k).value.toInt * (column k).value.toInt)
    (hcounts : ∀ k < n, Dot.counts (row' k, column' k) = Dot.counts (row k, column k))
    (hidentity : ∀ k < n,
      Dot.countsAsIdentity (row' k, column' k) = Dot.countsAsIdentity (row k, column k))
    (hfeeds : ∀ k < n, ∀ x ∈ old, ((row' k).Feeds false x ∨ (column' k).Feeds false x) ↔
      ((row k).Feeds false x ∨ (column k).Feeds false x)) : c.IsEntryAmong old n row column where
  value := h.value.trans <|
    congrArg Number.int (Finset.sum_congr rfl fun k hk => hvalue k (Finset.mem_range.1 hk))
  mem_dependencies_iff x hx := by
    rw [h.mem_dependencies_iff x hx]
    refine exists_congr fun k => and_congr_right fun hk => ?_
    rw [hcounts k hk, hidentity k hk, hfeeds k hk x hx]
  isIdentity_iff := by
    rw [h.isIdentity_iff]
    refine and_congr (exists_congr fun k => and_congr_right fun hk => ?_)
      (and_congr_left' (forall₂_congr fun k hk => ?_))
    · rw [hcounts k hk]
    · rw [hcounts k hk, hidentity k hk]

/-- Only the first cells of the row and of the column count. -/
theorem IsEntryAmong.congr (h : c.IsEntryAmong old n row' column')
    (hrow : ∀ k < n, row' k = row k) (hcolumn : ∀ k < n, column' k = column k) :
    c.IsEntryAmong old n row column := by
  refine h.of_pairs (fun k hk => ?_) (fun k hk => ?_) (fun k hk => ?_) fun k hk x _ => ?_ <;>
    rw [hrow k hk, hcolumn k hk]

/-- Two cells that hold the same entry agree. -/
theorem IsEntryAmong.agrees (hc : c.IsEntryAmong old n row column)
    (hd : d.IsEntryAmong old n row column) : d.value = c.value ∧ d.isIdentity = c.isIdentity ∧
      ∀ x ∈ old, x ∈ d.dependencies ↔ x ∈ c.dependencies := by
  have hvalue : d.value = c.value := hd.value.trans hc.value.symm
  refine ⟨hvalue, ?_, fun x hx => ?_⟩
  · rw [Bool.eq_iff_iff, hc.isIdentity_iff, hd.isIdentity_iff, hvalue]
  · rw [hc.mem_dependencies_iff x hx, hd.mem_dependencies_iff x hx]

/-- A cell that takes over an entry holds it, and of the given cells it derives from no others. -/
theorem IsEntryAmong.of_passes (h : c.IsEntryAmong old n row column) (hpasses : c.Passes true d)
    (hid : c.id ∉ old) : d.IsEntryAmong old n row column where
  value := hpasses.value.trans h.value
  mem_dependencies_iff x hx := by
    have hne : x ≠ c.id := fun he => hid (he ▸ hx)
    rw [hpasses.dependencies, if_pos rfl, mem_appendAllNew, List.mem_singleton, or_iff_right hne,
      h.mem_dependencies_iff x hx]
  isIdentity_iff := by rw [hpasses.isIdentity, hpasses.value, h.isIdentity_iff]

/-- A cell that was taken from another one hands on what that would have handed on. -/
theorem Passes.feeds_iff (h : c.Passes true d) (hid : d.id ∉ old) {x : CellId} (hx : x ∈ old) :
    d.Feeds false x ↔ c.Feeds false x := by
  have hne : x ≠ d.id := fun he => hid (he ▸ hx)
  simp only [Feeds, h.isIdentity, h.dependencies, if_true, mem_appendAllNew, List.mem_singleton,
    Bool.false_eq_true, false_and, not_false_eq_true, and_true, hne, or_false]
  rw [or_comm]

theorem Passes.isInt (h : c.Passes true d) (hc : c.IsInt) : d.IsInt := by
  rw [IsInt, h.value]
  exact hc

/-- **An entry of the product of two transposes** is one of the product in the other order: its row
is taken from a column, and its column from a row. -/
theorem IsEntry.reversed (h : c.IsEntry false n column' row')
    (hrow : ∀ k < n, (row k).Passes true (row' k) ∧ (row' k).id ∉ old)
    (hcolumn : ∀ k < n, (column k).Passes true (column' k) ∧ (column' k).id ∉ old) :
    c.IsEntryAmong old n row column := by
  have hcounts : ∀ k < n, Dot.counts (column' k, row' k) = Dot.counts (row k, column k) := by
    intro k hk
    simp only [Dot.counts, (hrow k hk).1.value, (hcolumn k hk).1.value, Bool.and_comm]
  refine h.among.of_pairs (fun k hk => ?_) hcounts (fun k hk => ?_) fun k hk x hx => ?_
  · rw [(hrow k hk).1.value, (hcolumn k hk).1.value, Int.mul_comm]
  · rw [Dot.countsAsIdentity, Dot.countsAsIdentity, hcounts k hk]
    simp only [(hrow k hk).1.isIdentity, (hcolumn k hk).1.isIdentity, Bool.and_comm]
  · rw [(hrow k hk).1.feeds_iff (hrow k hk).2 hx, (hcolumn k hk).1.feeds_iff (hcolumn k hk).2 hx,
      or_comm]

end Cell

namespace Graph

variable {g h h' : Graph} {left right result target name : Text} {l r : Block}
  {sources : Set CellId}

/-! ### Cells that were there before -/

/-- The matrix of the name, if there is one, has none of the given cells. -/
def IsApart (g : Graph) (old : Set CellId) (name : Text) : Prop :=
  ∀ b i j, g.matrices[name]? = some b → i < b.rows → j < b.cols → g.idAt b i j ∉ old

theorem isApart_of_missing (h : g.matrices[name]? = none) : g.IsApart old name := by
  intro b i j hb
  rw [h] at hb
  cases hb

theorem IsApart.of_keeps (ha : g.IsApart old name) (hk : g.Keeps h name) : h.IsApart old name := by
  intro b i j hb hi hj
  rw [hk.idAt_eq]
  exact ha b i j (hk.matrices.symm.trans hb) hi hj

theorem IsApart.id_notMem (ha : g.IsApart old name) (hg : g.IsMinted) {b : Block} {i j : Nat}
    (hb : g.matrices[name]? = some b) (hi : i < b.rows) (hj : j < b.cols) :
    (g.coreAt b i j).id ∉ old := by
  have hid : (g.coreAt b i j).id = g.idAt b i j := hg.id_cell _
  rw [hid]
  exact ha b i j hb hi hj

/-- Making a matrix drops no cell. -/
theorem Makes.mem_nodes (hm : Makes sources name g h) {x : CellId} (hx : x ∈ g.nodes) :
    x ∈ h.nodes := by
  cases hm with
  | anew hfills => exact hfills.sameTables.mem_nodes.2 (mem_nodes_addMatrix.2 (.inl hx))
  | inPlace _ hfills => exact hfills.sameTables.mem_nodes.2 hx

/-- A matrix that is made has fresh cells or those it had. -/
theorem Makes.isApart (hm : Makes sources name g h) (hg : g.IsMinted)
    (hold : ∀ x ∈ old, x ∈ g.nodes) (ha : g.IsApart old name) : h.IsApart old name := by
  intro b i j hb hi hj
  cases hm with
  | anew hfills =>
    rw [hfills.sameTables.matrices, matrices_addMatrix, if_pos rfl] at hb
    cases hb
    rw [hfills.sameTables.idAt_eq, idAt_addMatrix]
    exact fun hmem => hg.idAt_nextBlock_notMem _ _ i j (hold _ hmem)
  | inPlace _ hfills =>
    rw [hfills.sameTables.matrices] at hb
    rw [hfills.sameTables.idAt_eq]
    exact ha b i j hb hi hj

/-- A product that goes to a matrix that was not there makes that matrix. -/
theorem makes_of_multiply (hrun : multiply left right result leafOnly g = .ok none h)
    (hresult : g.matrices[result]? = none) : Makes Set.univ result g h := by
  have hmakes := makes_multiply (g := g) left right result leafOnly
    (fun l _ => g.supplies_univ true l) fun r _ => g.supplies_univ true r
  rw [after_of_ok hrun] at hmakes
  rcases hmakes with rfl | hmakes
  · have hmem := mem_matrices_of_multiply hrun
    rw [Std.ExtTreeMap.mem_iff_isSome_getElem?, hresult] at hmem
    cases hmem
  · exact hmakes

/-- The graph `h` is well-formed, has all cells of `g`, and two matrices as they are in `g`. -/
structure Carries (g h : Graph) (left right : Text) : Prop where
  isWellFormed : h.IsWellFormed
  mem_nodes : ∀ x ∈ g.nodes, x ∈ h.nodes
  left : g.Keeps h left
  right : g.Keeps h right

theorem Carries.refl (hg : g.IsWellFormed) (left right : Text) : g.Carries g left right :=
  ⟨hg, fun _ hx => hx, .refl g left, .refl g right⟩

/-- Matrices of other names may be made. -/
theorem Carries.make (hc : g.Carries h left right) (hm : Makes sources name h h')
    (hleft : left ≠ name) (hright : right ≠ name) : g.Carries h' left right where
  isWellFormed := (hm.writesOnly hc.isWellFormed).isWellFormed
  mem_nodes x hx := hm.mem_nodes (hc.mem_nodes x hx)
  left := hc.left.trans ((hm.writesOnly hc.isWellFormed).keeps left hleft)
  right := hc.right.trans ((hm.writesOnly hc.isWellFormed).keeps right hright)

/-! ### The two computations -/

/-- The product of two matrices is formed, and then its transpose. A factor hands on its own ids
whether it was derived from others or not. -/
def ProductThenTranspose (left right result : Text) (g g' : Graph) : Prop :=
  ∃ g₁, multiply left right result false g = .ok none g₁ ∧
    g₁.transpose result = some (transposeName result, g')

/-- The transposes of two matrices are formed, and then their product in the other order. -/
def TransposesThenProduct (left right target : Text) (g g' : Graph) : Prop :=
  ∃ g₁ g₂, g.transpose left = some (transposeName left, g₁) ∧
    g₁.transpose right = some (transposeName right, g₂) ∧
    multiply (transposeName right) (transposeName left) target false g₂ = .ok none g'

/-- The matrix of the name in the graph `h` holds the transposed product of two blocks of `g`, as far
as it derives from cells of `g`. -/
def HoldsReversed (g h : Graph) (l r : Block) (name : Text) : Prop :=
  ∃ t, h.matrices[name]? = some t ∧ t.rows = r.cols ∧ t.cols = l.rows ∧
    ∀ i j, i < l.rows → j < r.cols → (h.coreAt t j i).IsEntryAmong {x | x ∈ g.nodes} l.cols
      (fun k => g.coreAt l i k) fun k => g.coreAt r k j

theorem HoldsReversed.of_keeps (hh : g.HoldsReversed h l r name) (hk : h.Keeps h' name) :
    g.HoldsReversed h' l r name := by
  obtain ⟨t, ht, hrows, hcols, hcells⟩ := hh
  refine ⟨t, hk.matrices.trans ht, hrows, hcols, fun i j hi hj => ?_⟩
  rw [hk.coreAt ht (hrows ▸ hj) (hcols ▸ hi)]
  exact hcells i j hi hj

/-- The entries of a product, on cells without what derives from them. -/
theorem multiply_cores (hg : g.IsWellFormed) (hleft : result ≠ left) (hright : result ≠ right)
    (hl : g.matrices[left]? = some l) (hr : g.matrices[right]? = some r) (hfits : l.cols = r.rows)
    (hint : (∀ i j, i < l.rows → j < l.cols → (g.coreAt l i j).IsInt) ∧
      ∀ i j, i < r.rows → j < r.cols → (g.coreAt r i j).IsInt) :
    ∃ g' t, multiply left right result false g = .ok none g' ∧ g'.matrices[result]? = some t ∧
      t.rows = l.rows ∧ t.cols = r.cols ∧ ∀ i j, i < l.rows → j < r.cols →
        (g'.coreAt t i j).IsEntry false l.cols (fun k => g.coreAt l i k) fun k => g.coreAt r k j := by
  obtain ⟨g', t, hrun, hdiffers, hshape, hentries⟩ :=
    multiply_entries hg false hleft hright hl hr hfits fun c hc => by
      rcases List.mem_append.1 hc with hc | hc
      · obtain ⟨b, i, j, hb, hi, hj, rfl⟩ := mem_cells_iff.1 hc
        obtain rfl : l = b := Option.some.inj (hl.symm.trans hb)
        exact hint.1 i j hi hj
      · obtain ⟨b, i, j, hb, hi, hj, rfl⟩ := mem_cells_iff.1 hc
        obtain rfl : r = b := Option.some.inj (hr.symm.trans hb)
        exact hint.2 i j hi hj
  obtain ⟨hrows, hcols⟩ := Prod.mk.inj hshape
  refine ⟨g', t, hrun, hdiffers.matrices, hrows, hcols, fun i j hi hj => ?_⟩
  obtain ⟨hvalue, hdeps, hidentity⟩ := hentries i j hi hj
  exact ⟨hvalue, hdeps, hidentity⟩

/-- A matrix that is there is none that is not. -/
theorem ne_of_missing {b : Block} (hb : g.matrices[name]? = some b)
    (hother : g.matrices[target]? = none) : name ≠ target := by
  rintro rfl
  rw [hother] at hb
  cases hb

/-- **The product and then its transpose**, in a graph that still has the two factors. -/
theorem Carries.productThenTranspose (hc : g.Carries h left right)
    (hl : g.matrices[left]? = some l) (hr : g.matrices[right]? = some r) (hfits : l.cols = r.rows)
    (hint : (∀ i j, i < l.rows → j < l.cols → (g.coreAt l i j).IsInt) ∧
      ∀ i j, i < r.rows → j < r.cols → (g.coreAt r i j).IsInt)
    (hresult : h.matrices[result]? = none) (htarget : h.matrices[transposeName result]? = none) :
    ∃ h', ProductThenTranspose left right result h h' ∧ g.Carries h' left right ∧
      (∀ other, other ≠ result → other ≠ transposeName result → h.Keeps h' other) ∧
      g.HoldsReversed h' l r (transposeName result) := by
  have hl' : h.matrices[left]? = some l := hc.left.matrices.trans hl
  have hr' : h.matrices[right]? = some r := hc.right.matrices.trans hr
  have hne := ne_transposeName result
  -- the product has fresh cells
  obtain ⟨h₁, t, hrun, ht, hrows, hcols, hentries⟩ := multiply_cores hc.isWellFormed
    (ne_of_missing hl' hresult).symm (ne_of_missing hr' hresult).symm hl' hr' hfits
    ⟨fun i j hi hj => hc.left.coreAt hl hi hj ▸ hint.1 i j hi hj,
      fun i j hi hj => hc.right.coreAt hr hi hj ▸ hint.2 i j hi hj⟩
  have hmakes := makes_of_multiply hrun hresult
  have hc₁ := hc.make hmakes (ne_of_missing hl' hresult) (ne_of_missing hr' hresult)
  have hapart := hmakes.isApart hc.isWellFormed.toIsMinted hc.mem_nodes (isApart_of_missing hresult)
  -- so the transpose derives from none that was there before but those that the product derives from
  obtain ⟨h₂, htranspose, hw, s, t', hs, ht', hrows', hcols', hpasses⟩ :=
    transpose_spec hc₁.isWellFormed ht
  have hk := hw.keeps result hne
  obtain rfl : t = s := Option.some.inj ((hk.matrices.trans ht).symm.trans hs)
  have hmakes₂ := (makes_transpose htranspose fun s _ => h₁.supplies_univ true s).2
  refine ⟨h₂, ⟨h₁, hrun, htranspose⟩, hc₁.make hmakes₂ (ne_of_missing hl' htarget)
    (ne_of_missing hr' htarget), fun other hother hother' => ?_, t', ht', hrows'.trans hcols,
    hcols'.trans hrows, fun i j hi hj => ?_⟩
  · exact ((hmakes.writesOnly hc.isWellFormed).keeps other hother).trans (hw.keeps other hother')
  · have hi' : i < t.rows := hrows ▸ hi
    have hj' : j < t.cols := hcols ▸ hj
    have hentry : (h₁.coreAt t i j).IsEntryAmong {x | x ∈ g.nodes} l.cols
        (fun k => g.coreAt l i k) fun k => g.coreAt r k j :=
      (hentries i j hi hj).among.congr (fun k hk => hc.left.coreAt hl hi hk)
        fun k hk => hc.right.coreAt hr (hfits ▸ hk) hj
    rw [← hk.coreAt ht hi' hj'] at hentry
    refine hentry.of_passes (hpasses i j hi' hj') ?_
    exact (hapart.of_keeps hk).id_notMem hw.isWellFormed.toIsMinted hs hi' hj'

/-- **The transposes and then their product**, in a graph that still has the two factors. -/
theorem Carries.transposesThenProduct (hc : g.Carries h left right)
    (hl : g.matrices[left]? = some l) (hr : g.matrices[right]? = some r) (hfits : l.cols = r.rows)
    (hint : (∀ i j, i < l.rows → j < l.cols → (g.coreAt l i j).IsInt) ∧
      ∀ i j, i < r.rows → j < r.cols → (g.coreAt r i j).IsInt)
    (hleft : h.matrices[transposeName left]? = none)
    (hright : h.matrices[transposeName right]? = none)
    (htarget : h.matrices[target]? = none)
    (hne : target ≠ transposeName left ∧ target ≠ transposeName right) :
    ∃ h', TransposesThenProduct left right target h h' ∧ g.Carries h' left right ∧
      (∀ other, other ≠ transposeName left → other ≠ transposeName right → other ≠ target →
        h.Keeps h' other) ∧
      g.HoldsReversed h' l r target := by
  have hl' : h.matrices[left]? = some l := hc.left.matrices.trans hl
  have hr' : h.matrices[right]? = some r := hc.right.matrices.trans hr
  -- the transpose of the left factor
  obtain ⟨h₁, hrun₁, hw₁, hleft₁⟩ := transpose_spec hc.isWellFormed hl'
  have hmakes₁ := (makes_transpose hrun₁ fun s _ => h.supplies_univ true s).2
  have hc₁ := hc.make hmakes₁ (ne_of_missing hl' hleft) (ne_of_missing hr' hleft)
  have hapart₁ := hmakes₁.isApart hc.isWellFormed.toIsMinted hc.mem_nodes
    (isApart_of_missing hleft)
  -- the transpose of the right factor, which is the same matrix if the factors are
  have hr₁ : h₁.matrices[right]? = some r := hc₁.right.matrices.trans hr
  obtain ⟨h₂, hrun₂, hw₂, hright₂⟩ := transpose_spec hc₁.isWellFormed hr₁
  have hmakes₂ := (makes_transpose hrun₂ fun s _ => h₁.supplies_univ true s).2
  have hc₂ := hc₁.make hmakes₂ (ne_of_missing hl' hright) (ne_of_missing hr' hright)
  have hapart₂ : h₂.IsApart {x | x ∈ g.nodes} (transposeName left) ∧
      h₂.IsApart {x | x ∈ g.nodes} (transposeName right) ∧
      h₂.IsTransposeOf left (transposeName left) := by
    by_cases he : left = right
    · subst he
      have ha := hmakes₂.isApart hc₁.isWellFormed.toIsMinted hc₁.mem_nodes hapart₁
      exact ⟨ha, ha, hright₂⟩
    · have hneT : transposeName left ≠ transposeName right := fun h => he (transposeName_inj.1 h)
      have hk := hw₂.keeps _ hneT
      refine ⟨hapart₁.of_keeps hk, ?_, hleft₁.of_keeps (hw₂.keeps _ (ne_of_missing hl' hright)) hk⟩
      refine hmakes₂.isApart hc₁.isWellFormed.toIsMinted hc₁.mem_nodes (isApart_of_missing ?_)
      rw [(hw₁.keeps _ hneT.symm).matrices, hright]
  obtain ⟨hapartL, hapartR, hleft₂⟩ := hapart₂
  obtain ⟨l', t, hbl, hbt, htr, htc, hpassesL⟩ := hleft₂
  obtain ⟨r', u, hbr, hbu, hur, huc, hpassesR⟩ := hright₂
  obtain rfl : l = l' := Option.some.inj ((hc₂.left.matrices.trans hl).symm.trans hbl)
  obtain rfl : r = r' := Option.some.inj ((hc₂.right.matrices.trans hr).symm.trans hbr)
  have hpassesL : ∀ i k, i < l.rows → k < l.cols →
      (g.coreAt l i k).Passes true (h₂.coreAt t k i) := fun i k hi hk =>
    hc₂.left.coreAt hl hi hk ▸ hpassesL i k hi hk
  have hpassesR : ∀ k j, k < r.rows → j < r.cols →
      (g.coreAt r k j).Passes true (h₂.coreAt u j k) := fun k j hk hj =>
    hc₂.right.coreAt hr hk hj ▸ hpassesR k j hk hj
  -- their product, whose cells are formed from fresh ones
  have hut : u.cols = t.rows := by rw [huc, htr, hfits]
  obtain ⟨h₃, q, hrun₃, hq, hrows, hcols, hentries⟩ := multiply_cores hc₂.isWellFormed hne.2 hne.1
    hbu hbt hut ⟨fun j k hj hk => (hpassesR k j (huc ▸ hk) (hur ▸ hj)).isInt
        (hint.2 k j (huc ▸ hk) (hur ▸ hj)),
      fun k i hk hi => (hpassesL i k (htc ▸ hi) (htr ▸ hk)).isInt
        (hint.1 i k (htc ▸ hi) (htr ▸ hk))⟩
  have htarget₂ : h₂.matrices[target]? = none := by
    rw [(hw₂.keeps target hne.2).matrices, (hw₁.keeps target hne.1).matrices, htarget]
  have hmakes₃ := makes_of_multiply hrun₃ htarget₂
  refine ⟨h₃, ⟨h₁, h₂, hrun₁, hrun₂, hrun₃⟩, hc₂.make hmakes₃ (ne_of_missing hl' htarget)
    (ne_of_missing hr' htarget), fun other hL hR hother => ?_, q, hq, hrows.trans hur,
    hcols.trans htc, fun i j hi hj => ?_⟩
  · exact ((hw₁.keeps other hL).trans (hw₂.keeps other hR)).trans
      ((hmakes₃.writesOnly hc₂.isWellFormed).keeps other hother)
  · have hentry := hentries j i (hur ▸ hj) (htc ▸ hi)
    rw [huc, ← hfits] at hentry
    have hwf := hc₂.isWellFormed.toIsMinted
    exact hentry.reversed
      (fun k hk => ⟨hpassesL i k hi hk, hapartL.id_notMem hwf hbt (htr ▸ hk) (htc ▸ hi)⟩)
      fun k hk => ⟨hpassesR k j (hfits ▸ hk) hj,
        hapartR.id_notMem hwf hbu (hur ▸ hj) (huc ▸ hfits ▸ hk)⟩

/-! ### Both leave the same -/

/-- Two matrices, each in a graph, have the same shape. At each place they show the same value and
the same identity mark, and of the given cells they derive from the same. -/
def AgreeAmong (old : Set CellId) (shape : Nat × Nat) (g₁ : Graph) (name₁ : Text) (g₂ : Graph)
    (name₂ : Text) : Prop :=
  g₁.shape? name₁ = some shape ∧ g₂.shape? name₂ = some shape ∧
    ∀ i j : Nat, i < shape.1 → j < shape.2 → ∃ c d, g₁.cellAt? name₁ i j = some c ∧
      g₂.cellAt? name₂ i j = some d ∧ d.value = c.value ∧ d.isIdentity = c.isIdentity ∧
        ∀ x ∈ old, x ∈ d.dependencies ↔ x ∈ c.dependencies

/-- Two matrices that hold the same transposed product agree. -/
theorem HoldsReversed.agreeAmong {g₁ g₂ : Graph} {name₁ name₂ : Text}
    (h₁ : g.HoldsReversed g₁ l r name₁) (h₂ : g.HoldsReversed g₂ l r name₂) :
    AgreeAmong {x | x ∈ g.nodes} (r.cols, l.rows) g₁ name₁ g₂ name₂ := by
  obtain ⟨s, hs, hsr, hsc, hscells⟩ := h₁
  obtain ⟨t, ht, htr, htc, htcells⟩ := h₂
  refine ⟨?_, ?_, fun j i hj hi => ?_⟩
  · rw [shape?, hs, Option.map_some, Block.shape, hsr, hsc]
  · rw [shape?, ht, Option.map_some, Block.shape, htr, htc]
  · obtain ⟨hvalue, hidentity, hdeps⟩ := (hscells i j hi hj).agrees (htcells i j hi hj)
    exact ⟨_, _, cellAt?_of_lt hs (hsr ▸ hj) (hsc ▸ hi), cellAt?_of_lt ht (htr ▸ hj) (htc ▸ hi),
      hvalue, hidentity, hdeps⟩

/-- **Transposing reverses products.** Let two matrices of whole numbers have a product, and let the
names that the two computations write to be unused and distinct, where the transposes of the factors
go to one matrix if the factors are one. Then the transpose of the product, and the product of the
transposes in the other order, have the same shape. Cell by cell they have the same value and the
same identity mark, and derive from the same of the cells that were there before. It makes no
difference whether both computations start in the same graph, or one after the other. -/
theorem transpose_multiply (hg : g.IsReachable) (hl : g.matrices[left]? = some l)
    (hr : g.matrices[right]? = some r) (hfits : l.cols = r.rows)
    (hint : ∀ c ∈ g.cells left ++ g.cells right, c.IsInt)
    (hunused : ∀ name ∈ [transposeName left, transposeName right, result, transposeName result,
      target], g.matrices[name]? = none)
    (hdistinct : ∀ name ∈ [left, right],
      [transposeName name, result, transposeName result, target].Nodup) :
    ∃ g₁ g₂, ProductThenTranspose left right result g g₁ ∧
      TransposesThenProduct left right target g g₂ ∧
      AgreeAmong {x | x ∈ g.nodes} (r.cols, l.rows) g₁ (transposeName result) g₂ target ∧
      (∃ h, TransposesThenProduct left right target g₁ h ∧
        AgreeAmong {x | x ∈ g.nodes} (r.cols, l.rows) h (transposeName result) h target) ∧
      ∃ h, ProductThenTranspose left right result g₂ h ∧
        AgreeAmong {x | x ∈ g.nodes} (r.cols, l.rows) h (transposeName result) h target := by
  have hcores : (∀ i j, i < l.rows → j < l.cols → (g.coreAt l i j).IsInt) ∧
      ∀ i j, i < r.rows → j < r.cols → (g.coreAt r i j).IsInt := by
    refine ⟨fun i j hi hj => hint (g.cell (g.idAt l i j)) (List.mem_append_left _ ?_),
      fun i j hi hj => hint (g.cell (g.idAt r i j)) (List.mem_append_right _ ?_)⟩
    · exact mem_cells_iff.2 ⟨l, i, j, hl, hi, hj, rfl⟩
    · exact mem_cells_iff.2 ⟨r, i, j, hr, hi, hj, rfl⟩
  simp only [List.forall_mem_cons] at hunused hdistinct
  obtain ⟨huL, huR, huP, huPT, huQ, -⟩ := hunused
  obtain ⟨hL, hR, -⟩ := hdistinct
  simp only [List.nodup_cons, List.mem_cons, List.not_mem_nil, or_false, not_or] at hL hR
  obtain ⟨⟨hLP, hLPT, hLQ⟩, ⟨-, hPQ⟩, hPTQ, -⟩ := hL
  obtain ⟨⟨hRP, hRPT, hRQ⟩, -⟩ := hR
  have hc := Carries.refl hg.isWellFormed left right
  obtain ⟨g₁, hrun₁, hc₁, hkeeps₁, hheld₁⟩ :=
    hc.productThenTranspose hl hr hfits hcores huP huPT
  obtain ⟨g₂, hrun₂, hc₂, hkeeps₂, hheld₂⟩ :=
    hc.transposesThenProduct hl hr hfits hcores huL huR huQ ⟨Ne.symm hLQ, Ne.symm hRQ⟩
  -- none of the two computations writes to a name of the other one
  obtain ⟨h, hrun, -, hkeeps, hheld⟩ := hc₁.transposesThenProduct hl hr hfits hcores
    ((hkeeps₁ _ hLP hLPT).matrices.trans huL) ((hkeeps₁ _ hRP hRPT).matrices.trans huR)
    ((hkeeps₁ _ (Ne.symm hPQ) (Ne.symm hPTQ)).matrices.trans huQ) ⟨Ne.symm hLQ, Ne.symm hRQ⟩
  obtain ⟨h', hrun', -, hkeeps', hheld'⟩ := hc₂.productThenTranspose hl hr hfits hcores
    ((hkeeps₂ _ (Ne.symm hLP) (Ne.symm hRP) hPQ).matrices.trans huP)
    ((hkeeps₂ _ (Ne.symm hLPT) (Ne.symm hRPT) hPTQ).matrices.trans huPT)
  have hkept := hheld₁.of_keeps (hkeeps _ (Ne.symm hLPT) (Ne.symm hRPT) hPTQ)
  have hkept' := hheld₂.of_keeps (hkeeps' _ (Ne.symm hPQ) (Ne.symm hPTQ))
  exact ⟨g₁, g₂, hrun₁, hrun₂, hheld₁.agreeAmong hheld₂, ⟨h, hrun, hkept.agreeAmong hheld⟩,
    h', hrun', hheld'.agreeAmong hkept'⟩

/-- The product of `A` and `B`, where a cell of `A` derives from a third matrix and another one is an
identity cell. -/
theorem transpose_multiply_sample : ∃ g₁ h c d,
    ProductThenTranspose "A" "B" "P" feedbackGraph g₁ ∧ TransposesThenProduct "A" "B" "Q" g₁ h ∧
    h.cellAt? (transposeName "P") 0 0 = some c ∧ h.cellAt? "Q" 0 0 = some d ∧ d.value = c.value ∧
    d.isIdentity = c.isIdentity ∧ ("elem_4" ∈ d.dependencies ↔ "elem_4" ∈ c.dependencies) := by
  have hblocks : feedbackGraph.matrices[("A" : Text)]? = some ⟨0, 1, 2, by decide, by decide⟩ ∧
      feedbackGraph.matrices[("B" : Text)]? = some ⟨2, 2, 1, by decide, by decide⟩ := by
    decide +kernel
  have hint : ∀ c ∈ feedbackGraph.cells "A" ++ feedbackGraph.cells "B", c.IsInt := by
    decide +kernel
  have hunused : ∀ name ∈ [transposeName "A", transposeName "B", "P", transposeName "P", "Q"],
      feedbackGraph.matrices[name]? = none := by decide +kernel
  have hdistinct : ∀ name ∈ (["A", "B"] : List Text),
      [transposeName name, "P", transposeName "P", "Q"].Nodup := by decide +kernel
  obtain ⟨g₁, -, hrun₁, -, -, ⟨h, hrun, -, -, hcells⟩, -⟩ := transpose_multiply
    isReachable_feedbackGraph hblocks.1 hblocks.2 rfl hint hunused hdistinct
  obtain ⟨c, d, hc, hd, hvalue, hidentity, hdeps⟩ := hcells 0 0 (by decide) (by decide)
  have hmem : "elem_4" ∈ feedbackGraph.nodes := by decide +kernel
  exact ⟨g₁, h, c, d, hrun₁, hrun, hc, hd, hvalue, hidentity, hdeps "elem_4" hmem⟩

end Graph

end CellLineage
