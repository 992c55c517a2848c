import CellLineage.Proofs.Graph.Product
import Mathlib.Algebra.BigOperators.Fin

/-!
# What a product does to a graph

The product of two matrices is formed in a loop over live cells. Here it is said without the loop
what that leaves, if the product goes to a matrix that is neither of the factors: an entry has the
value that the cells of a row and of a column make, and derives from what those of them hand on that
count. All else is as before, whether the target had the shape of the product already, and whether
the factors derive from it or not.

## Main definitions

* `Graph.productIssue?`: what stands in the way of a product.
* `Cell.IsEntry`: a cell holds an entry of a product.
* `Graph.DiffersAt`: two graphs differ in the matrix of one name only.

## Main results

* `Dot.isEntry_ofPairs`: the loop over the pairs of an entry forms that entry.
* `Graph.Makes.differsAt`: making a matrix changes that matrix only.
* `Graph.multiply_lineage`: values and lineage of a product, and all that stays as it was.
-/

namespace CellLineage

/-- The cell holds the entry of a product that the first `n` cells of a row and of a column make.
Where both cells are nonzero they count, and unless both are identity cells, each of them that is
none hands on its id and what it derives from. -/
structure Cell.IsEntry (leafOnly : Bool) (n : Nat) (row column : Nat → Cell) (c : Cell) : Prop where
  value : c.value = .int (∑ k ∈ Finset.range n, (row k).value.toInt * (column k).value.toInt)
  mem_dependencies_iff : ∀ x, x ∈ c.dependencies ↔ ∃ k < n,
    Dot.counts (row k, column k) = true ∧ Dot.countsAsIdentity (row k, column k) = false ∧
      ((row k).Feeds leafOnly x ∨ (column k).Feeds leafOnly x)
  isIdentity_iff : c.isIdentity = true ↔ (∃ k < n, Dot.counts (row k, column k) = true) ∧
    (∀ k < n, Dot.counts (row k, column k) = true →
      Dot.countsAsIdentity (row k, column k) = true) ∧ c.value = .int 1

/-- Cells that differ in what derives from them only agree in all that a product looks at. -/
theorem Cell.fields_of_core_eq {c d : Cell} (h : c.core = d.core) :
    c.value = d.value ∧ c.isIdentity = d.isIdentity ∧ c.dependencies = d.dependencies := by
  have hfield {α : Type} (field : Cell → α) : field c.core = field d.core := congrArg field h
  exact ⟨hfield Cell.value, hfield Cell.isIdentity, hfield Cell.dependencies⟩

namespace Dot

variable {leafOnly : Bool} {n : Nat} {row column : Nat → Cell}

instance {c : Cell} {x : CellId} : Decidable (c.Feeds leafOnly x) :=
  inferInstanceAs (Decidable (_ ∧ _))

/-- A pair of identity cells hands on nothing. -/
theorem countsAsIdentity_eq_false {p : Cell × Cell} {x : CellId}
    (h : p.1.Feeds leafOnly x ∨ p.2.Feeds leafOnly x) : countsAsIdentity p = false := by
  rcases h with ⟨h, -⟩ | ⟨h, -⟩ <;> simp [countsAsIdentity, h]

/-- **The loop over the pairs of an entry** ends on whole numbers, and what it has come to is that
entry. -/
theorem isEntry_ofPairs (leafOnly : Bool) (h : ∀ k < n, (row k).IsInt ∧ (column k).IsInt) :
    ∃ d, ofPairs leafOnly ((List.range n).map fun k => (row k, column k)) = some d ∧
      ∀ c : Cell, c.value = d.total → c.isIdentity = d.isIdentity → c.dependencies = d.sources →
        c.IsEntry leafOnly n row column := by
  have hmem (P : Cell × Cell → Prop) :
      (∃ p ∈ (List.range n).map fun k => (row k, column k), P p) ↔
        ∃ k < n, P (row k, column k) := by simp
  have hint : ∀ p ∈ (List.range n).map fun k => (row k, column k), p.1.IsInt ∧ p.2.IsInt := by
    simpa using h
  obtain ⟨d, hd, htotal⟩ := ofPairs_int leafOnly hint
  refine ⟨d, hd, fun c hvalue hidentity hdeps => ⟨?_, fun x => ?_, ?_⟩⟩
  · rw [hvalue, htotal, List.map_map]
    rfl
  · rw [hdeps, mem_sources_ofPairs hd, hmem]
    refine exists_congr fun k => and_congr_right fun _ => and_congr_right fun _ => ?_
    exact ⟨fun hx => ⟨countsAsIdentity_eq_false hx, hx⟩, And.right⟩
  · rw [hidentity, isIdentity_ofPairs hd, hmem, hvalue, htotal]
    simp only [List.forall_mem_map, List.mem_range, Number.isOne_int, Number.int.injEq]
    refine and_congr_right fun _ => and_congr_left fun _ => forall₂_congr fun k _ => ?_
    refine forall_congr' fun hcounts => ?_
    rw [countsAsIdentity, hcounts, Bool.true_and, Bool.and_eq_true]

end Dot

namespace Graph

variable {g g' : Graph} {name left right result : Text}

/-! ### What stays as it was -/

/-- What stands in the way of the product of two matrices: one of them is missing, or the columns of
the left one are not as many as the rows of the right one. -/
def productIssue? (g : Graph) (left right : Text) : Option Issue :=
  match g.shape? left, g.shape? right with
  | none, _ => some (.missing left)
  | some _, none => some (.missing right)
  | some s, some t => if s.2 = t.1 then none else some (.mismatch left right s t)

/-- The graphs differ in the cells of one block only, which is the matrix of the name in the second
one. Of other cells at most the lists of cells derived from them differ, and these only by cells of
the block. -/
structure DiffersAt (g g' : Graph) (name : Text) (b : Block) : Prop
    extends WritesOnly g g' name where
  matrices : g'.matrices[name]? = some b
  nodes : ∀ x, x ∉ g'.idSet b → (x ∈ g'.nodes ↔ x ∈ g.nodes)
  core : ∀ x, x ∉ g'.idSet b → (g'.cell x).core = (g.cell x).core
  dependents : ∀ x y, y ∉ g'.idSet b →
    (y ∈ (g'.cell x).dependents ↔ y ∈ (g.cell x).dependents)

/-- **Making a matrix** changes that matrix only. -/
theorem Makes.differsAt {sources : Set CellId} (h : Makes sources name g g')
    (hg : g.IsWellFormed) : ∃ b, g.DiffersAt g' name b := by
  have hw := h.writesOnly hg
  -- cells that only the second graph has are in the block, and no other core differs
  suffices hcells : ∃ b, g'.matrices[name]? = some b ∧ ∀ x, x ∉ g'.idSet b →
      (x ∈ g'.nodes ↔ x ∈ g.nodes) ∧ g'.core x = g.core x by
    obtain ⟨b, hb, hcells⟩ := hcells
    refine ⟨b, hw, hb, fun x hx => (hcells x hx).1, fun x hx => (hcells x hx).2, fun x y hy => ?_⟩
    have hcore : (g'.cell y).core = (g.cell y).core := (hcells y hy).2
    obtain ⟨-, -, hdeps⟩ := Cell.fields_of_core_eq hcore
    rw [hw.isWellFormed.symmetric, hg.symmetric, hdeps]
  cases h with
  | @anew rows cols hr hc h =>
    refine ⟨g.nextBlock rows cols hr hc, ?_, fun x hx => ?_⟩
    · rw [h.sameTables.matrices, matrices_addMatrix, if_pos rfl]
    · have hblock : x ∉ g.idSet (g.nextBlock rows cols hr hc) := by
        rw [h.sameTables.idSet_eq] at hx
        simpa only [idSet, idAt_addMatrix] using hx
      have hfresh : ∀ i j, i < rows → j < cols → x ≠ g.idAt (g.nextBlock rows cols hr hc) i j :=
        fun i j hi hj he => hblock ⟨i, j, hi, hj, he⟩
      constructor
      · rw [h.sameTables.mem_nodes, mem_nodes_addMatrix, or_iff_left]
        rintro ⟨i, j, hi, hj, he⟩
        exact hfresh i j hi hj he
      · rw [(h.rewrites (prepared_addMatrix hg name hr hc).isWellFormed).core_eq hblock, core, core,
          cell_addMatrix_of_ne hfresh]
  | @inPlace b hb h =>
    refine ⟨b, h.sameTables.matrices ▸ hb, fun x hx => ?_⟩
    rw [h.sameTables.idSet_eq] at hx
    exact ⟨h.sameTables.mem_nodes, (h.rewrites hg).core_eq hx⟩

theorem DiffersAt.refl (hg : g.IsWellFormed) {b : Block} (hb : g.matrices[name]? = some b) :
    g.DiffersAt g name b :=
  ⟨⟨hg, rfl, rfl, fun other _ => .refl g other⟩, hb, fun _ _ => Iff.rfl, fun _ _ => rfl,
    fun _ _ _ => Iff.rfl⟩

/-! ### Products -/

/-- What stands in the way of a product keeps it from being formed. -/
theorem multiply_of_productIssue? (leafOnly : Bool) {issue : Issue}
    (h : g.productIssue? left right = some issue) :
    multiply left right result leafOnly g = .ok (some issue) g := by
  unfold productIssue? shape? at h
  cases hl : g.matrices[left]? with
  | none =>
    rw [hl] at h
    cases h
    simp only [multiply, get_bind_eq, hl]
    rfl
  | some l =>
    cases hr : g.matrices[right]? with
    | none =>
      rw [hl, hr] at h
      cases h
      simp only [multiply, get_bind_eq, hl, hr]
      rfl
    | some r =>
      simp only [hl, hr, Option.map_some, Option.ite_none_left_eq_some, Option.some.injEq] at h
      obtain ⟨hfits, rfl⟩ := h
      exact multiply_mismatch hl hr hfits

theorem exists_of_productIssue?_eq_none (h : g.productIssue? left right = none) :
    ∃ l r, g.matrices[left]? = some l ∧ g.matrices[right]? = some r ∧ l.cols = r.rows := by
  unfold productIssue? shape? at h
  cases hl : g.matrices[left]? with
  | none =>
    rw [hl] at h
    cases h
  | some l =>
    cases hr : g.matrices[right]? with
    | none =>
      rw [hl, hr] at h
      cases h
    | some r =>
      simp only [hl, hr, Option.map_some, ite_eq_left_iff, reduceCtorEq, imp_false, not_not] at h
      exact ⟨l, r, rfl, rfl, h⟩

/-- The cells of a matrix are those at its positions. -/
theorem mem_cells_iff {c : Cell} : c ∈ g.cells name ↔ ∃ b i j, g.matrices[name]? = some b ∧
    i < b.rows ∧ j < b.cols ∧ c = g.cell (g.idAt b i j) := by
  rw [cells]
  cases hb : g.matrices[name]? with
  | none => simp
  | some b =>
    simp only [ids, List.map_map, List.mem_map, Prod.exists, Block.mem_positions,
      Function.comp_apply, Option.some.injEq]
    constructor
    · rintro ⟨i, j, ⟨hi, hj⟩, rfl⟩
      exact ⟨b, i, j, rfl, hi, hj, rfl⟩
    · rintro ⟨_, i, j, rfl, hi, hj, rfl⟩
      exact ⟨i, j, ⟨hi, hj⟩, rfl⟩

/-- A product of whole numbers that goes to a third matrix. -/
theorem multiply_entries (hg : g.IsWellFormed) (leafOnly : Bool) (hleft : result ≠ left)
    (hright : result ≠ right) {l r : Block} (hl : g.matrices[left]? = some l)
    (hr : g.matrices[right]? = some r) (hfits : l.cols = r.rows)
    (hint : ∀ c ∈ g.cells left ++ g.cells right, c.IsInt) :
    ∃ g' t, multiply left right result leafOnly g = .ok none g' ∧ g.DiffersAt g' result t ∧
      t.shape = (l.rows, r.cols) ∧
      ∀ i j, i < l.rows → j < r.cols → (g'.cell (g'.idAt t i j)).IsEntry leafOnly l.cols
        (fun k => g.cell (g.idAt l i k)) fun k => g.cell (g.idAt r k j) := by
  have hints {i j : Nat} (hi : i < l.rows) (hj : j < r.cols) :
      ∀ k < l.cols, (g.coreAt l i k).IsInt ∧ (g.coreAt r k j).IsInt := by
    intro k hk
    have hrow := hint _ (List.mem_append_left _ (mem_cells_iff.2 ⟨l, i, k, hl, hi, hk, rfl⟩))
    have hmem : g.cell (g.idAt r k j) ∈ g.cells right :=
      mem_cells_iff.2 ⟨r, k, j, hr, hfits ▸ hk, hj, rfl⟩
    have hcol := hint _ (List.mem_append_right _ hmem)
    exact ⟨hrow, hcol⟩
  obtain ⟨g', hrun, hw, l', r', t, hl', hr', ht, -, hrow, hcol, hcells⟩ :=
    multiply_spec hg leafOnly hleft.symm hright.symm hl hr hfits fun i j hi hj => by
      obtain ⟨d, hd, -⟩ := Dot.isEntry_ofPairs leafOnly (hints hi hj)
      exact ⟨d, hd⟩
  have hkl := hw.keeps left hleft.symm
  have hkr := hw.keeps right hright.symm
  obtain rfl : l = l' := Option.some.inj (hl.symm.trans (hkl.matrices.symm.trans hl'))
  obtain rfl : r = r' := Option.some.inj (hr.symm.trans (hkr.matrices.symm.trans hr'))
  have hdiffers : g.DiffersAt g' result t := by
    have hmakes := makes_multiply (g := g) left right result leafOnly
      (fun l _ => g.supplies_univ true l) fun r _ => g.supplies_univ true r
    rw [after_of_ok hrun] at hmakes
    rcases hmakes with rfl | hmakes
    · exact .refl hg ht
    · obtain ⟨b, hb⟩ := hmakes.differsAt hg
      obtain rfl : b = t := Option.some.inj (hb.matrices.symm.trans ht)
      exact hb
  refine ⟨g', t, hrun, hdiffers, Prod.ext hrow hcol, fun i j hi hj => ?_⟩
  obtain ⟨d, hd, hentry⟩ := Dot.isEntry_ofPairs leafOnly (hints hi hj)
  obtain ⟨d', hd', hvalue, hidentity, hdeps⟩ := hcells i j hi hj
  rw [hkl.pairsAt_eq hkr hl hr hfits hi hj] at hd'
  obtain rfl : d = d' := Option.some.inj (hd.symm.trans hd')
  have hcore := hentry _ hvalue hidentity hdeps
  exact ⟨hcore.value, hcore.mem_dependencies_iff, hcore.isIdentity_iff⟩

/-- **Products and their lineage.** Let the product of two matrices go to a third one. If something
stands in the way of the product, the issue says so and the graph stays as it is. Otherwise, on
whole numbers, the target gets the shape of the product and each of its cells holds that entry, and
nothing else differs. -/
theorem multiply_lineage (hg : g.IsReachable) (leafOnly : Bool) (hleft : result ≠ left)
    (hright : result ≠ right) :
    (∀ issue, g.productIssue? left right = some issue →
      multiply left right result leafOnly g = .ok (some issue) g) ∧
    (g.productIssue? left right = none → (∀ c ∈ g.cells left ++ g.cells right, c.IsInt) →
      ∃ g' l r t, multiply left right result leafOnly g = .ok none g' ∧
        g.matrices[left]? = some l ∧ g.matrices[right]? = some r ∧ l.cols = r.rows ∧
        g.DiffersAt g' result t ∧ t.shape = (l.rows, r.cols) ∧
        ∀ i j, i < l.rows → j < r.cols → (g'.cell (g'.idAt t i j)).IsEntry leafOnly l.cols
          (fun k => g.cell (g.idAt l i k)) fun k => g.cell (g.idAt r k j)) := by
  refine ⟨fun issue => multiply_of_productIssue? leafOnly, fun hissue hint => ?_⟩
  obtain ⟨l, r, hl, hr, hfits⟩ := exists_of_productIssue?_eq_none hissue
  obtain ⟨g', t, hrun, hdiffers, hshape, hentries⟩ :=
    multiply_entries hg.isWellFormed leafOnly hleft hright hl hr hfits hint
  exact ⟨g', l, r, t, hrun, hl, hr, hfits, hdiffers, hshape, hentries⟩

/-- A graph in which a cell of the factor `A` was derived from the matrix `R`, and another one is an
identity cell. -/
def feedbackGraph : Graph :=
  runAll "elem" [.initMatrix "A" 1 2, .initMatrix "B" 2 1, .initMatrix "R" 1 1,
    .update "A" 0 0 (.int 1) none (some true) none, .update "A" 0 1 (.int 2) none none none,
    .update "B" 0 0 (.int 3) none none none, .update "B" 1 0 (.int 5) none none none,
    .link "elem_1" "elem_4"]

theorem isReachable_feedbackGraph : feedbackGraph.IsReachable :=
  ⟨"elem", _, rfl⟩

/-- The product of `A` and `B` in `R` is `13`. What was derived from `R` hands on the cell of `R`,
and not its own one. -/
theorem multiply_lineage_sample : ∃ g' c, multiply "A" "B" "R" true feedbackGraph = .ok none g' ∧
    g'.cellAt? "R" 0 0 = some c ∧ c.value = .int 13 ∧ c.isIdentity = false ∧
    "elem_4" ∈ c.dependencies ∧ "elem_0" ∉ c.dependencies ∧ "elem_1" ∉ c.dependencies := by
  have hissue : feedbackGraph.productIssue? "A" "B" = none := by decide +kernel
  have hint : ∀ c ∈ feedbackGraph.cells "A" ++ feedbackGraph.cells "B", c.IsInt := by
    decide +kernel
  have hne : ("R" : Text) ≠ "A" ∧ ("R" : Text) ≠ "B" := by decide
  obtain ⟨g', l, r, t, hrun, hl, hr, -, hdiffers, hshape, hentries⟩ :=
    (multiply_lineage isReachable_feedbackGraph true hne.1 hne.2).2 hissue hint
  have hblocks : feedbackGraph.matrices[("A" : Text)]? = some ⟨0, 1, 2, by decide, by decide⟩ ∧
      feedbackGraph.matrices[("B" : Text)]? = some ⟨2, 2, 1, by decide, by decide⟩ := by
    decide +kernel
  obtain rfl := Option.some.inj (hblocks.1.symm.trans hl)
  obtain rfl := Option.some.inj (hblocks.2.symm.trans hr)
  have hentry := hentries 0 0 (by decide) (by decide)
  obtain ⟨hrows, hcols⟩ := Prod.mk.inj hshape
  have hvalue := hentry.value.trans (congrArg Number.int (by decide +kernel : _ = (13 : Int)))
  refine ⟨g', _, hrun, cellAt?_of_lt hdiffers.matrices (hrows ▸ Nat.one_pos) (hcols ▸ Nat.one_pos),
    hvalue, ?_, ?_, ?_, ?_⟩
  · rw [← Bool.not_eq_true, hentry.isIdentity_iff, hvalue]
    rintro ⟨-, -, hone⟩
    cases hone
  · rw [hentry.mem_dependencies_iff]
    decide +kernel
  · rw [hentry.mem_dependencies_iff]
    decide +kernel
  · rw [hentry.mem_dependencies_iff]
    decide +kernel

end Graph

end CellLineage
