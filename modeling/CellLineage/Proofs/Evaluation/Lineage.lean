import CellLineage.Graph.Reach
import CellLineage.Proofs.Evaluation.Rebuild

/-!
# What the cells of a matrix derive from

A cell hands on its own id and what it derives from. What the operations record can then be said by
positions, without ids of the matrices in between: a cell of an instance or of a transpose derives
from what its source hands on, and a cell of a product from what those cells hand on that some
nonzero term of the entry takes, unless they are identity cells.

The lineage of a matrix is *complete* if its cells derive from all that the cells they derive from
derive from. All operations of an evaluation keep this. A matrix is *traced* if moreover it holds
whole numbers of which none is negative and no identity cell. The search through the graph then
finds nothing more than what is recorded for the cell (`Graph.mem_allDependencies_iff`).

## Main definitions

* `Graph.DerivesFrom`, `Graph.HandsOn`: the cells that a position derives from and hands on.
* `Graph.FeedsFrom`: the cells that a position hands on to products.
* `Graph.IsComplete`, `Graph.IsTraced`: invariants of the matrices of an evaluation.

## Main results

* `Graph.IsCopyOf.derivesFrom_iff`, `Graph.IsTransposeOf.derivesFrom_iff`,
  `Graph.IsProductOf.derivesFrom_iff_feedsFrom`: what the cells of a written matrix derive from.
* `Graph.mem_allDependencies_iff`: the lineage of a traced cell.
-/

namespace CellLineage.Graph

variable {g : Graph} {name source target left right : Text} {i j : Nat} {x y z : CellId}
  {M N P : IntMatrix}

/-- The cell at a position of a matrix derives from the cell `x`. -/
def DerivesFrom (g : Graph) (name : Text) (i j : Nat) (x : CellId) : Prop :=
  ∃ z, g.idAt? name i j = some z ∧ x ∈ (g.cell z).dependencies

/-- The cell at a position of a matrix is the cell `x` or derives from it. -/
def HandsOn (g : Graph) (name : Text) (i j : Nat) (x : CellId) : Prop :=
  g.idAt? name i j = some x ∨ g.DerivesFrom name i j x

theorem derivesFrom_iff {b : Block} (hb : g.matrices[name]? = some b) (hi : i < b.rows)
    (hj : j < b.cols) : g.DerivesFrom name i j x ↔ x ∈ (g.coreAt b i j).dependencies := by
  rw [DerivesFrom, idAt?_of_lt hb hi hj]
  simp only [Option.some.injEq, exists_eq_left']
  rfl

theorem DerivesFrom.lt {b : Block} (h : g.DerivesFrom name i j x)
    (hb : g.matrices[name]? = some b) : i < b.rows ∧ j < b.cols := by
  obtain ⟨z, hz, -⟩ := h
  obtain ⟨c, hc, hi, hj, -⟩ := idAt?_eq_some_iff.1 hz
  obtain rfl : b = c := Option.some.inj (hb.symm.trans hc)
  exact ⟨hi, hj⟩

theorem lt_of_idAt? {b : Block} (h : g.idAt? name i j = some x)
    (hb : g.matrices[name]? = some b) : i < b.rows ∧ j < b.cols := by
  obtain ⟨c, hc, hi, hj, -⟩ := idAt?_eq_some_iff.1 h
  obtain rfl : b = c := Option.some.inj (hb.symm.trans hc)
  exact ⟨hi, hj⟩

/-- A cell stands at one position of one matrix. -/
theorem IsMinted.idAt?_inj (hg : g.IsMinted) {other : Text} {i' j' : Nat}
    (h : g.idAt? name i j = some x) (h' : g.idAt? other i' j' = some x) :
    name = other ∧ i = i' ∧ j = j' := by
  obtain ⟨b, hb, hi, hj, rfl⟩ := idAt?_eq_some_iff.1 h
  obtain ⟨c, hc, hi', hj', he⟩ := idAt?_eq_some_iff.1 h'
  obtain ⟨hname, hrow, hcol⟩ := hg.place hb hi hj
  obtain ⟨hname', hrow', hcol'⟩ := hg.place hc hi' hj'
  rw [he] at hname' hrow' hcol'
  exact ⟨hname.symm.trans hname', by omega, by omega⟩

theorem IsMinted.idAt?_eq_some_iff (hg : g.IsMinted) {other : Text} {i' j' : Nat}
    (h : g.idAt? name i j = some x) :
    g.idAt? other i' j' = some x ↔ name = other ∧ i = i' ∧ j = j' := by
  refine ⟨hg.idAt?_inj h, ?_⟩
  rintro ⟨rfl, rfl, rfl⟩
  exact h

/-! ### Copies and transposes -/

/-- A copied cell derives from what its source derives from, and from its source if so asked. -/
theorem IsCopyOf.derivesFrom_iff {withSelf : Bool} (hg : g.IsMinted)
    (h : g.IsCopyOf withSelf source target) : g.DerivesFrom target i j x ↔
      withSelf = true ∧ g.idAt? source i j = some x ∨ g.DerivesFrom source i j x := by
  obtain ⟨s, t, hs, ht, hr, hc, hcells⟩ := h
  by_cases hij : i < s.rows ∧ j < s.cols
  · have hid : (g.coreAt s i j).id = g.idAt s i j := hg.id_cell _
    rw [Graph.derivesFrom_iff ht (hr ▸ hij.1) (hc ▸ hij.2), Graph.derivesFrom_iff hs hij.1 hij.2,
      idAt?_of_lt hs hij.1 hij.2, (hcells i j hij.1 hij.2).dependencies, hid, Option.some.injEq]
    cases withSelf with
    | false => simp
    | true => simp [eq_comm]
  · have hij' : ¬(i < t.rows ∧ j < t.cols) := by rwa [hr, hc]
    refine iff_of_false (fun h => hij' (h.lt ht)) ?_
    rintro (⟨-, h⟩ | h)
    · exact hij (lt_of_idAt? h hs)
    · exact hij (h.lt hs)

/-- A cell of a transpose derives from what its source hands on. -/
theorem IsTransposeOf.derivesFrom_iff (hg : g.IsMinted) (h : g.IsTransposeOf source target) :
    g.DerivesFrom target i j x ↔ g.HandsOn source j i x := by
  obtain ⟨s, t, hs, ht, hr, hc, hcells⟩ := h
  by_cases hij : j < s.rows ∧ i < s.cols
  · have hid : (g.coreAt s j i).id = g.idAt s j i := hg.id_cell _
    rw [HandsOn, Graph.derivesFrom_iff ht (hr ▸ hij.2) (hc ▸ hij.1),
      Graph.derivesFrom_iff hs hij.1 hij.2, idAt?_of_lt hs hij.1 hij.2,
      (hcells j i hij.1 hij.2).dependencies, hid, Option.some.injEq]
    simp [eq_comm]
  · have hij' : ¬(i < t.rows ∧ j < t.cols) := by
      rw [hr, hc]
      exact fun h => hij h.symm
    refine iff_of_false (fun h => hij' (h.lt ht)) ?_
    rintro (h | h)
    · exact hij (lt_of_idAt? h hs)
    · exact hij (h.lt hs)

/-! ### Complete lineage -/

/-- The cells of the matrix derive from all that the cells they derive from derive from, and these
all stand in matrices. -/
structure IsComplete (g : Graph) (name : Text) : Prop where
  closed : ∀ {i j : Nat} {x y : CellId}, g.DerivesFrom name i j x →
    y ∈ (g.cell x).dependencies → g.DerivesFrom name i j y
  stands : ∀ {i j : Nat} {x : CellId}, g.DerivesFrom name i j x →
    ∃ other, ∃ a b : Nat, g.idAt? other a b = some x

/-- What a cell that is handed on derives from is handed on too. -/
theorem IsComplete.derivesFrom (h : g.IsComplete name) (hx : g.HandsOn name i j x)
    (hy : y ∈ (g.cell x).dependencies) : g.DerivesFrom name i j y := by
  rcases hx with hx | hx
  · exact ⟨x, hx, hy⟩
  · exact h.closed hx hy

theorem IsComplete.exists_idAt? (h : g.IsComplete name) (hx : g.HandsOn name i j x) :
    ∃ other, ∃ a b : Nat, g.idAt? other a b = some x := by
  rcases hx with hx | hx
  · exact ⟨name, i, j, hx⟩
  · exact h.stands hx

theorem IsCopyOf.isComplete {withSelf : Bool} (hg : g.IsMinted)
    (h : g.IsCopyOf withSelf source target) (hs : g.IsComplete source) : g.IsComplete target where
  closed {i j x y} hx hy := by
    rw [h.derivesFrom_iff hg] at hx ⊢
    exact .inr (hs.derivesFrom (hx.imp_left And.right) hy)
  stands {i j x} hx := by
    rw [h.derivesFrom_iff hg] at hx
    exact hs.exists_idAt? (hx.imp_left And.right)

theorem IsTransposeOf.isComplete (hg : g.IsMinted) (h : g.IsTransposeOf source target)
    (hs : g.IsComplete source) : g.IsComplete target where
  closed {i j x y} hx hy := by
    rw [h.derivesFrom_iff hg] at hx ⊢
    exact .inr (hs.derivesFrom hx hy)
  stands {i j x} hx := by
    rw [h.derivesFrom_iff hg] at hx
    exact hs.exists_idAt? hx

/-! ### Products -/

/-- The cell at a position of a matrix hands on the cell `x` to products: it is no identity cell,
and it is the cell `x` or derives from it. -/
def FeedsFrom (g : Graph) (name : Text) (i j : Nat) (x : CellId) : Prop :=
  g.identityAt name i j = false ∧ g.HandsOn name i j x

theorem identityAt_of_lt {b : Block} (hb : g.matrices[name]? = some b) (hi : i < b.rows)
    (hj : j < b.cols) : g.identityAt name i j = (g.coreAt b i j).isIdentity := by
  rw [identityAt, cellAt?_of_lt hb hi hj]
  rfl

theorem IsComplete.feedsFrom (h : g.IsComplete name) (hx : g.FeedsFrom name i j x)
    (hy : y ∈ (g.cell x).dependencies) : g.FeedsFrom name i j y :=
  ⟨hx.1, .inr (h.derivesFrom hx.2 hy)⟩

theorem feeds_iff (hg : g.IsMinted) {b : Block} (hb : g.matrices[name]? = some b)
    (hi : i < b.rows) (hj : j < b.cols) :
    (g.coreAt b i j).Feeds false x ↔ g.FeedsFrom name i j x := by
  have hid : (g.coreAt b i j).id = g.idAt b i j := hg.id_cell _
  rw [FeedsFrom, identityAt_of_lt hb hi hj, HandsOn, derivesFrom_iff hb hi hj, idAt?_of_lt hb hi hj,
    Cell.Feeds, hid, Option.some.injEq]
  simp only [Bool.false_eq_true, false_and, not_false_eq_true, and_true]
  rw [or_comm, @eq_comm _ x]

/-- **The lineage of a product.** An entry derives from what those cells hand on that a nonzero term
of the entry takes. -/
theorem IsProductOf.derivesFrom_iff_feedsFrom (hg : g.IsMinted)
    (h : g.IsProductOf false left right target) (hM : g.Holds left M) (hN : g.Holds right N) :
    g.DerivesFrom target i j x ↔
      ∃ m, M.get i m ≠ 0 ∧ N.get m j ≠ 0 ∧ (g.FeedsFrom left i m x ∨ g.FeedsFrom right m j x) := by
  obtain ⟨l, r, t, hl, hr, ht, hc, hrow, hcol, hcells⟩ := h
  obtain ⟨b, hb, hbr, hbc, hleft⟩ := holds_iff.1 hM
  obtain rfl : b = l := Option.some.inj (hb.symm.trans hl)
  obtain ⟨c, hcb, hcr, hcc, hright⟩ := holds_iff.1 hN
  obtain rfl : c = r := Option.some.inj (hcb.symm.trans hr)
  have hnonzero {m : Nat} (hi : i < b.rows) (hj : j < c.cols) (hm : m < b.cols) :
      Dot.counts (g.coreAt b i m, g.coreAt c m j) = true ↔ M.get i m ≠ 0 ∧ N.get m j ≠ 0 := by
    rw [Dot.counts, hleft i m (hbr ▸ hi) (hbc ▸ hm), hright m j (hcr ▸ hc ▸ hm) (hcc ▸ hj)]
    simp
  by_cases hij : i < b.rows ∧ j < c.cols
  · obtain ⟨hi, hj⟩ := hij
    obtain ⟨d, hd, -, -, hdeps⟩ := hcells i j hi hj
    rw [Graph.derivesFrom_iff ht (hrow ▸ hi) (hcol ▸ hj), hdeps, Dot.mem_sources_ofPairs hd]
    simp only [pairsAt, List.mem_map, List.mem_range, exists_exists_and_eq_and]
    refine exists_congr fun m => ?_
    constructor
    · rintro ⟨hm, hcounts, hfeeds⟩
      rw [feeds_iff hg hb hi hm, feeds_iff hg hcb (hc ▸ hm) hj] at hfeeds
      exact ⟨((hnonzero hi hj hm).1 hcounts).1, ((hnonzero hi hj hm).1 hcounts).2, hfeeds⟩
    · rintro ⟨hM₀, hN₀, hfeeds⟩
      have hm : m < b.cols := hbc ▸ (IntMatrix.lt_of_get_ne_zero hM₀).2
      rw [feeds_iff hg hb hi hm, feeds_iff hg hcb (hc ▸ hm) hj]
      exact ⟨hm, (hnonzero hi hj hm).2 ⟨hM₀, hN₀⟩, hfeeds⟩
  · refine iff_of_false (fun h => ?_) ?_
    · have hlt := h.lt ht
      rw [hrow, hcol] at hlt
      exact hij hlt
    · rintro ⟨m, hM₀, hN₀, -⟩
      have h₁ := (IntMatrix.lt_of_get_ne_zero hM₀).1
      have h₂ := (IntMatrix.lt_of_get_ne_zero hN₀).2
      exact hij ⟨hbr ▸ h₁, hcc ▸ h₂⟩

/-- An identity cell of a product derives from nothing: all pairs that count are pairs of identity
cells. -/
theorem IsProductOf.identityAt_eq_false (h : g.IsProductOf false left right target)
    (hx : g.DerivesFrom target i j x) : g.identityAt target i j = false := by
  obtain ⟨l, r, t, hl, hr, ht, hc, hrow, hcol, hcells⟩ := h
  obtain ⟨hi, hj⟩ := hx.lt ht
  obtain ⟨d, hd, -, hidentity, hdeps⟩ := hcells i j (hrow ▸ hi) (hcol ▸ hj)
  rw [Graph.derivesFrom_iff ht hi hj, hdeps, Dot.mem_sources_ofPairs hd] at hx
  obtain ⟨p, hp, hcounts, hfeeds⟩ := hx
  rw [identityAt_of_lt ht hi hj, hidentity, Bool.eq_false_iff]
  intro hone
  obtain ⟨hleft, hright⟩ := ((Dot.isIdentity_ofPairs hd).1 hone).2.1 p hp hcounts
  rcases hfeeds with hfeeds | hfeeds
  · exact Bool.false_ne_true (hfeeds.1.symm.trans hleft)
  · exact Bool.false_ne_true (hfeeds.1.symm.trans hright)

theorem IsProductOf.isComplete (hg : g.IsMinted) (h : g.IsProductOf false left right target)
    (hM : g.Holds left M) (hN : g.Holds right N) (hl : g.IsComplete left)
    (hr : g.IsComplete right) : g.IsComplete target where
  closed {i j x y} hx hy := by
    rw [h.derivesFrom_iff_feedsFrom hg hM hN] at hx ⊢
    obtain ⟨m, hM₀, hN₀, hx | hx⟩ := hx
    · exact ⟨m, hM₀, hN₀, .inl (hl.feedsFrom hx hy)⟩
    · exact ⟨m, hM₀, hN₀, .inr (hr.feedsFrom hx hy)⟩
  stands {i j x} hx := by
    rw [h.derivesFrom_iff_feedsFrom hg hM hN] at hx
    obtain ⟨m, -, -, hx | hx⟩ := hx
    · exact hl.exists_idAt? hx.2
    · exact hr.exists_idAt? hx.2

/-! ### Traced matrices -/

/-- The matrix holds whole numbers of which none is negative, it has no identity cell, and its
lineage is complete. -/
structure IsTraced (g : Graph) (name : Text) (M : IntMatrix) : Prop
    extends IsComplete g name where
  holds : g.Holds name M
  isNonneg : M.IsNonneg
  isPlain : ∀ {b : Block} {i j : Nat}, g.matrices[name]? = some b → i < b.rows → j < b.cols →
    (g.coreAt b i j).isIdentity = false

theorem IsCopyOf.isTraced {withSelf : Bool} (hg : g.IsMinted)
    (h : g.IsCopyOf withSelf source target) (hM : g.IsTraced source M) : g.IsTraced target M where
  toIsComplete := h.isComplete hg hM.toIsComplete
  holds := h.holds hM.holds
  isNonneg := hM.isNonneg
  isPlain {b i j} hb hi hj := by
    obtain ⟨s, t, hs, ht, hr, hc, hcells⟩ := h
    obtain rfl : b = t := Option.some.inj (hb.symm.trans ht)
    rw [hr] at hi
    rw [hc] at hj
    exact (hcells i j hi hj).isIdentity.trans (hM.isPlain hs hi hj)

theorem IsTransposeOf.isTraced (hg : g.IsMinted) (h : g.IsTransposeOf source target)
    (hM : g.IsTraced source M) : g.IsTraced target M.transpose where
  toIsComplete := h.isComplete hg hM.toIsComplete
  holds := h.holds hM.holds
  isNonneg := IntMatrix.isNonneg_transpose hM.isNonneg
  isPlain {b i j} hb hi hj := by
    obtain ⟨s, t, hs, ht, hr, hc, hcells⟩ := h
    obtain rfl : b = t := Option.some.inj (hb.symm.trans ht)
    rw [hr] at hi
    rw [hc] at hj
    exact (hcells j i hj hi).isIdentity.trans (hM.isPlain hs hj hi)

/-- A cell of a traced matrix hands on to a product what it hands on. -/
theorem IsTraced.feedsFrom_iff (hM : g.IsTraced name M) :
    g.FeedsFrom name i j x ↔ g.HandsOn name i j x := by
  refine and_iff_right_of_imp fun hx => ?_
  obtain ⟨b, hb, -⟩ := holds_iff.1 hM.holds
  obtain ⟨hi, hj⟩ : i < b.rows ∧ j < b.cols := hx.elim (lt_of_idAt? · hb) (·.lt hb)
  rw [identityAt_of_lt hb hi hj]
  exact hM.isPlain hb hi hj

/-- The lineage of a product of traced matrices. -/
theorem IsProductOf.derivesFrom_iff (hg : g.IsMinted) (h : g.IsProductOf false left right target)
    (hM : g.IsTraced left M) (hN : g.IsTraced right N) : g.DerivesFrom target i j x ↔
      ∃ m, M.get i m ≠ 0 ∧ N.get m j ≠ 0 ∧ (g.HandsOn left i m x ∨ g.HandsOn right m j x) := by
  rw [h.derivesFrom_iff_feedsFrom hg hM.holds hN.holds]
  refine exists_congr fun m => ?_
  rw [hM.feedsFrom_iff, hN.feedsFrom_iff]

theorem IsProductOf.isTraced (hg : g.IsMinted) (h : g.IsProductOf false left right target)
    (hM : g.IsTraced left M) (hN : g.IsTraced right N) (hP : M.mul? N = some P) :
    g.IsTraced target P where
  toIsComplete := h.isComplete hg hM.holds hN.holds hM.toIsComplete hN.toIsComplete
  holds := h.holds hM.holds hN.holds hP
  isNonneg := IntMatrix.isNonneg_mul? hM.isNonneg hN.isNonneg hP
  isPlain {b i j} hb hi hj := by
    obtain ⟨l, r, t, hl, hr, ht, hc, hrow, hcol, hcells⟩ := h
    obtain rfl : b = t := Option.some.inj (hb.symm.trans ht)
    rw [hrow] at hi
    rw [hcol] at hj
    obtain ⟨d, hd, -, hidentity, -⟩ := hcells i j hi hj
    rw [hidentity, Bool.eq_false_iff, ne_eq, Dot.isIdentity_ofPairs hd]
    rintro ⟨⟨p, hp, hcounts⟩, hall, -⟩
    obtain ⟨m, hm, rfl⟩ := List.mem_map.1 hp
    have hleft := (hall _ hp hcounts).1
    rw [hM.isPlain hl hi (List.mem_range.1 hm)] at hleft
    cases hleft

/-! ### The search through the graph -/

theorem self_mem_allDependencies (hz : z ∈ g.nodes) : z ∈ g.allDependencies z := by
  rw [allDependencies, mem_sortedNames, mem_gather_iff]
  exact .seed List.mem_cons_self (mem_allIds.2 hz)

/-- The search goes on from what it finds. -/
theorem mem_allDependencies_of_mem (hg : g.IsWellFormed) (hx : x ∈ g.allDependencies z)
    (hy : y ∈ (g.cell x).dependencies) : y ∈ g.allDependencies z := by
  rw [allDependencies, mem_sortedNames, mem_gather_iff] at hx ⊢
  exact .step hx hy (mem_allIds.2 (hg.mem_nodes hy))

/-- What holds of a cell and is passed on along dependencies holds of all that the search finds. -/
theorem allDependencies_induction {p : CellId → Prop} (hz : p z)
    (hstep : ∀ a, p a → ∀ b ∈ (g.cell a).dependencies, p b) (hx : x ∈ g.allDependencies z) :
    p x := by
  rw [allDependencies, mem_sortedNames, mem_gather_iff] at hx
  induction hx with
  | seed hx _ =>
    obtain rfl := List.mem_singleton.1 hx
    exact hz
  | step _ hx _ ih => exact hstep _ ih _ hx

/-- **The lineage of a traced cell** is what it hands on. -/
theorem mem_allDependencies_iff (hg : g.IsWellFormed) (hM : g.IsTraced name M)
    (hz : g.idAt? name i j = some z) : x ∈ g.allDependencies z ↔ g.HandsOn name i j x := by
  constructor
  · exact allDependencies_induction (.inl hz) fun a ha b hb => .inr (hM.derivesFrom ha hb)
  · have hself : z ∈ g.allDependencies z := by
      obtain ⟨b, hb, hi, hj, rfl⟩ := idAt?_eq_some_iff.1 hz
      exact self_mem_allDependencies (hg.idAt_mem hb hi hj)
    rintro (hx | ⟨w, hw, hx⟩)
    · obtain rfl := Option.some.inj (hz.symm.trans hx)
      exact hself
    · obtain rfl := Option.some.inj (hz.symm.trans hw)
      exact mem_allDependencies_of_mem hg hself hx

end CellLineage.Graph
