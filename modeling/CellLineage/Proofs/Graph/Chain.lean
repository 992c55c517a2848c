import CellLineage.Proofs.Graph.Contribution

/-!
# Products of products

A product that was given a name can be a factor of further products. Derived cells are to hand on
what they derive from and not their own ids, so that all products derive from painted cells. But a
cell counts as derived only if it derives from something. A cell of a product that is none, not zero
and no identity cell is *bare*: a further product takes it for a painted one.

## Main definitions

* `Cell.IsBare`: a cell of a product is taken for a painted one.
* `Graph.NamedProduct`, `Graph.formAll`: products formed one after another.
* `Graph.HandedOnBare`: the bare cells among the factors.

## Main results

* `Cell.IsEntry.isBare_iff`: the entries that are bare.
* `Graph.formAll_dependencies`: what products of products derive from.
-/

namespace CellLineage

/-- The cell is not zero, no identity cell and derives from nothing, as if it were painted. -/
structure Cell.IsBare (c : Cell) : Prop where
  isNonzero : c.value.isNonzero = true
  isIdentity : c.isIdentity = false
  dependencies : c.dependencies = []

/-! ### Bare entries -/

namespace Cell

variable {c : Cell} {leafOnly : Bool} {n : Nat} {row column : Nat → Cell} {x : CellId}

/-- Identity cells hand on nothing, and all others something. -/
theorem exists_feeds (leafOnly : Bool) (h : c.isIdentity = false) : ∃ x, c.Feeds leafOnly x := by
  cases hdeps : c.dependencies with
  | nil => exact ⟨c.id, h, .inr ⟨rfl, fun hne => hne.2 hdeps⟩⟩
  | cons x xs => exact ⟨x, h, .inl (hdeps ▸ List.mem_cons_self)⟩

/-- A cell that hands on its own id alone is bare or a painted one. -/
theorem Feeds.mem_dependencies_or (h : c.Feeds true x) (hvalue : c.value.isNonzero = true) :
    x ∈ c.dependencies ∨ c.IsBare ∧ c.id = x := by
  obtain ⟨hidentity, hx | ⟨rfl, hleaf⟩⟩ := h
  · exact .inl hx
  · rw [not_and, not_not] at hleaf
    exact .inr ⟨⟨hvalue, hidentity, hleaf rfl⟩, rfl⟩

/-- Two factors that are not both nonzero have the product zero. -/
theorem mul_toInt_of_not_counts {a b : Cell} (h : Dot.counts (a, b) = false) :
    a.value.toInt * b.value.toInt = 0 := by
  have hzero {v : Number} (hv : v.isNonzero = false) : v.toInt = 0 := by
    cases v with
    | int m => exact not_not.1 fun hne => Bool.false_ne_true (hv ▸ (Number.isNonzero_int m).2 hne)
    | float y => rfl
  rcases Bool.and_eq_false_iff.1 h with h | h
  · rw [hzero h, Int.zero_mul]
  · rw [hzero h, Int.mul_zero]

theorem IsEntry.exists_counts (h : c.IsEntry leafOnly n row column) (hvalue : c.value ≠ .int 0) :
    ∃ k < n, Dot.counts (row k, column k) = true := by
  by_contra hnone
  push Not at hnone
  refine hvalue (h.value.trans (congrArg _ (Finset.sum_eq_zero fun k hk => ?_)))
  exact mul_toInt_of_not_counts (Bool.not_eq_true _ ▸ hnone k (Finset.mem_range.1 hk))

/-- **The entries that are bare** are those that only pairs of identity cells make, unless the value
is zero or one. -/
theorem IsEntry.isBare_iff (h : c.IsEntry leafOnly n row column) : c.IsBare ↔
    c.value ≠ .int 0 ∧ c.value ≠ .int 1 ∧ ∀ k < n, Dot.counts (row k, column k) = true →
      Dot.countsAsIdentity (row k, column k) = true := by
  have hnonzero : c.value.isNonzero = true ↔ c.value ≠ .int 0 := by
    rw [h.value, Number.isNonzero_int, ne_eq, ne_eq, Number.int.injEq]
  constructor
  · rintro ⟨hvalue, hidentity, hdeps⟩
    -- a pair with another cell would have left that cell or what it derives from
    have hpairs : ∀ k < n, Dot.counts (row k, column k) = true →
        Dot.countsAsIdentity (row k, column k) = true := by
      intro k hk hcounts
      by_contra hpair
      rw [Bool.not_eq_true] at hpair
      have hfeeds : ∃ x, (row k).Feeds leafOnly x ∨ (column k).Feeds leafOnly x := by
        rw [Dot.countsAsIdentity, hcounts, Bool.true_and, Bool.and_eq_false_iff] at hpair
        rcases hpair with hpair | hpair
        · exact (exists_feeds leafOnly hpair).imp fun x => .inl
        · exact (exists_feeds leafOnly hpair).imp fun x => .inr
      obtain ⟨x, hx⟩ := hfeeds
      have hmem := (h.mem_dependencies_iff x).2 ⟨k, hk, hcounts, hpair, hx⟩
      rw [hdeps] at hmem
      cases hmem
    refine ⟨hnonzero.1 hvalue, fun hone => ?_, hpairs⟩
    have hid := h.isIdentity_iff.2 ⟨h.exists_counts (hnonzero.1 hvalue), hpairs, hone⟩
    rw [hidentity] at hid
    cases hid
  · rintro ⟨hzero, hone, hpairs⟩
    refine ⟨hnonzero.2 hzero, ?_, List.eq_nil_iff_forall_not_mem.2 fun x hx => ?_⟩
    · rw [← Bool.not_eq_true, h.isIdentity_iff]
      exact fun hid => hone hid.2.2
    · obtain ⟨k, hk, hcounts, hpair, -⟩ := (h.mem_dependencies_iff x).1 hx
      rw [hpairs k hk hcounts] at hpair
      cases hpair

/-- If one cell of the row at most is an identity cell, and identity cells are ones, no entry is
bare. -/
theorem IsEntry.not_isBare (h : c.IsEntry leafOnly n row column)
    (hrow : ∀ k < n, (row k).isIdentity = true → (row k).value.toInt = 1 ∧
      ∀ k' < n, (row k').isIdentity = true → k' = k)
    (hcolumn : ∀ k < n, (column k).isIdentity = true → (column k).value.toInt = 1) :
    ¬c.IsBare := by
  intro hbare
  obtain ⟨hzero, hone, hpairs⟩ := h.isBare_iff.1 hbare
  obtain ⟨k, hk, hcounts⟩ := h.exists_counts hzero
  have hidentity {k : Nat} (hk : k < n) (hcounts : Dot.counts (row k, column k) = true) :
      (row k).isIdentity = true ∧ (column k).isIdentity = true := by
    have hpair := hpairs k hk hcounts
    rwa [Dot.countsAsIdentity, hcounts, Bool.true_and, Bool.and_eq_true] at hpair
  obtain ⟨hleft, hright⟩ := hidentity hk hcounts
  have hothers : ∀ k' ∈ Finset.range n, k' ≠ k →
      (row k').value.toInt * (column k').value.toInt = 0 := by
    intro k' hk' hne
    rw [Finset.mem_range] at hk'
    refine mul_toInt_of_not_counts (Bool.eq_false_iff.2 fun hcounts' => hne ?_)
    exact (hrow k hk hleft).2 k' hk' (hidentity hk' hcounts').1
  apply hone
  rw [h.value, Finset.sum_eq_single_of_mem k (Finset.mem_range.2 hk) hothers, (hrow k hk hleft).1,
    hcolumn k hk hright, Int.mul_one]

end Cell

/-! ### Products one after another -/

namespace Graph

variable {g g' : Graph} {name : Text} {x : CellId}

/-- A product of two matrices that goes to the matrix of a name. -/
structure NamedProduct where
  left : Text
  right : Text
  result : Text

namespace NamedProduct

/-- Forms the product; derived cells are not to hand on their own ids. -/
def run (p : NamedProduct) : Run (Option Issue) :=
  multiply p.left p.right p.result true

/-- The product goes to a matrix that the graph does not have and that is neither of its factors. -/
structure IsFresh (p : NamedProduct) (g : Graph) : Prop where
  missing : g.matrices[p.result]? = none
  ne_left : p.result ≠ p.left
  ne_right : p.result ≠ p.right

end NamedProduct

/-- The graph after products were formed one after another. -/
def formAll (g : Graph) (ps : List NamedProduct) : Graph :=
  ps.foldl (fun g p => after p.run g) g

theorem formAll_append_singleton (g : Graph) (ps : List NamedProduct) (q : NamedProduct) :
    g.formAll (ps ++ [q]) = after q.run (g.formAll ps) := by
  rw [formAll, List.foldl_append]
  rfl

/-- The id is that of a cell of a matrix of the graph. -/
def IsPainted (g : Graph) (x : CellId) : Prop :=
  ∃ (name : Text) (b : Block), g.matrices[name]? = some b ∧ x ∈ g.idSet b

/-- The id is that of a bare cell of a product that became a factor of a later one. -/
def HandedOnBare (g : Graph) (ps : List NamedProduct) (x : CellId) : Prop :=
  ∃ before q after, ps = before ++ q :: after ∧ ∃ name, (name = q.left ∨ name = q.right) ∧
    g.matrices[name]? = none ∧ ∃ c ∈ (g.formAll before).cells name, c.IsBare ∧ c.id = x

theorem HandedOnBare.append {ps : List NamedProduct} (h : g.HandedOnBare ps x)
    (q : NamedProduct) : g.HandedOnBare (ps ++ [q]) x := by
  obtain ⟨before, p, after, rfl, h⟩ := h
  exact ⟨before, p, after ++ [q], by simp, h⟩

/-- The identity cells of the matrix are ones, one in each row at most. -/
def HasSingleUnits (g : Graph) (b : Block) : Prop :=
  ∀ i < b.rows, ∀ j < b.cols, (g.cell (g.idAt b i j)).isIdentity = true →
    (g.cell (g.idAt b i j)).value.toInt = 1 ∧
      ∀ k < b.cols, (g.cell (g.idAt b i k)).isIdentity = true → k = j

instance (g : Graph) (b : Block) : Decidable (g.HasSingleUnits b) := by
  unfold HasSingleUnits
  infer_instance

/-- A matrix that is kept has the same cells, except for what is derived from them. -/
theorem Keeps.exists_core_eq (h : g.Keeps g' name) {c : Cell} (hc : c ∈ g'.cells name) :
    ∃ d ∈ g.cells name, d.core = c.core := by
  obtain ⟨b, i, j, hb, hi, hj, rfl⟩ := mem_cells_iff.1 hc
  have hb' : g.matrices[name]? = some b := h.matrices.symm.trans hb
  exact ⟨_, mem_cells_iff.2 ⟨b, i, j, hb', hi, hj, rfl⟩, (h.coreAt hb' hi hj).symm⟩

/-- The second graph comes from the first one by forming the product. -/
def Forms (g : Graph) (p : NamedProduct) (g' : Graph) : Prop :=
  ∃ l r t, g.matrices[p.left]? = some l ∧ g.matrices[p.right]? = some r ∧ l.cols = r.rows ∧
    g.DiffersAt g' p.result t ∧ t.shape = (l.rows, r.cols) ∧
    ∀ i j, i < l.rows → j < r.cols → (g'.cell (g'.idAt t i j)).IsEntry true l.cols
      (fun k => g.cell (g.idAt l i k)) fun k => g.cell (g.idAt r k j)

/-- All matrices of the first graph are in the second one as they are there, and that has whole
numbers only. -/
structure IsPaintedIn (g g' : Graph) : Prop where
  isWellFormed : g'.IsWellFormed
  isInt : ∀ name, ∀ c ∈ g'.cells name, c.IsInt
  keeps : ∀ {name : Text} {b : Block}, g.matrices[name]? = some b → g.Keeps g' name

section

variable {p : NamedProduct} {c : Cell}

theorem NamedProduct.run_cases (hg : g.IsWellFormed) (hint : ∀ name, ∀ c ∈ g.cells name, c.IsInt)
    (hleft : p.result ≠ p.left) (hright : p.result ≠ p.right) :
    (∃ issue, p.run g = .ok (some issue) g) ∨ ∃ g', p.run g = .ok none g' ∧ g.Forms p g' := by
  cases hissue : g.productIssue? p.left p.right with
  | some issue => exact .inl ⟨issue, multiply_of_productIssue? true hissue⟩
  | none =>
    obtain ⟨l, r, hl, hr, hfits⟩ := exists_of_productIssue?_eq_none hissue
    have hints : ∀ c ∈ g.cells p.left ++ g.cells p.right, c.IsInt := fun c hc =>
      (List.mem_append.1 hc).elim (hint _ c) (hint _ c)
    obtain ⟨g', t, hrun, h⟩ := multiply_entries hg true hleft hright hl hr hfits hints
    exact .inr ⟨g', hrun, l, r, t, hl, hr, hfits, h⟩

theorem Forms.keeps (h : g.Forms p g') (hne : name ≠ p.result) : g.Keeps g' name := by
  obtain ⟨l, r, t, -, -, -, hdiffers, -⟩ := h
  exact hdiffers.keeps name hne

/-- The matrix of a product holds the entries that the factors make. -/
theorem Forms.isEntry (h : g.Forms p g') {t : Block} (ht : g'.matrices[p.result]? = some t) :
    ∃ l r, g.matrices[p.left]? = some l ∧ g.matrices[p.right]? = some r ∧ l.cols = r.rows ∧
      t.rows = l.rows ∧ t.cols = r.cols ∧ ∀ i j, i < l.rows → j < r.cols →
        (g'.cell (g'.idAt t i j)).IsEntry true l.cols (fun k => g.cell (g.idAt l i k))
          fun k => g.cell (g.idAt r k j) := by
  obtain ⟨l, r, t', hl, hr, hfits, hdiffers, hshape, hentries⟩ := h
  obtain rfl : t' = t := Option.some.inj (hdiffers.matrices.symm.trans ht)
  obtain ⟨hrows, hcols⟩ := Prod.mk.inj hshape
  exact ⟨l, r, hl, hr, hfits, hrows, hcols, hentries⟩

/-- The cells of a product are entries, made from cells of the factors. -/
theorem Forms.exists_isEntry (h : g.Forms p g') (hc : c ∈ g'.cells p.result) :
    ∃ n row column, c.IsEntry true n row column ∧
      ∀ k < n, row k ∈ g.cells p.left ∧ column k ∈ g.cells p.right := by
  obtain ⟨t, i, j, ht, hi, hj, rfl⟩ := mem_cells_iff.1 hc
  obtain ⟨l, r, hl, hr, hfits, hrows, hcols, hentries⟩ := h.isEntry ht
  rw [hrows] at hi
  rw [hcols] at hj
  exact ⟨l.cols, _, _, hentries i j hi hj, fun k hk => ⟨mem_cells_iff.2 ⟨l, i, k, hl, hi, hk, rfl⟩,
    mem_cells_iff.2 ⟨r, k, j, hr, hfits ▸ hk, hj, rfl⟩⟩⟩

theorem IsPaintedIn.refl (hg : g.IsWellFormed) (hint : ∀ name, ∀ c ∈ g.cells name, c.IsInt) :
    g.IsPaintedIn g :=
  ⟨hg, hint, fun _ => .refl g _⟩

/-- **One more product** keeps the painted matrices. -/
theorem IsPaintedIn.of_forms {g₀ : Graph} (h : g₀.IsPaintedIn g) (hfresh : p.IsFresh g₀)
    (hforms : g.Forms p g') : g₀.IsPaintedIn g' where
  isWellFormed := by
    obtain ⟨l, r, t, -, -, -, hdiffers, -⟩ := hforms
    exact hdiffers.isWellFormed
  isInt name c hc := by
    by_cases hname : name = p.result
    · subst hname
      obtain ⟨n, row, column, hentry, -⟩ := hforms.exists_isEntry hc
      exact Cell.isInt_iff.2 ⟨_, hentry.value⟩
    · obtain ⟨d, hd, hcore⟩ := (hforms.keeps hname).exists_core_eq hc
      obtain ⟨hvalue, -, -⟩ := Cell.fields_of_core_eq hcore
      exact Cell.isInt_iff.2 ((Cell.isInt_iff.1 (h.isInt name d hd)).imp fun m => (hvalue ▸ ·))
  keeps {name b} hb := by
    have hne : name ≠ p.result := by
      rintro rfl
      rw [hfresh.missing] at hb
      cases hb
    exact (h.keeps hb).trans (hforms.keeps hne)

/-- What a factor hands on to a product is something that it derives from, or it is the id of a
painted cell or of a bare one. -/
theorem IsPaintedIn.feeds_cases {g₀ : Graph} (h : g₀.IsPaintedIn g) (hc : c ∈ g.cells name)
    (hvalue : c.value.isNonzero = true) (hx : c.Feeds true x) :
    x ∈ c.dependencies ∨ g₀.IsPainted x ∨
      g₀.matrices[name]? = none ∧ c.IsBare ∧ c.id = x := by
  rcases hx.mem_dependencies_or hvalue with hdeps | ⟨hbare, rfl⟩
  · exact .inl hdeps
  · cases hb : g₀.matrices[name]? with
    | none => exact .inr (.inr ⟨rfl, hbare, rfl⟩)
    | some b =>
      obtain ⟨b', i, j, hb', hi, hj, rfl⟩ := mem_cells_iff.1 hc
      have hkeeps := h.keeps hb
      obtain rfl : b = b' := Option.some.inj (hb.symm.trans (hkeeps.matrices.symm.trans hb'))
      have hid : (g.cell (g.idAt b i j)).id = g₀.idAt b i j :=
        (h.isWellFormed.id_cell _).trans (hkeeps.idAt_eq b i j)
      exact .inr (.inl ⟨name, b, hb, i, j, hi, hj, hid⟩)

end

/-! ### What products of products derive from -/

variable {ps : List NamedProduct}

/-- **Products one after another**: none stops the run, painted matrices stay as they are, and what
a cell derives from is painted or was handed on by a bare cell. -/
theorem formAll_spec (hg : g.IsWellFormed)
    (hpainted : ∀ name, ∀ c ∈ g.cells name, c.IsInt ∧ c.dependencies = [])
    (hps : ∀ p ∈ ps, p.IsFresh g) :
    (∃ issues, ps.mapM NamedProduct.run g = .ok issues (g.formAll ps)) ∧
      g.IsPaintedIn (g.formAll ps) ∧
      ∀ name, ∀ c ∈ (g.formAll ps).cells name, ∀ x ∈ c.dependencies,
        g.IsPainted x ∨ g.HandedOnBare ps x := by
  -- on the products, the last one first
  induction ps using List.reverseRecOn with
  | nil =>
    refine ⟨⟨[], rfl⟩, IsPaintedIn.refl hg fun name c hc => (hpainted name c hc).1, ?_⟩
    intro name c hc x hx
    rw [(hpainted name c hc).2] at hx
    cases hx
  | append_singleton ps q ih =>
    obtain ⟨⟨issues, hruns⟩, hext, hdeps⟩ := ih fun p hp => hps p (List.mem_append_left _ hp)
    have hfresh := hps q (List.mem_append_right _ (List.mem_singleton_self q))
    have hmapM {issue : Option Issue} {g' : Graph} (hrun : q.run (g.formAll ps) = .ok issue g') :
        (ps ++ [q]).mapM NamedProduct.run g = .ok (issues ++ [issue]) g' := by
      rw [List.mapM_append, bind_eq_of_ok hruns, List.mapM_cons, bind_assoc, bind_eq_of_ok hrun]
      rfl
    rcases q.run_cases hext.isWellFormed hext.isInt hfresh.ne_left hfresh.ne_right with
      ⟨issue, hrun⟩ | ⟨g', hrun, hforms⟩
    · rw [formAll_append_singleton, after_of_ok hrun]
      exact ⟨⟨_, hmapM hrun⟩, hext, fun name c hc x hx =>
        (hdeps name c hc x hx).imp_right fun h => h.append q⟩
    · rw [formAll_append_singleton, after_of_ok hrun]
      refine ⟨⟨_, hmapM hrun⟩, hext.of_forms hfresh hforms, fun name c hc x hx => ?_⟩
      -- what a factor hands on is in its dependencies, painted, or a bare cell that is handed on
      have hfactor {name : Text} {d : Cell} (hname : name = q.left ∨ name = q.right)
          (hd : d ∈ (g.formAll ps).cells name) (hvalue : d.value.isNonzero = true)
          (hx : d.Feeds true x) : g.IsPainted x ∨ g.HandedOnBare (ps ++ [q]) x := by
        rcases hext.feeds_cases hd hvalue hx with hx | hx | ⟨hnone, hbare, hid⟩
        · exact (hdeps name d hd x hx).imp_right fun h => h.append q
        · exact .inl hx
        · exact .inr ⟨ps, q, [], rfl, name, hname, hnone, d, hd, hbare, hid⟩
      by_cases hname : name = q.result
      · subst hname
        obtain ⟨n, row, column, hentry, hcells⟩ := hforms.exists_isEntry hc
        obtain ⟨k, hk, hcounts, -, hx⟩ := (hentry.mem_dependencies_iff x).1 hx
        obtain ⟨hrow, hcolumn⟩ := Bool.and_eq_true_iff.1 hcounts
        rcases hx with hx | hx
        · exact hfactor (.inl rfl) (hcells k hk).1 hrow hx
        · exact hfactor (.inr rfl) (hcells k hk).2 hcolumn hx
      · obtain ⟨d, hd, hcore⟩ := (hforms.keeps hname).exists_core_eq hc
        obtain ⟨-, -, hdependencies⟩ := Cell.fields_of_core_eq hcore
        exact (hdeps name d hd x (hdependencies ▸ hx)).imp_right fun h => h.append q

/-! ### Single units -/

theorem Keeps.hasSingleUnits (h : g.Keeps g' name) {b : Block} (hb : g.matrices[name]? = some b)
    (hunits : g.HasSingleUnits b) : g'.HasSingleUnits b := by
  intro i hi j hj hidentity
  have hcell {k : Nat} (hk : k < b.cols) :
      (g'.cell (g'.idAt b i k)).value = (g.cell (g.idAt b i k)).value ∧
        (g'.cell (g'.idAt b i k)).isIdentity = (g.cell (g.idAt b i k)).isIdentity := by
    obtain ⟨hvalue, hidentity, -⟩ := Cell.fields_of_core_eq (h.coreAt hb hi hk)
    exact ⟨hvalue, hidentity⟩
  obtain ⟨hvalue, hothers⟩ := hunits i hi j hj ((hcell hj).2.symm.trans hidentity)
  exact ⟨(congrArg _ (hcell hj).1).trans hvalue, fun k hk hidk =>
    hothers k hk ((hcell hk).2.symm.trans hidk)⟩

section

variable {p : NamedProduct} {c : Cell}

/-- A product of matrices with single units has single units: a row of it has an identity cell only
where a row of the right factor has one, and which row that is the row of the left factor says. -/
theorem Forms.hasSingleUnits (h : g.Forms p g')
    (hunits : ∀ (name : Text) (b : Block), g.matrices[name]? = some b → g.HasSingleUnits b)
    {t : Block} (ht : g'.matrices[p.result]? = some t) : g'.HasSingleUnits t := by
  obtain ⟨l, r, hl, hr, hfits, hrows, hcols, hentries⟩ := h.isEntry ht
  intro i hi j hj hidentity
  rw [hrows] at hi
  rw [hcols] at hj
  have hpair {j : Nat} (hj : j < r.cols)
      (hidentity : (g'.cell (g'.idAt t i j)).isIdentity = true) :
      ∃ k < l.cols, (g.cell (g.idAt l i k)).isIdentity = true ∧
        (g.cell (g.idAt r k j)).isIdentity = true := by
    obtain ⟨⟨k, hk, hcounts⟩, hpairs, -⟩ := (hentries i j hi hj).isIdentity_iff.1 hidentity
    have hboth := hpairs k hk hcounts
    rw [Dot.countsAsIdentity, hcounts, Bool.true_and, Bool.and_eq_true] at hboth
    exact ⟨k, hk, hboth⟩
  refine ⟨congrArg _ ((hentries i j hi hj).isIdentity_iff.1 hidentity).2.2, fun j' hj' hid => ?_⟩
  rw [hcols] at hj'
  obtain ⟨k, hk, hlk, hrk⟩ := hpair hj hidentity
  obtain ⟨k', hk', hlk', hrk'⟩ := hpair hj' hid
  obtain rfl := (hunits _ l hl i hi k hk hlk).2 k' hk' hlk'
  exact (hunits _ r hr k' (hfits ▸ hk') j hj hrk).2 j' hj' hrk'

theorem Forms.not_isBare (h : g.Forms p g')
    (hunits : ∀ (name : Text) (b : Block), g.matrices[name]? = some b → g.HasSingleUnits b)
    (hc : c ∈ g'.cells p.result) : ¬c.IsBare := by
  obtain ⟨t, i, j, ht, hi, hj, rfl⟩ := mem_cells_iff.1 hc
  obtain ⟨l, r, hl, hr, hfits, hrows, hcols, hentries⟩ := h.isEntry ht
  rw [hrows] at hi
  rw [hcols] at hj
  exact (hentries i j hi hj).not_isBare (hunits _ l hl i hi) fun k hk hidentity =>
    (hunits _ r hr k (hfits ▸ hk) j hj hidentity).1

end

/-- **From matrices with single units** only such are formed, and no cell of a product is bare. -/
theorem formAll_hasSingleUnits (hg : g.IsWellFormed)
    (hpainted : ∀ name, ∀ c ∈ g.cells name, c.IsInt ∧ c.dependencies = [])
    (hps : ∀ p ∈ ps, p.IsFresh g)
    (hunits : ∀ (name : Text) (b : Block), g.matrices[name]? = some b → g.HasSingleUnits b) :
    (∀ (name : Text) (b : Block), (g.formAll ps).matrices[name]? = some b →
      (g.formAll ps).HasSingleUnits b) ∧
      ∀ name : Text, g.matrices[name]? = none → ∀ c ∈ (g.formAll ps).cells name, ¬c.IsBare := by
  induction ps using List.reverseRecOn with
  | nil =>
    refine ⟨hunits, fun name hnone c hc => ?_⟩
    obtain ⟨b, -, -, hb, -⟩ := mem_cells_iff.1 hc
    rw [formAll, List.foldl_nil, hnone] at hb
    cases hb
  | append_singleton ps q ih =>
    have hps' : ∀ p ∈ ps, p.IsFresh g := fun p hp => hps p (List.mem_append_left _ hp)
    obtain ⟨hsingle, hbare⟩ := ih hps'
    obtain ⟨-, hext, -⟩ := formAll_spec hg hpainted hps'
    have hfresh := hps q (List.mem_append_right _ (List.mem_singleton_self q))
    rcases q.run_cases hext.isWellFormed hext.isInt hfresh.ne_left hfresh.ne_right with
      ⟨issue, hrun⟩ | ⟨g', hrun, hforms⟩
    · rw [formAll_append_singleton, after_of_ok hrun]
      exact ⟨hsingle, hbare⟩
    · rw [formAll_append_singleton, after_of_ok hrun]
      constructor
      · intro name b hb
        by_cases hname : name = q.result
        · exact hforms.hasSingleUnits hsingle (hname ▸ hb)
        · have hkeeps := hforms.keeps hname
          have hb' := hkeeps.matrices.symm.trans hb
          exact hkeeps.hasSingleUnits hb' (hsingle name b hb')
      · intro name hnone c hc
        by_cases hname : name = q.result
        · exact hforms.not_isBare hsingle (hname ▸ hc)
        · obtain ⟨d, hd, hcore⟩ := (hforms.keeps hname).exists_core_eq hc
          obtain ⟨hvalue, hidentity, hdependencies⟩ := Cell.fields_of_core_eq hcore
          rintro ⟨hc₁, hc₂, hc₃⟩
          exact hbare name hnone d hd
            ⟨hvalue ▸ hc₁, hidentity.trans hc₂, hdependencies.trans hc₃⟩

theorem not_handedOnBare (hg : g.IsWellFormed)
    (hpainted : ∀ name, ∀ c ∈ g.cells name, c.IsInt ∧ c.dependencies = [])
    (hps : ∀ p ∈ ps, p.IsFresh g)
    (hunits : ∀ (name : Text) (b : Block), g.matrices[name]? = some b → g.HasSingleUnits b) :
    ¬g.HandedOnBare ps x := by
  rintro ⟨before, q, after, rfl, name, -, hnone, c, hc, hbare, -⟩
  have hbefore : ∀ p ∈ before, p.IsFresh g := fun p hp => hps p (List.mem_append_left _ hp)
  exact (formAll_hasSingleUnits hg hpainted hbefore hunits).2 name hnone c hc hbare

/-- **What products of products derive from.** Products of painted matrices and of earlier products
are formed one after another; where there is no product, the issue is told and the graph stays as it
is. What a cell then derives from is painted or a bare cell of a product that was a factor. It is
always painted if the identity cells of painted matrices are ones, one in each row at most. -/
theorem formAll_dependencies (hg : g.IsReachable)
    (hpainted : ∀ name, ∀ c ∈ g.cells name, c.IsInt ∧ c.dependencies = [])
    (hps : ∀ p ∈ ps, p.IsFresh g) :
    (∃ issues, ps.mapM NamedProduct.run g = .ok issues (g.formAll ps)) ∧
      ∀ name, ∀ c ∈ (g.formAll ps).cells name, ∀ x ∈ c.dependencies,
        (g.IsPainted x ∨ g.HandedOnBare ps x) ∧
        ((∀ (name : Text) (b : Block), g.matrices[name]? = some b → g.HasSingleUnits b) →
          g.IsPainted x) := by
  obtain ⟨hruns, -, hdeps⟩ := formAll_spec hg.isWellFormed hpainted hps
  refine ⟨hruns, fun name c hc x hx => ⟨hdeps name c hc x hx, fun hunits => ?_⟩⟩
  exact (hdeps name c hc x hx).resolve_right (not_handedOnBare hg.isWellFormed hpainted hps hunits)

/-- What holds of the matrices that are listed holds of all. -/
theorem forall_matrices {P : Text → Block → Prop} (h : ∀ e ∈ g.matrices.toList, P e.1 e.2)
    (name : Text) (b : Block) (hb : g.matrices[name]? = some b) : P name b :=
  h _ (Std.ExtTreeMap.mem_toList_iff_getElem?_eq_some.2 hb)

theorem forall_cells {P : Cell → Prop} (h : ∀ e ∈ g.matrices.toList, ∀ c ∈ g.cells e.1, P c)
    (name : Text) : ∀ c ∈ g.cells name, P c := by
  intro c hc
  obtain ⟨b, -, -, hb, -⟩ := mem_cells_iff.1 hc
  exact forall_matrices (P := fun name _ => ∀ c ∈ g.cells name, P c) h name b hb c hc

/-- A row, an identity matrix and a column. -/
def unitsGraph : Graph :=
  runAll "elem" [.initMatrix "A" 1 2, .initMatrix "I" 2 2, .initMatrix "B" 2 1,
    .update "A" 0 0 (.int 2) none none none, .update "I" 0 0 (.int 1) none (some true) none,
    .update "I" 1 1 (.int 1) none (some true) none, .update "B" 0 0 (.int 3) none none none,
    .update "B" 1 0 (.int 5) none none none]

/-- The product of `A`, `I` and `B` derives from `A` and `B`. -/
theorem formAll_dependencies_sample :
    ∃ c ∈ (unitsGraph.formAll [⟨"A", "I", "C"⟩, ⟨"C", "B", "D"⟩]).cells "D",
      c.dependencies = ["elem_0", "elem_6"] ∧ ∀ x ∈ c.dependencies, unitsGraph.IsPainted x := by
  have hpainted := forall_cells (g := unitsGraph) (P := fun c => c.IsInt ∧ c.dependencies = [])
    (by decide +kernel)
  have hunits := forall_matrices (g := unitsGraph) (P := fun _ => unitsGraph.HasSingleUnits)
    (by decide +kernel)
  have hfresh : ∀ p ∈ [(⟨"A", "I", "C"⟩ : NamedProduct), ⟨"C", "B", "D"⟩],
      p.IsFresh unitsGraph := by
    have hmissing : unitsGraph.matrices[("C" : Text)]? = none ∧
        unitsGraph.matrices[("D" : Text)]? = none := by decide +kernel
    rintro p hp
    obtain rfl | rfl := List.mem_pair.1 hp
    · exact ⟨hmissing.1, by decide, by decide⟩
    · exact ⟨hmissing.2, by decide, by decide⟩
  have hcells : ((unitsGraph.formAll [⟨"A", "I", "C"⟩, ⟨"C", "B", "D"⟩]).cells "D").map
      Cell.dependencies = [["elem_0", "elem_6"]] := by decide +kernel
  obtain ⟨c, hc, hdeps⟩ := List.mem_map.1 (hcells ▸ List.mem_singleton_self _)
  exact ⟨c, hc, hdeps, fun x hx =>
    ((formAll_dependencies ⟨"elem", _, rfl⟩ hpainted hfresh).2 "D" c hc x hx).2 hunits⟩

/-- A row and a column of identity cells, and a matrix to multiply their product with. -/
def bareGraph : Graph :=
  runAll "elem" [.initMatrix "A" 1 2, .initMatrix "B" 2 1, .initMatrix "E" 1 1,
    .update "A" 0 0 (.int 1) none (some true) none, .update "A" 0 1 (.int 1) none (some true) none,
    .update "B" 0 0 (.int 1) none (some true) none, .update "B" 1 0 (.int 1) none (some true) none,
    .update "E" 0 0 (.int 1) none none none]

/-- The product of `A` and `B` is `2`, from identity cells only. Its cell is handed on to the next
product, though it was not painted. -/
theorem bare_cell_handed_on :
    bareGraph.IsReachable ∧ (∀ name, ∀ c ∈ bareGraph.cells name, c.IsInt ∧ c.dependencies = []) ∧
    (∀ p ∈ [(⟨"A", "B", "C"⟩ : NamedProduct), ⟨"C", "E", "D"⟩], p.IsFresh bareGraph) ∧
    ∃ c ∈ (bareGraph.formAll [⟨"A", "B", "C"⟩, ⟨"C", "E", "D"⟩]).cells "D",
      ∃ d ∈ (bareGraph.formAll [⟨"A", "B", "C"⟩, ⟨"C", "E", "D"⟩]).cells "C",
        d.id ∈ c.dependencies ∧ ¬bareGraph.IsPainted d.id := by
  have hg : bareGraph.IsReachable := ⟨"elem", _, rfl⟩
  have hcells : ((bareGraph.formAll [⟨"A", "B", "C"⟩, ⟨"C", "E", "D"⟩]).cells "D").map
        Cell.dependencies = [["elem_5", "elem_4"]] ∧
      ((bareGraph.formAll [⟨"A", "B", "C"⟩, ⟨"C", "E", "D"⟩]).cells "C").map Cell.id =
        ["elem_5"] ∧ "elem_5" ∉ bareGraph.nodes := by decide +kernel
  obtain ⟨hD, hC, hnode⟩ := hcells
  refine ⟨hg, forall_cells (by decide +kernel), ?_, ?_⟩
  · have hmissing : bareGraph.matrices[("C" : Text)]? = none ∧
        bareGraph.matrices[("D" : Text)]? = none := by decide +kernel
    rintro p hp
    obtain rfl | rfl := List.mem_pair.1 hp
    · exact ⟨hmissing.1, by decide, by decide⟩
    · exact ⟨hmissing.2, by decide, by decide⟩
  · obtain ⟨c, hc, hdeps⟩ := List.mem_map.1 (hD ▸ List.mem_singleton_self _)
    obtain ⟨d, hd, hid⟩ := List.mem_map.1 (hC ▸ List.mem_singleton_self _)
    refine ⟨c, hc, d, hd, hdeps ▸ hid ▸ List.mem_cons_self, ?_⟩
    rintro ⟨name, b, hb, i, j, hi, hj, he⟩
    exact hnode (hid ▸ he ▸ hg.isWellFormed.idAt_mem hb hi hj)

end Graph

end CellLineage
