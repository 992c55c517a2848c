import CellLineage.Proofs.Graph.Transfer

/-!
# What products hold

Only the cores of the cells count for an entry of a product (`Dot.ofPairs`), so the entries of a
product that goes to a matrix of its own can all be read off the graph before the product was
formed.

## Main definitions

* `Graph.pairsAt`: the pairs of cells that an entry is formed from.
* `Graph.IsProductOf`: one matrix holds the product of two others.

## Main results

* `Graph.multiply_spec`: what forming a product leaves.
-/

namespace CellLineage

namespace Graph

variable {g g' : Graph}

/-- The pairs of cells that an entry of a product is formed from. -/
def pairsAt (g : Graph) (l r : Block) (i j : Nat) : List (Cell × Cell) :=
  (List.range l.cols).map fun k => (g.coreAt l i k, g.coreAt r k j)

/-- An entry is formed from cores alone. -/
theorem dot_eq_ofPairs (g : Graph) (leafOnly : Bool) {l r : Block} (h : l.cols = r.rows)
    (i j : Nat) :
    g.dot leafOnly (g.row l i) (g.column r j) = Dot.ofPairs leafOnly (g.pairsAt l r i j) := by
  have hzip : (g.row l i).zip (g.column r j) =
      (List.range l.cols).map fun k => (g.idAt l i k, g.idAt r k j) := by
    rw [row, column, ← h, List.zip_map']
  rw [dot, hzip, Dot.ofPairs, pairsAt, List.foldlM_map, List.foldlM_map]
  rfl

/-! ### One entry -/

theorem rewrites_writeDot (g : Graph) (id : CellId) (d : Dot) :
    g.Rewrites (g.writeDot id d) {id} :=
  (rewrites_modify g id fun c => { c with value := d.total, isIdentity := d.isIdentity }).trans
    (rewrites_linkAll ..)

theorem core_writeDot {id : CellId} {d : Dot} (hid : id ∈ g.nodes)
    (hs : ∀ s ∈ d.sources, s ∈ g.nodes) :
    (g.writeDot id d).core id =
      { g.core id with
        value := d.total
        isIdentity := d.isIdentity
        dependencies := appendAllNew (g.core id).dependencies d.sources } := by
  have h := rewrites_modify g id fun c => { c with value := d.total, isIdentity := d.isIdentity }
  rw [writeDot, core_linkAll_self (h.mem_nodes.2 hid) fun s hmem => h.mem_nodes.2 (hs s hmem),
    core_modify_self hid]
  rfl

/-- What an entry derives from are cells of the graph. -/
theorem IsWellFormed.mem_nodes_of_dot (hg : g.IsWellFormed) {left right : Text} {l r : Block}
    (hl : g.matrices[left]? = some l) (hr : g.matrices[right]? = some r) (h : l.cols = r.rows)
    {i j : Nat} (hi : i < l.rows) (hj : j < r.cols) {leafOnly : Bool} {d : Dot}
    (hd : Dot.ofPairs leafOnly (g.pairsAt l r i j) = some d) : ∀ s ∈ d.sources, s ∈ g.nodes := by
  have hfeeds {b : Block} {name : Text} {i j : Nat} {x : CellId}
      (hb : g.matrices[name]? = some b) (hi : i < b.rows) (hj : j < b.cols)
      (hx : (g.coreAt b i j).Feeds leafOnly x) : x ∈ g.nodes := by
    rcases hx.2 with hx | ⟨rfl, -⟩
    · exact hg.mem_nodes (a := g.idAt b i j) hx
    · have hid : (g.coreAt b i j).id = g.idAt b i j := hg.id_cell _
      rw [hid]
      exact hg.idAt_mem hb hi hj
  intro s hs
  obtain ⟨p, hp, -, hx⟩ := (Dot.mem_sources_ofPairs hd).1 hs
  obtain ⟨k, hk, rfl⟩ := List.mem_map.1 hp
  rw [List.mem_range] at hk
  rcases hx with hx | hx
  · exact hfeeds hl hi hk hx
  · exact hfeeds hr (h ▸ hk) hj hx

/-! ### All entries -/

/-- The matrix `target` has the shape of the product of the matrices `left` and `right` and holds
that product. -/
def IsProductOf (g : Graph) (leafOnly : Bool) (left right target : Text) : Prop :=
  ∃ l r t, g.matrices[left]? = some l ∧ g.matrices[right]? = some r ∧
    g.matrices[target]? = some t ∧ l.cols = r.rows ∧ t.rows = l.rows ∧ t.cols = r.cols ∧
    ∀ i j, i < l.rows → j < r.cols → ∃ d,
      Dot.ofPairs leafOnly (g.pairsAt l r i j) = some d ∧
      (g.coreAt t i j).value = d.total ∧ (g.coreAt t i j).isIdentity = d.isIdentity ∧
      (g.coreAt t i j).dependencies = d.sources

theorem Keeps.pairsAt_eq {left right : Text} {l r : Block} (hkl : g.Keeps g' left)
    (hkr : g.Keeps g' right) (hl : g.matrices[left]? = some l)
    (hr : g.matrices[right]? = some r) (h : l.cols = r.rows) {i j : Nat} (hi : i < l.rows)
    (hj : j < r.cols) : g'.pairsAt l r i j = g.pairsAt l r i j := by
  refine List.map_congr_left fun k hk => ?_
  rw [List.mem_range] at hk
  rw [hkl.coreAt hl hi hk, hkr.coreAt hr (h ▸ hk) hj]

theorem IsProductOf.of_keeps {leafOnly : Bool} {left right target : Text}
    (h : g.IsProductOf leafOnly left right target) (hkl : g.Keeps g' left)
    (hkr : g.Keeps g' right) (hkt : g.Keeps g' target) :
    g'.IsProductOf leafOnly left right target := by
  obtain ⟨l, r, t, hl, hr, ht, hc, hrow, hcol, hcells⟩ := h
  refine ⟨l, r, t, hkl.matrices.trans hl, hkr.matrices.trans hr, hkt.matrices.trans ht, hc, hrow,
    hcol, fun i j hi hj => ?_⟩
  rw [hkl.pairsAt_eq hkr hl hr hc hi hj, hkt.coreAt ht (hrow ▸ hi) (hcol ▸ hj)]
  exact hcells i j hi hj

/-- Steps that all succeed are a loop without faults, as long as they keep an invariant. -/
theorem forM_eq_ok {α : Type} {act : α → Run Unit} {step : Graph → α → Graph} {as : List α}
    {inv : Graph → Prop} (h : ∀ a ∈ as, ∀ g, inv g → act a g = .ok () (step g a) ∧ inv (step g a))
    (hg : inv g) : as.forM act g = .ok () (as.foldl step g) := by
  induction as generalizing g with
  | nil => rfl
  | cons a as ih =>
    obtain ⟨ha, hi⟩ := h a List.mem_cons_self g hg
    have hrest := ih (fun b hb => h b (List.mem_cons_of_mem a hb)) hi
    exact (bind_eq_of_ok ha).trans hrest

/-- Forming the entries of a product in a matrix without dependencies that is none of the
factors. -/
private theorem forM_multiplyAt (hg : g.IsWellFormed) {leafOnly : Bool}
    {left right target : Text} {l r t : Block} (hnl : left ≠ target) (hnr : right ≠ target)
    (hl : g.matrices[left]? = some l) (hr : g.matrices[right]? = some r)
    (ht : g.matrices[target]? = some t) (hc : l.cols = r.rows) (hrow : t.rows = l.rows)
    (hcol : t.cols = r.cols)
    (hempty : ∀ {i j}, i < t.rows → j < t.cols → (g.coreAt t i j).dependencies = [])
    (hdot : ∀ i j, i < l.rows → j < r.cols →
      ∃ d, Dot.ofPairs leafOnly (g.pairsAt l r i j) = some d) :
    ∃ g', t.positions.forM (multiplyAt leafOnly l r t) g = .ok () g' ∧ g.WritesOnly g' target ∧
      g'.IsProductOf leafOnly left right target := by
  classical
  -- the entries can be read off the graph before the loop, which changes no factor
  let entry (p : Nat × Nat) : Dot :=
    (Dot.ofPairs leafOnly (g.pairsAt l r p.1 p.2)).getD Dot.zero
  let step (g₁ : Graph) (p : Nat × Nat) : Graph := g₁.writeDot (g.idAt t p.1 p.2) (entry p)
  have hentry : ∀ p ∈ t.positions,
      Dot.ofPairs leafOnly (g.pairsAt l r p.1 p.2) = some (entry p) := by
    intro p hp
    obtain ⟨hi, hj⟩ := t.mem_positions.1 hp
    obtain ⟨d, hd⟩ := hdot p.1 p.2 (hrow ▸ hi) (hcol ▸ hj)
    rw [hd]
    simp only [entry, hd, Option.getD_some]
  have hmem : ∀ p ∈ t.positions, g.idAt t p.1 p.2 ∈ g.nodes ∧ g.idAt t p.1 p.2 ∈ g.idSet t := by
    intro p hp
    obtain ⟨hi, hj⟩ := t.mem_positions.1 hp
    exact ⟨hg.idAt_mem ht hi hj, idAt_mem_idSet hi hj⟩
  have hsources : ∀ p ∈ t.positions, ∀ s ∈ (entry p).sources, s ∈ g.nodes := by
    intro p hp
    obtain ⟨hi, hj⟩ := t.mem_positions.1 hp
    exact hg.mem_nodes_of_dot hl hr hc (hrow ▸ hi) (hcol ▸ hj) (hentry p hp)
  have hact : ∀ p ∈ t.positions, ∀ g₁, g.Rewrites g₁ (g.idSet t) →
      multiplyAt leafOnly l r t p g₁ = .ok () (step g₁ p) ∧
        g.Rewrites (step g₁ p) (g.idSet t) := by
    intro p hp g₁ h₁
    obtain ⟨hi, hj⟩ := t.mem_positions.1 hp
    have hkl := h₁.keeps hg.toIsMinted ht hnl
    have hkr := h₁.keeps hg.toIsMinted ht hnr
    have hpairs : g₁.dot leafOnly (g₁.row l p.1) (g₁.column r p.2) = some (entry p) := by
      rw [dot_eq_ofPairs g₁ leafOnly hc, hkl.pairsAt_eq hkr hl hr hc (hrow ▸ hi) (hcol ▸ hj)]
      exact hentry p hp
    refine ⟨?_, h₁.trans ((rewrites_writeDot g₁ _ _).mono
      (Set.singleton_subset_iff.2 (hmem p hp).2))⟩
    have hid : g₁.idAt t p.1 p.2 = g.idAt t p.1 p.2 := h₁.idAt_eq t p.1 p.2
    simp only [multiplyAt, get_bind_eq, hpairs, hid, step]
    rfl
  have hstep : ∀ p ∈ t.positions, ∀ g₁, g.Rewrites g₁ (g.idSet t) → True →
      g₁.core (g.idAt t p.1 p.2) = g.core (g.idAt t p.1 p.2) →
      g₁.Rewrites (step g₁ p) {g.idAt t p.1 p.2} ∧ True ∧
        (step g₁ p).core (g.idAt t p.1 p.2) =
          { g.coreAt t p.1 p.2 with
            value := (entry p).total
            isIdentity := (entry p).isIdentity
            dependencies := appendAllNew (g.coreAt t p.1 p.2).dependencies (entry p).sources } := by
    intro p hp g₁ h₁ _ hcore
    refine ⟨rewrites_writeDot .., trivial, ?_⟩
    simp only [step]
    rw [core_writeDot (h₁.mem_nodes.2 (hmem p hp).1)
      fun s hs => h₁.mem_nodes.2 (hsources p hp s hs), hcore]
    rfl
  obtain ⟨h, hcells⟩ := foldl_rewrites (fun _ => True) hstep
    (fun p hp => (hmem p hp).2) (g.pairwise_idAt t) trivial
  have hrun := forM_eq_ok hact (Rewrites.refl g _)
  set g' := t.positions.foldl step g
  have hedits : Edits g g' := steps_foldl fun p _ g₁ _ =>
    (fills_writeDot (Set.mem_univ _) fun _ _ => Set.mem_univ _).edits
  have hw := h.writesOnly hg hedits ht
  have hkl := hw.keeps left hnl
  have hkr := hw.keeps right hnr
  refine ⟨g', hrun, hw, l, r, t, hkl.matrices.trans hl, hkr.matrices.trans hr, ?_, hc, hrow, hcol,
    fun i j hi hj => ?_⟩
  · rw [h.matrices, ht]
  · have hp : (i, j) ∈ t.positions := t.mem_positions.2 ⟨hrow ▸ hi, hcol ▸ hj⟩
    have hd := hentry (i, j) hp
    have hcell := hcells (i, j) hp
    have hcore : g'.coreAt t i j = g'.core (g.idAt t i j) := by rw [coreAt, h.idAt_eq]
    rw [hkl.pairsAt_eq hkr hl hr hc hi hj, hcore]
    refine ⟨entry (i, j), hd, ?_⟩
    rw [hcell]
    refine ⟨rfl, rfl, ?_⟩
    dsimp only
    rw [hempty (hrow ▸ hi) (hcol ▸ hj)]
    exact appendAllNew_of_nodup (Dot.nodup_sources_ofPairs hd)

/-! ### The whole operation -/

/-- **The product of two matrices.** If the target is none of the factors, the shapes fit and no
entry is too large, only the target changes, and it then holds the product. -/
theorem multiply_spec (hg : g.IsWellFormed) (leafOnly : Bool) {left right target : Text}
    {l r : Block} (hnl : left ≠ target) (hnr : right ≠ target)
    (hl : g.matrices[left]? = some l) (hr : g.matrices[right]? = some r) (hc : l.cols = r.rows)
    (hdot : ∀ i j, i < l.rows → j < r.cols →
      ∃ d, Dot.ofPairs leafOnly (g.pairsAt l r i j) = some d) :
    ∃ g', multiply left right target leafOnly g = .ok none g' ∧ g.WritesOnly g' target ∧
      g'.IsProductOf leafOnly left right target := by
  obtain ⟨t, ht, hrow, hcol⟩ := prepared_prepare hg target l.rows_pos r.cols_pos
  set g₁ := g.prepare target l.rows r.cols l.rows_pos r.cols_pos with hg₁
  have hkl := ht.keeps left hnl
  have hkr := ht.keeps right hnr
  obtain ⟨g', hrun, hw, hprod⟩ := forM_multiplyAt ht.isWellFormed hnl hnr (hkl.matrices.trans hl)
    (hkr.matrices.trans hr) ht.matrices hc hrow hcol ht.dependencies fun i j hi hj => by
      rw [hkl.pairsAt_eq hkr hl hr hc hi hj]
      exact hdot i j hi hj
  refine ⟨g', ?_, ht.toWritesOnly.trans hw, hprod⟩
  have hloop : (do t.positions.forM (multiplyAt leafOnly l r t); return none : Run (Option Issue))
      g₁ = .ok none g' := bind_eq_of_ok hrun
  rw [← hloop]
  simp only [multiply, get_bind_eq, hl, hr, ne_eq, hc, not_true_eq_false, if_false, set_bind_eq,
    ← hg₁, ht.matrices]

/-- Matrices that do not fit have no product, and nothing changes. -/
theorem multiply_mismatch {leafOnly : Bool} {left right target : Text} {l r : Block}
    (hl : g.matrices[left]? = some l) (hr : g.matrices[right]? = some r) (hc : l.cols ≠ r.rows) :
    multiply left right target leafOnly g =
      .ok (some (.mismatch left right l.shape r.shape)) g := by
  simp only [multiply, get_bind_eq, hl, hr, ne_eq, hc, not_false_eq_true, if_true]
  rfl

end Graph

end CellLineage
