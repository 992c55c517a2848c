import CellLineage.Proofs.Workspace.Tended

/-!
# Listing what is painted and painting it again

A document lists the cells of the declared matrices that are not zero. When it is entered in another
workspace, the matrices are declared and the listed cells are painted. So each matrix is painted as
before, but for the paint of zeros, which is not listed.

## Main definitions

* `Graph.paintEntries`: a matrix with the cells of a document painted.
* `Graph.IsReadyFor`: a matrix has the shape of that in another graph, and nothing is painted on it.

## Main results

* `Workspace.entries_eq`: what a workspace lists of a matrix.
* `Graph.resembles_paintEntries`: the listed cells, painted again.
* `Graph.resembles_paintListed`: the listed cells of several matrices.
* `Workspace.forM_addMatrix`: entering the matrices of a document.
-/

namespace CellLineage

open Formula

namespace Graph

variable {g g' g₀ : Graph} {name other : Text} {b b₀ : Block} {i j : Nat}

/-! ### Painting cells -/

/-- A cell at a position of a matrix is painted. -/
theorem paintAt_update (hg : g.IsMinted) (hb : g.matrices[name]? = some b) {p : Nat × Nat}
    (hp : p.1 < b.rows ∧ p.2 < b.cols) (hi : i < b.rows) (hj : j < b.cols) (value : Number)
    (color : Option Text) (isIdentity : Bool) :
    (g.update name p.1 p.2 value color (some isIdentity) none).paintAt name i j =
      if p = (i, j) then { g.paintAt name i j with value, color, isIdentity }
      else g.paintAt name i j := by
  have hupdate : g.update name p.1 p.2 value color (some isIdentity) none =
      g.modify (g.idAt b p.1 p.2) fun c => paintCell c value color (some isIdentity) none := by
    rw [update, update?, idAt?_of_lt hb hp.1 hp.2]
    rfl
  have hmem := hg.idAt_mem hb hp.1 hp.2
  rw [hupdate, paintAt, paintAt, cellAt?_of_lt (g := g.modify _ _) hb hi hj, cellAt?_of_lt hb hi hj]
  change Cell.painted ((g.modify (g.idAt b p.1 p.2) _).cell (g.idAt b i j)) = _
  rw [cell_modify]
  by_cases h : p = (i, j)
  · subst h
    rw [if_pos ⟨rfl, hmem⟩, if_pos rfl]
    rfl
  · have hne : g.idAt b i j ≠ g.idAt b p.1 p.2 := fun he => by
      obtain ⟨rfl, rfl⟩ := (idAt_inj hj hp.2).1 he
      exact h rfl
    rw [if_neg fun hand => hne hand.1, if_neg h]
    rfl

/-- The graph with cells of a document painted on a matrix. -/
def paintEntries (g : Graph) (name : Text) (entries : List Document.Entry) : Graph :=
  entries.foldl (fun g e => g.update name e.row e.col e.value e.color (some e.isIdentity) none) g

theorem fills_paintEntries (hb : g.matrices[name]? = some b) (entries : List Document.Entry) :
    Fills (g.idSet b) ∅ g (g.paintEntries name entries) := by
  refine steps_foldl fun e _ g₁ h₁ => ?_
  have ht := Fills.sameTables h₁
  rw [← ht.idSet_eq]
  exact fills_update ∅ g₁ name _ _ _ _ _ _ (by rw [ht.matrices, hb])

/-- Painting cells of a matrix that is there writes that matrix only. -/
theorem writesOnly_paintEntries (hg : g.IsWellFormed) (hb : g.matrices[name]? = some b)
    (entries : List Document.Entry) : g.WritesOnly (g.paintEntries name entries) name :=
  have h := fills_paintEntries hb entries
  (h.rewrites hg).writesOnly hg h.edits hb

/-- What is painted at a position of a matrix, as an entry of a document. -/
def entryAt (g : Graph) (name : Text) (p : Nat × Nat) : Document.Entry :=
  let c := g.paintAt name p.1 p.2
  ⟨p.1, p.2, c.value, c.color, c.isIdentity⟩

/-- Painting the entries at some positions paints these and no others. -/
theorem paintAt_paintEntries (g₀ : Graph) (hg : g.IsWellFormed) (hb : g.matrices[name]? = some b)
    {ps : List (Nat × Nat)} (hps : ∀ p ∈ ps, p.1 < b.rows ∧ p.2 < b.cols) (hi : i < b.rows)
    (hj : j < b.cols) :
    (g.paintEntries name (ps.map (g₀.entryAt name))).paintAt name i j =
      if (i, j) ∈ ps then
        { g.paintAt name i j with
          value := (g₀.paintAt name i j).value
          color := (g₀.paintAt name i j).color
          isIdentity := (g₀.paintAt name i j).isIdentity }
      else g.paintAt name i j := by
  induction ps generalizing g with
  | nil => rfl
  | cons p ps ih =>
    obtain ⟨hp, hps⟩ := List.forall_mem_cons.1 hps
    have hfills := fills_paintEntries hb [g₀.entryAt name p]
    have hb₁ : (g.paintEntries name [g₀.entryAt name p]).matrices[name]? = some b := by
      rw [(Fills.sameTables hfills).matrices, hb]
    have hcell : (g.paintEntries name [g₀.entryAt name p]).paintAt name i j = _ :=
      paintAt_update hg.toIsMinted hb hp hi hj (g₀.paintAt name p.1 p.2).value
        (g₀.paintAt name p.1 p.2).color (g₀.paintAt name p.1 p.2).isIdentity
    rw [List.map_cons]
    change ((g.paintEntries name [g₀.entryAt name p]).paintEntries name
      (ps.map (g₀.entryAt name))).paintAt name i j = _
    rw [ih (hfills.edits.isWellFormed hg) hb₁ hps, hcell]
    by_cases h : p = (i, j)
    · subst h
      simp
    · simp [h, Ne.symm h]

/-- The positions of a matrix that do not hold zero. -/
def listedPositions (g : Graph) (name : Text) (b : Block) : List (Nat × Nat) :=
  b.positions.filter fun p => (g.paintAt name p.1 p.2).value.isNonzero

theorem mem_listedPositions {p : Nat × Nat} : p ∈ g.listedPositions name b ↔
    (p.1 < b.rows ∧ p.2 < b.cols) ∧ (g.paintAt name p.1 p.2).value.isNonzero = true := by
  obtain ⟨i, j⟩ := p
  rw [listedPositions, List.mem_filter, Block.mem_positions]

/-- The entries of a document for the painted cells of a matrix that are not zero. -/
def listed (g : Graph) (name : Text) : List Document.Entry :=
  match g.matrices[name]? with
  | some b => (g.listedPositions name b).map (g.entryAt name)
  | none => []

theorem listed_eq (hb : g.matrices[name]? = some b) :
    g.listed name = (g.listedPositions name b).map (g.entryAt name) := by
  rw [listed, hb]

/-- The matrix has the shape of that in another graph, and nothing is painted on it. -/
structure IsReadyFor (g₀ g : Graph) (name : Text) : Prop where
  shape : ∃ b b₀, g.matrices[name]? = some b ∧ g₀.matrices[name]? = some b₀ ∧ b.shape = b₀.shape
  isUnpainted : ∀ i j : Nat, g.paintAt name i j = ⟨i, j, .int 0, none, none, false⟩

theorem IsReadyFor.of_keeps (h : g₀.IsReadyFor g name) (hk : g.Keeps g' name) :
    g₀.IsReadyFor g' name := by
  obtain ⟨b, b₀, hb, hb₀, hshape⟩ := h.shape
  exact ⟨⟨b, b₀, hk.matrices.trans hb, hb₀, hshape⟩, fun i j =>
    hk.paintAt_eq.trans (h.isUnpainted i j)⟩

/-- **The listed cells, painted again**, give all that was painted but for the paint of zeros. -/
theorem resembles_paintEntries {whole : Prop} (hwhole : whole → g₀.IsWhole) (hg : g.IsWellFormed)
    (hready : g₀.IsReadyFor g name) (hb : g₀.matrices[name]? = some b) (hi : i < b.rows)
    (hj : j < b.cols) : (g₀.paintAt name i j).Resembles whole
      ((g.paintEntries name (g₀.listed name)).paintAt name i j) := by
  obtain ⟨c, b₀, hc, hb₀, hshape⟩ := hready.shape
  obtain rfl : b₀ = b := Option.some.inj (hb₀.symm.trans hb)
  obtain ⟨hrows, hcols⟩ := Prod.mk.inj hshape
  have hps : ∀ p ∈ g₀.listedPositions name b₀, p.1 < c.rows ∧ p.2 < c.cols := fun p hp => by
    rw [hrows, hcols]
    exact (mem_listedPositions.1 hp).1
  rw [listed_eq hb, paintAt_paintEntries g₀ hg hc hps (hrows ▸ hi) (hcols ▸ hj)]
  have hself := resembles_paintAt hwhole name i j
  by_cases hvalue : (g₀.paintAt name i j).value.isNonzero = true
  · have hmem : (i, j) ∈ g₀.listedPositions name b₀ := mem_listedPositions.2 ⟨⟨hi, hj⟩, hvalue⟩
    rw [if_pos hmem]
    exact ⟨rfl, fun _ => rfl, hself.isInt, fun _ => rfl, fun _ => rfl⟩
  · -- a zero is not listed, and the matrix holds zeros where nothing is listed
    have hnotMem : (i, j) ∉ g₀.listedPositions name b₀ := fun hmem =>
      hvalue (mem_listedPositions.1 hmem).2
    rw [if_neg hnotMem, hready.isUnpainted]
    refine ⟨?_, fun h => ?_, hself.isInt, fun h => absurd h hvalue, fun h => absurd h hvalue⟩
    · exact (Bool.eq_false_iff.2 hvalue).symm
    · obtain ⟨n, hn⟩ := hself.isInt (h.resolve_left hvalue)
      rw [hn, Number.isNonzero_int, not_not] at hvalue
      rw [hn, hvalue]

/-- The graph with the listed cells of several matrices of another graph painted. -/
def paintListed (g₀ g : Graph) (names : List Text) : Graph :=
  names.foldl (fun g name => g.paintEntries name (g₀.listed name)) g

/-- Painting matrices that are ready keeps the other ones. -/
theorem keeps_paintListed {names : List Text} (hg : g.IsWellFormed)
    (hready : ∀ name ∈ names, g₀.IsReadyFor g name) (hnames : names.Nodup)
    (hother : other ∉ names) : g.Keeps (g₀.paintListed g names) other := by
  induction names generalizing g with
  | nil => exact .refl g other
  | cons name names ih =>
    obtain ⟨hname, hrest⟩ := List.forall_mem_cons.1 hready
    obtain ⟨hne, hnotMem⟩ := not_or.1 (mt List.mem_cons.2 hother)
    obtain ⟨hnew, hnames⟩ := List.nodup_cons.1 hnames
    obtain ⟨b, -, hb, -⟩ := hname.shape
    have hwrites := writesOnly_paintEntries hg hb (g₀.listed name)
    have hrest₁ : ∀ next ∈ names, g₀.IsReadyFor (g.paintEntries name (g₀.listed name)) next :=
      fun next hnext => (hrest next hnext).of_keeps (hwrites.keeps next fun he => hnew (he ▸ hnext))
    exact (hwrites.keeps other hne).trans (ih hwrites.isWellFormed hrest₁ hnames hnotMem)

/-- **The listed cells of several matrices, painted again.** -/
theorem resembles_paintListed {whole : Prop} (hwhole : whole → g₀.IsWhole) {names : List Text}
    (hg : g.IsWellFormed) (hready : ∀ name ∈ names, g₀.IsReadyFor g name) (hnames : names.Nodup)
    (hname : name ∈ names) (hb : g₀.matrices[name]? = some b) (hi : i < b.rows) (hj : j < b.cols) :
    (g₀.paintAt name i j).Resembles whole ((g₀.paintListed g names).paintAt name i j) := by
  induction names generalizing g with
  | nil => cases hname
  | cons first names ih =>
    obtain ⟨hfirst, hrest⟩ := List.forall_mem_cons.1 hready
    obtain ⟨hnew, hdistinct⟩ := List.nodup_cons.1 hnames
    obtain ⟨c, -, hc, -⟩ := hfirst.shape
    have hwrites := writesOnly_paintEntries hg hc (g₀.listed first)
    have hrest₁ : ∀ next ∈ names, g₀.IsReadyFor (g.paintEntries first (g₀.listed first)) next :=
      fun next hnext => (hrest next hnext).of_keeps (hwrites.keeps next fun he => hnew (he ▸ hnext))
    rcases List.mem_cons.1 hname with rfl | hname
    · have hkeeps := keeps_paintListed hwrites.isWellFormed hrest₁ hdistinct hnew
      rw [paintListed, List.foldl_cons]
      change (g₀.paintAt name i j).Resembles whole ((g₀.paintListed _ names).paintAt name i j)
      rw [hkeeps.paintAt_eq]
      exact resembles_paintEntries hwhole hg hfirst hb hi hj
    · exact ih hwrites.isWellFormed hrest₁ hdistinct hname

end Graph

namespace Workspace

variable {w : Workspace} {name : Text} {b : Block} {doc : Document}

/-- What a workspace lists of a matrix. -/
theorem entries_eq (hg : w.graph.IsMinted) (name : Text) :
    w.entries name = w.graph.listed name := by
  rw [entries, Graph.cells, Graph.listed]
  cases hb : w.graph.matrices[name]? with
  | none => rfl
  | some b =>
    have hpaint : ∀ p ∈ b.positions, (w.graph.cell (w.graph.idAt b p.1 p.2)).painted =
        w.graph.paintAt name p.1 p.2 := fun p hp => by
      obtain ⟨hi, hj⟩ := b.mem_positions.1 hp
      rw [Graph.paintAt, Graph.cellAt?_of_lt hb hi hj]
      rfl
    have hplace : ∀ p ∈ b.positions, (w.graph.cell (w.graph.idAt b p.1 p.2)).row = p.1 ∧
        (w.graph.cell (w.graph.idAt b p.1 p.2)).col = p.2 := fun p hp =>
      (hg.place hb (b.mem_positions.1 hp).1 (b.mem_positions.1 hp).2).2
    simp only [Graph.ids, List.map_map, List.filter_map, Graph.listedPositions]
    have hfilter : b.positions.filter ((fun c : Cell => c.value.isNonzero) ∘ w.graph.cell ∘
        fun p => w.graph.idAt b p.1 p.2) =
          b.positions.filter fun p => (w.graph.paintAt name p.1 p.2).value.isNonzero :=
      List.filter_congr fun p hp => by rw [← hpaint p hp]; rfl
    rw [hfilter]
    refine List.map_congr_left fun p hp => ?_
    have hp := List.mem_of_mem_filter hp
    obtain ⟨hrow, hcol⟩ := hplace p hp
    simp only [Function.comp_apply, Graph.entryAt, ← hpaint p hp, hrow, hcol, Int.toNat_natCast]
    rfl

/-- Painting entries changes the graph only. -/
theorem foldl_update_eq (w : Workspace) (name : Text) (entries : List Document.Entry) :
    entries.foldl (fun w e => w.update name e.row e.col e.value e.color (some e.isIdentity)) w =
      { w with graph := w.graph.paintEntries name entries } := by
  induction entries generalizing w with
  | nil => rfl
  | cons e entries ih => exact ih _

/-- Entering a matrix that is declared paints its cells. -/
theorem addMatrix_eq_ok (h : name ∈ w.shapes.names) (doc : Document)
    (entries : List Document.Entry) : addMatrix doc name entries w =
      .ok () { w with graph := w.graph.paintEntries name entries } := by
  rw [← foldl_update_eq]
  exact bind_eq_of_ok (declare_of_mem h _ _)

/-- **Entering matrices that are declared** paints what another graph lists of them. -/
theorem forM_addMatrix (doc : Document) (g₀ : Graph) {names : List Text}
    (h : ∀ name ∈ names, name ∈ w.shapes.names) :
    (names.map fun name => (name, g₀.listed name)).forM (fun m => addMatrix doc m.1 m.2) w =
      .ok () { w with graph := g₀.paintListed w.graph names } := by
  induction names generalizing w with
  | nil => rfl
  | cons name names ih =>
    obtain ⟨hname, hnames⟩ := List.forall_mem_cons.1 h
    exact (bind_eq_of_ok (addMatrix_eq_ok hname doc _)).trans (ih hnames)

end Workspace

end CellLineage
