import CellLineage.Proofs.Graph.Invariant
import Mathlib.Data.Set.Insert

/-!
# What operations leave alone

An operation on matrices writes the cells of one matrix and reads those of others. What it reads of
a cell is its *core*: everything but the list of the cells derived from it, which grows whenever
another cell is derived. `Graph.Rewrites g g' ids` says that `g'` is `g` with other cores at most at
`ids`; the loops of the operations are all covered by one lemma on loops that write each cell of a
list once (`Graph.foldl_rewrites`).

On the level of matrices, `Graph.Keeps g g' name` says that the matrix of a name is in the same
place with the same cores.

## Main definitions

* `Cell.core`, `Graph.core`: a cell without the cells derived from it.
* `Graph.Rewrites`: the cells that may differ.
* `Graph.Keeps`, `Graph.WritesOnly`: a matrix that does not differ, and graphs in which all matrices
  but one do not.
* `Graph.Prepared`: a graph in which a matrix is ready to be written.

## Main results

* `Graph.foldl_rewrites`: loops that write each cell once.
* `Graph.prepared_prepare`, `Graph.prepared_addMatrix`: the two ways to get a matrix ready.
* `Graph.Writes.keeps`: a run keeps the matrices that it does not write to.
-/

namespace CellLineage

/-- The cell without the cells derived from it. -/
def Cell.core (c : Cell) : Cell :=
  { c with dependents := [] }

theorem Cell.eq_of_core_eq {c d : Cell} (h : c.core = d.core) (hd : c.dependents = d.dependents) :
    c = d := by
  have h : { c.core with dependents := c.dependents } = { d.core with dependents := d.dependents } := by
    rw [h, hd]
  exact h

namespace Graph

/-- What an id names, without the cells derived from it. -/
def core (g : Graph) (id : CellId) : Cell :=
  (g.cell id).core

/-- The core at a position of a block. -/
def coreAt (g : Graph) (b : Block) (i j : Nat) : Cell :=
  g.core (g.idAt b i j)

variable {g g' g₁ g₂ g₃ : Graph} {id t s : CellId}

/-- The second graph is the first one with other cores at most at the given ids. -/
structure Rewrites (g g' : Graph) (ids : Set CellId) : Prop extends SameTables g g' where
  core_eq : ∀ {id}, id ∉ ids → g'.core id = g.core id

namespace Rewrites

variable {ids ids' : Set CellId}

theorem refl (g : Graph) (ids : Set CellId) : g.Rewrites g ids :=
  ⟨.refl g, fun _ => rfl⟩

theorem trans (h : g₁.Rewrites g₂ ids) (h' : g₂.Rewrites g₃ ids) : g₁.Rewrites g₃ ids :=
  ⟨h.toSameTables.trans h'.toSameTables, fun hid => (h'.core_eq hid).trans (h.core_eq hid)⟩

theorem mono (h : g.Rewrites g' ids) (hids : ids ⊆ ids') : g.Rewrites g' ids' :=
  ⟨h.toSameTables, fun hid => h.core_eq fun hmem => hid (hids hmem)⟩

theorem dependencies_eq (h : g.Rewrites g' ids) (hid : id ∉ ids) :
    (g'.cell id).dependencies = (g.cell id).dependencies := by
  have := congrArg Cell.dependencies (h.core_eq hid)
  exact this

end Rewrites

/-! ### Single cells -/

theorem rewrites_modify (g : Graph) (id : CellId) (f : Cell → Cell) :
    g.Rewrites (g.modify id f) {id} := by
  refine ⟨sameTables_modify g id f, fun {k} hk => ?_⟩
  rw [core, cell_modify, if_neg fun h => hk h.1, core]

theorem core_modify_self {f : Cell → Cell} (h : id ∈ g.nodes) :
    (g.modify id f).core id = (f (g.cell id)).core := by
  rw [core, cell_modify, if_pos ⟨rfl, h⟩]

/-- An edge changes the core of its target only. -/
theorem rewrites_link (g : Graph) (t s : CellId) : g.Rewrites (g.link t s) {t} := by
  refine ⟨sameTables_link g t s, fun {k} hk => ?_⟩
  rw [core, cell_link, core]
  split
  · rw [if_neg (show k ≠ t from hk)]
    rfl
  · rfl

theorem core_link_self (ht : t ∈ g.nodes) (hs : s ∈ g.nodes) :
    (g.link t s).core t =
      { g.core t with dependencies := appendNew (g.core t).dependencies s } := by
  rw [core, cell_link, if_pos ⟨ht, hs⟩, if_pos rfl]
  rfl

theorem rewrites_linkAll (g : Graph) (t : CellId) (ss : List CellId) :
    g.Rewrites (g.linkAll t ss) {t} := by
  induction ss generalizing g with
  | nil => exact .refl g _
  | cons s ss ih => exact (rewrites_link g t s).trans (ih (g.link t s))

theorem core_linkAll_self {ss : List CellId} (ht : t ∈ g.nodes) (hs : ∀ s ∈ ss, s ∈ g.nodes) :
    (g.linkAll t ss).core t =
      { g.core t with dependencies := appendAllNew (g.core t).dependencies ss } := by
  induction ss generalizing g with
  | nil => rfl
  | cons s ss ih =>
    have hm {k : CellId} (hk : k ∈ g.nodes) : k ∈ (g.link t s).nodes :=
      (sameTables_link g t s).mem_nodes.2 hk
    have h := ih (g := g.link t s) (hm ht) fun k hk => hm (hs k (List.mem_cons_of_mem s hk))
    rw [core_link_self ht (hs s List.mem_cons_self)] at h
    exact h

theorem rewrites_unlinkCell (h : g.IsLinked) (id : CellId) : g.Rewrites (g.unlinkCell id) {id} := by
  refine ⟨sameTables_unlinkCell g id, fun {k} hk => ?_⟩
  rw [core, cell_unlinkCell (h.nodup_dependencies id), if_neg (show k ≠ id from hk), core]
  rfl

theorem core_unlinkCell_self (h : g.IsLinked) (id : CellId) :
    (g.unlinkCell id).core id = { g.core id with dependencies := [] } := by
  rw [core, cell_unlinkCell (h.nodup_dependencies id), if_pos rfl]
  rfl

/-! ### Loops that write each cell once -/

/-- A loop whose steps each write one cell, in a way that depends on nothing the loop has written
before, writes each of these cells as the step would have written it at the start. -/
theorem foldl_rewrites {α : Type} {step : Graph → α → Graph} {key : α → CellId}
    {result : α → Cell} {ids : Set CellId} {as : List α} (inv : Graph → Prop)
    (hstep : ∀ a ∈ as, ∀ g₁, g.Rewrites g₁ ids → inv g₁ → g₁.core (key a) = g.core (key a) →
      g₁.Rewrites (step g₁ a) {key a} ∧ inv (step g₁ a) ∧ (step g₁ a).core (key a) = result a)
    (hkey : ∀ a ∈ as, key a ∈ ids) (has : as.Pairwise fun a b => key a ≠ key b) (hg : inv g) :
    g.Rewrites (as.foldl step g) ids ∧
      ∀ a ∈ as, (as.foldl step g).core (key a) = result a := by
  suffices hall : ∀ g₁, g.Rewrites g₁ ids → inv g₁ →
      (∀ a ∈ as, g₁.core (key a) = g.core (key a)) →
      g.Rewrites (as.foldl step g₁) ids ∧
      (∀ a ∈ as, (as.foldl step g₁).core (key a) = result a) ∧
      ∀ id, (∀ a ∈ as, id ≠ key a) → (as.foldl step g₁).core id = g₁.core id from
    have h := hall g (.refl g ids) hg fun _ _ => rfl
    ⟨h.1, h.2.1⟩
  induction as with
  | nil => exact fun g₁ h₁ _ _ => ⟨h₁, fun a ha => absurd ha List.not_mem_nil, fun _ _ => rfl⟩
  | cons a as ih =>
    intro g₁ h₁ hi hcore
    obtain ⟨ha, has⟩ := List.pairwise_cons.1 has
    obtain ⟨hr, hi', hres⟩ := hstep a List.mem_cons_self g₁ h₁ hi (hcore a List.mem_cons_self)
    have hr' := hr.mono (Set.singleton_subset_iff.2 (hkey a List.mem_cons_self))
    obtain ⟨h₂, hwritten, hother⟩ := ih (fun b hb => hstep b (List.mem_cons_of_mem a hb))
      (fun b hb => hkey b (List.mem_cons_of_mem a hb)) has (step g₁ a) (h₁.trans hr') hi'
      fun b hb => (hr.core_eq (ha b hb).symm).trans (hcore b (List.mem_cons_of_mem a hb))
    refine ⟨h₂, fun b hb => ?_, fun id hid => ?_⟩
    · rcases List.mem_cons.1 hb with rfl | hb
      · exact (hother _ ha).trans hres
      · exact hwritten b hb
    · refine (hother id fun b hb => hid b (List.mem_cons_of_mem a hb)).trans ?_
      exact hr.core_eq (hid a List.mem_cons_self)

theorem pairwise_idAt (g : Graph) (b : Block) :
    b.positions.Pairwise fun p q => g.idAt b p.1 p.2 ≠ g.idAt b q.1 q.2 := by
  refine b.nodup_positions.imp_of_mem fun {p q} hp hq hne he => hne ?_
  rw [Block.mem_positions] at hp hq
  obtain ⟨h₁, h₂⟩ := (idAt_inj hp.2 hq.2).1 he
  exact Prod.ext h₁ h₂

/-! ### Matrices that stay as they are -/

/-- The matrix of the name, or its absence, is the same in both graphs, up to the cells derived from
its cells. -/
structure Keeps (g g' : Graph) (name : Text) : Prop where
  stem : g'.stem = g.stem
  matrices : g'.matrices[name]? = g.matrices[name]?
  coreAt : ∀ {b : Block} {i j : Nat}, g.matrices[name]? = some b → i < b.rows → j < b.cols →
    g'.coreAt b i j = g.coreAt b i j

theorem Keeps.refl (g : Graph) (name : Text) : g.Keeps g name :=
  ⟨rfl, rfl, fun _ _ _ => rfl⟩

theorem Keeps.trans {name : Text} (h : g₁.Keeps g₂ name) (h' : g₂.Keeps g₃ name) :
    g₁.Keeps g₃ name where
  stem := h'.stem.trans h.stem
  matrices := h'.matrices.trans h.matrices
  coreAt hb hi hj := (h'.coreAt (h.matrices.trans hb) hi hj).trans (h.coreAt hb hi hj)

theorem Keeps.idAt_eq {name : Text} (h : g.Keeps g' name) (b : Block) (i j : Nat) :
    g'.idAt b i j = g.idAt b i j := by
  simp only [idAt, cellId, h.stem]

/-- Two matrices of a well-formed graph share no cell. -/
theorem IsMinted.idAt_notMem_idSet (h : g.IsMinted) {name other : Text} {b c : Block} {i j : Nat}
    (hb : g.matrices[name]? = some b) (hc : g.matrices[other]? = some c) (hne : other ≠ name)
    (hi : i < c.rows) (hj : j < c.cols) : g.idAt c i j ∉ g.idSet b := by
  rintro ⟨i', j', hi', hj', he⟩
  have hn := cellId_inj.1 he
  have h₁ := c.number_lt hi hj
  have h₂ := b.number_lt hi' hj'
  have h₃ : c.first ≤ c.number i j := Block.first_le_number
  have h₄ : b.first ≤ b.number i' j' := Block.first_le_number
  have := h.block_disjoint hc hb hne
  omega

/-- Writing the cells of one matrix keeps the other ones. -/
theorem Rewrites.keeps {name other : Text} {b : Block} (h : g.Rewrites g' (g.idSet b))
    (hg : g.IsMinted) (hb : g.matrices[name]? = some b) (hne : other ≠ name) :
    g.Keeps g' other where
  stem := h.stem
  matrices := by rw [h.matrices]
  coreAt hc hi hj := by
    rw [Graph.coreAt, Graph.coreAt, h.idAt_eq]
    exact h.core_eq (hg.idAt_notMem_idSet hb hc hne hi hj)

/-- The second graph is well-formed, and at most the matrix of one name is not as in the first. -/
structure WritesOnly (g g' : Graph) (name : Text) : Prop where
  isWellFormed : g'.IsWellFormed
  temporaries : g'.temporaries = g.temporaries
  descriptions : g'.descriptions = g.descriptions
  keeps : ∀ other, other ≠ name → g.Keeps g' other

theorem WritesOnly.trans {name : Text} (h : g₁.WritesOnly g₂ name) (h' : g₂.WritesOnly g₃ name) :
    g₁.WritesOnly g₃ name where
  isWellFormed := h'.isWellFormed
  temporaries := h'.temporaries.trans h.temporaries
  descriptions := h'.descriptions.trans h.descriptions
  keeps other hne := (h.keeps other hne).trans (h'.keeps other hne)

/-- Writing the cells of one matrix by edits writes that matrix only. -/
theorem Rewrites.writesOnly {name : Text} {b : Block} (h : g.Rewrites g' (g.idSet b))
    (hg : g.IsWellFormed) (he : Edits g g') (hb : g.matrices[name]? = some b) :
    g.WritesOnly g' name :=
  ⟨he.isWellFormed hg, h.temporaries, h.descriptions, fun _ hne => h.keeps hg.toIsMinted hb hne⟩

/-! ### Getting a matrix ready -/

/-- The graph `g'` is `g` with the matrix of a name in the shape it is to have and without
dependencies. -/
structure Prepared (g g' : Graph) (name : Text) (b : Block) : Prop
    extends WritesOnly g g' name where
  matrices : g'.matrices[name]? = some b
  dependencies : ∀ {i j}, i < b.rows → j < b.cols → (g'.coreAt b i j).dependencies = []

theorem coreAt_addMatrix {name : Text} {rows cols : Nat} {hr : 0 < rows} {hc : 0 < cols} {i j : Nat}
    (hi : i < (g.nextBlock rows cols hr hc).rows) (hj : j < (g.nextBlock rows cols hr hc).cols) :
    (g.addMatrix name rows cols hr hc).coreAt (g.nextBlock rows cols hr hc) i j =
      .blank (g.idAt (g.nextBlock rows cols hr hc) i j) name i j := by
  rw [coreAt, idAt_addMatrix, core, cell_addMatrix hi hj]
  rfl

/-- A fresh matrix is ready. -/
theorem prepared_addMatrix (hg : g.IsWellFormed) (name : Text) {rows cols : Nat} (hr : 0 < rows)
    (hc : 0 < cols) :
    g.Prepared (g.addMatrix name rows cols hr hc) name (g.nextBlock rows cols hr hc) where
  isWellFormed := (Edit.addMatrix g name rows cols hr hc).isWellFormed hg
  temporaries := temporaries_addMatrix
  descriptions := descriptions_addMatrix
  matrices := by rw [matrices_addMatrix, if_pos rfl]
  keeps other hne := by
    refine ⟨stem_addMatrix, ?_, fun {b i j} hb hi hj => ?_⟩
    · rw [matrices_addMatrix, if_neg hne.symm]
    · rw [coreAt, coreAt, idAt_addMatrix, core, core,
        hg.cell_addMatrix_of_mem (hg.idAt_mem hb hi hj)]
  dependencies hi hj := by
    rw [coreAt_addMatrix hi hj]
    rfl

/-- Forgetting the edges into a matrix writes its cells only, and leaves them without
dependencies. -/
theorem rewrites_unlink (hg : g.IsWellFormed) {name : Text} {b : Block}
    (hb : g.matrices[name]? = some b) :
    g.Rewrites (g.unlink name) (g.idSet b) ∧ ∀ i j, i < b.rows → j < b.cols →
      (g.unlink name).coreAt b i j = { g.coreAt b i j with dependencies := [] } := by
  have hfold : g.unlink name =
      b.positions.foldl (fun g₁ p => g₁.unlinkCell (g.idAt b p.1 p.2)) g := by
    simp only [unlink, hb, ids, List.foldl_map]
  have hstep : ∀ p ∈ b.positions, ∀ g₁, g.Rewrites g₁ (g.idSet b) → g₁.IsWellFormed →
      g₁.core (g.idAt b p.1 p.2) = g.core (g.idAt b p.1 p.2) →
      g₁.Rewrites (g₁.unlinkCell (g.idAt b p.1 p.2)) {g.idAt b p.1 p.2} ∧
        (g₁.unlinkCell (g.idAt b p.1 p.2)).IsWellFormed ∧
        (g₁.unlinkCell (g.idAt b p.1 p.2)).core (g.idAt b p.1 p.2) =
          { g.coreAt b p.1 p.2 with dependencies := [] } := by
    intro p _ g₁ _ hi hcore
    refine ⟨rewrites_unlinkCell hi.toIsLinked _, (Edit.unlinkCell g₁ _).isWellFormed hi, ?_⟩
    rw [core_unlinkCell_self hi.toIsLinked, hcore, coreAt]
  have hkey : ∀ p ∈ b.positions, g.idAt b p.1 p.2 ∈ g.idSet b := fun p hp =>
    idAt_mem_idSet (b.mem_positions.1 hp).1 (b.mem_positions.1 hp).2
  obtain ⟨h, hcells⟩ := foldl_rewrites _ hstep hkey (g.pairwise_idAt b) hg
  rw [hfold]
  refine ⟨h, fun i j hi hj => ?_⟩
  rw [coreAt, h.idAt_eq]
  exact hcells (i, j) (b.mem_positions.2 ⟨hi, hj⟩)

/-- A matrix made ready for a shape has that shape, whether it is made anew or not. -/
theorem prepared_prepare (hg : g.IsWellFormed) (name : Text) {rows cols : Nat} (hr : 0 < rows)
    (hc : 0 < cols) :
    ∃ b, g.Prepared (g.prepare name rows cols hr hc) name b ∧ b.rows = rows ∧ b.cols = cols := by
  by_cases hs : g.shape? name = some (rows, cols)
  · obtain ⟨b, hb, hshape⟩ := Option.map_eq_some_iff.1 hs
    obtain ⟨h, hcells⟩ := rewrites_unlink hg hb
    rw [prepare, if_pos hs]
    refine ⟨b, ⟨h.writesOnly hg (fills_unlink ∅ hb).edits hb, ?_, fun hi hj => ?_⟩, ?_, ?_⟩
    · rw [h.matrices, hb]
    · rw [hcells _ _ hi hj]
    · exact congrArg Prod.fst hshape
    · exact congrArg Prod.snd hshape
  · rw [prepare, if_neg hs]
    exact ⟨_, prepared_addMatrix hg name hr hc, rfl, rfl⟩

/-! ### Matrices that nothing is written to -/

theorem Fill.rewrites {targets sources : Set CellId} (h : Fill targets sources g g')
    (hg : g.IsLinked) : g.Rewrites g' targets := by
  cases h with
  | paint f hid hf => exact (rewrites_modify g _ f).mono (Set.singleton_subset_iff.2 hid)
  | link ht hs => exact (rewrites_link g _ _).mono (Set.singleton_subset_iff.2 ht)
  | unlinkCell hid => exact (rewrites_unlinkCell hg _).mono (Set.singleton_subset_iff.2 hid)

theorem Fills.rewrites {targets sources : Set CellId} (h : Fills targets sources g g')
    (hg : g.IsWellFormed) : g.Rewrites g' targets := by
  induction h with
  | refl => exact .refl g targets
  | @tail g₁ g₂ h h' ih => exact ih.trans (h'.rewrites ((Fills.edits h).isWellFormed hg).toIsLinked)

/-- Making a matrix writes that one only. -/
theorem Makes.writesOnly {sources : Set CellId} {name : Text} (h : Makes sources name g g')
    (hg : g.IsWellFormed) : g.WritesOnly g' name := by
  cases h with
  | @anew rows cols hr hc h =>
    have hprep := prepared_addMatrix hg name hr hc
    have hrewrites := h.rewrites hprep.isWellFormed
    have hids : (g.addMatrix name rows cols hr hc).idSet (g.nextBlock rows cols hr hc) =
        g.idSet (g.nextBlock rows cols hr hc) := by simp only [idSet, idAt_addMatrix]
    rw [← hids] at hrewrites
    exact hprep.toWritesOnly.trans (hrewrites.writesOnly hprep.isWellFormed h.edits hprep.matrices)
  | inPlace hb h => exact (h.rewrites hg).writesOnly hg h.edits hb

/-- Making a matrix writes no cell that the graph had before but those in the matrix. -/
theorem Makes.core_eq {sources : Set CellId} {name : Text} (h : Makes sources name g g')
    (hg : g.IsWellFormed) {x : CellId} (hx : x ∈ g.nodes)
    (hout : ∀ i j : Nat, g'.idAt? name i j ≠ some x) : g'.core x = g.core x := by
  cases h with
  | @anew rows cols hr hc h =>
    have hfresh : x ∉ g.idSet (g.nextBlock rows cols hr hc) := by
      rintro ⟨i, j, -, -, rfl⟩
      exact hg.idAt_nextBlock_notMem hr hc i j hx
    rw [(h.rewrites (prepared_addMatrix hg name hr hc).isWellFormed).core_eq hfresh, core, core,
      hg.cell_addMatrix_of_mem hx]
  | @inPlace b hb h =>
    refine (h.rewrites hg).core_eq ?_
    rintro ⟨i, j, hi, hj, rfl⟩
    refine hout i j ?_
    rw [h.sameTables.idAt?_eq, idAt?_of_lt hb hi hj]

/-- A matrix does not depend on how the intermediate results are counted and described. -/
theorem keeps_describe (g : Graph) (temporaries : Nat) (descriptions : Std.ExtTreeMap Text Text)
    (name : Text) : g.Keeps { g with temporaries, descriptions } name :=
  ⟨rfl, rfl, fun _ _ _ => rfl⟩

/-- **A matrix of a name that is not written to** stays as it is. -/
theorem Writes.keeps {names : Set Text} {name : Text} (h : Writes names g g')
    (hg : g.IsWellFormed) (hname : name ∉ names) : g.Keeps g' name := by
  induction h with
  | refl => exact .refl g name
  | @tail g₁ g₂ h hw ih =>
    refine ih.trans ?_
    cases hw with
    | make hmem h' =>
      exact (h'.writesOnly ((Writes.edits h).isWellFormed hg)).keeps name fun he => hname (he ▸ hmem)
    | describe temporaries descriptions => exact keeps_describe g₁ temporaries descriptions name

end Graph

end CellLineage
