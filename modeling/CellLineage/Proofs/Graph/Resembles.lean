import CellLineage.Proofs.Graph.Dot
import CellLineage.Proofs.Graph.Lookup

/-!
# Graphs that resemble each other

What is painted on a cell that holds zero does not matter to anything that is computed from it: a
pair with such a cell does not count in a product, and a copy of it holds zero again. Two graphs
*resemble* each other if they have the same ids with the same lineage, zeros in the same places, and
the same paint on all other cells. Each operation on matrices does the same to graphs that resemble
each other, and leaves graphs that do.

All of this is relative to a proposition `whole`: if it is true, all values are whole numbers, and
then zeros are the same too.

## Main definitions

* `Cell.Resembles`, `Graph.Resembles`: the same but for the paint of zeros.

## Main results

* `Graph.Resembles.addMatrix`, `Graph.Resembles.prepare`: making matrices.
* `Graph.Resembles.instantiate`, `Graph.Resembles.transpose`, `Graph.Resembles.copy`: writing a
  matrix onto another one.
* `Graph.Resembles.dot_eq`, `Graph.Resembles.writeDot`: entries of products.
-/

namespace CellLineage

/-- The cells have the same lineage, and unless they hold zero they are painted the same. If all
values are whole numbers, they have the same value in any case. -/
structure Cell.Resembles (whole : Prop) (c d : Cell) : Prop where
  id : d.id = c.id
  isNonzero : d.value.isNonzero = c.value.isNonzero
  value : c.value.isNonzero = true ∨ whole → d.value = c.value
  isInt : whole → c.IsInt
  color : c.value.isNonzero = true → d.color = c.color
  isIdentity : c.value.isNonzero = true → d.isIdentity = c.isIdentity
  dependencies : d.dependencies = c.dependencies
  dependents : d.dependents = c.dependents

namespace Cell

variable {whole : Prop} {c d s t : Cell}

theorem resembles_self (h : whole → c.IsInt) : c.Resembles whole c :=
  ⟨rfl, rfl, fun _ => rfl, h, fun _ => rfl, fun _ => rfl, rfl, rfl⟩

theorem resembles_blank (id : CellId) (matrix : Text) (row col : Int) :
    (blank id matrix row col).Resembles whole (blank id matrix row col) :=
  resembles_self fun _ => rfl

/-- Painting cells from cells that resemble each other. -/
theorem Resembles.paintOnto (hs : s.Resembles whole t) (h : c.Resembles whole d)
    (withIndex : Bool) : (s.paintOnto withIndex c).Resembles whole (t.paintOnto withIndex d) where
  id := h.id
  isNonzero := hs.isNonzero
  value := hs.value
  isInt := hs.isInt
  color := hs.color
  isIdentity := hs.isIdentity
  dependencies := h.dependencies
  dependents := h.dependents

end Cell

/-- A pair of cells adds the same to an entry as a pair that resembles it. -/
theorem Dot.step_congr {whole : Prop} {a b c d : Cell} (h : a.Resembles whole b)
    (h' : c.Resembles whole d) (leafOnly : Bool) (dot : Dot) :
    dot.step leafOnly b d = dot.step leafOnly a c := by
  unfold step
  rw [h.isNonzero, h'.isNonzero]
  by_cases hcounts : (a.value.isNonzero && c.value.isNonzero) = true
  · obtain ⟨ha, hc⟩ := Bool.and_eq_true_iff.1 hcounts
    simp only [if_pos hcounts, addSource, h.value (.inl ha), h'.value (.inl hc), h.isIdentity ha,
      h'.isIdentity hc, h.dependencies, h'.dependencies, h.id, h'.id]
  · simp only [if_neg hcounts]

namespace Graph

/-- The graphs have the same matrices and the same ids, and their cells resemble each other. -/
structure Resembles (whole : Prop) (g g' : Graph) : Prop extends SameTables g g' where
  cell : ∀ id, (g.cell id).Resembles whole (g'.cell id)

variable {whole : Prop} {g g' g₁ g₁' : Graph} {name : Text}

theorem SameTables.symm (h : g.SameTables g') : g'.SameTables g :=
  ⟨h.stem.symm, h.minted.symm, h.matrices.symm, h.temporaries.symm, h.descriptions.symm,
    h.mem_nodes.symm⟩

namespace Resembles

/-- A graph resembles itself. -/
theorem of_isInt (h : whole → ∀ id, (g.cell id).IsInt) : g.Resembles whole g :=
  ⟨.refl g, fun id => Cell.resembles_self fun hw => h hw id⟩

/-- Operations that change cells only, and leave cells that resemble each other. -/
theorem of_sameTables (h : g.SameTables g') (h₁ : g.SameTables g₁) (h₁' : g'.SameTables g₁')
    (hcell : ∀ id, (g₁.cell id).Resembles whole (g₁'.cell id)) : g₁.Resembles whole g₁' :=
  ⟨h₁.symm.trans (h.trans h₁'), hcell⟩

theorem ids_eq (h : g.Resembles whole g') (b : Block) : g'.ids b = g.ids b := by
  simp only [ids, h.idAt_eq]

theorem shape?_eq (h : g.Resembles whole g') (name : Text) : g'.shape? name = g.shape? name := by
  rw [shape?, h.matrices, shape?]

theorem hasMatrix_eq (h : g.Resembles whole g') (name : Text) :
    g'.hasMatrix name = g.hasMatrix name := by
  rw [hasMatrix, h.matrices, hasMatrix]

theorem nextBlock_eq (h : g.Resembles whole g') {rows cols : Nat} (hr : 0 < rows) (hc : 0 < cols) :
    g'.nextBlock rows cols hr hc = g.nextBlock rows cols hr hc := by
  simp only [nextBlock, h.minted]

/-- A fresh matrix has the same blank cells in both graphs. -/
theorem cell_addMatrix_eq (h : g.Resembles whole g') (name : Text) {rows cols : Nat} (hr : 0 < rows)
    (hc : 0 < cols) {i j : Nat} (hi : i < rows) (hj : j < cols) :
    (g'.addMatrix name rows cols hr hc).cell (g.idAt (g.nextBlock rows cols hr hc) i j) =
      (g.addMatrix name rows cols hr hc).cell (g.idAt (g.nextBlock rows cols hr hc) i j) := by
  have hid : g.idAt (g.nextBlock rows cols hr hc) i j =
      g'.idAt (g'.nextBlock rows cols hr hc) i j := by rw [h.nextBlock_eq, h.idAt_eq]
  rw [cell_addMatrix hi hj, hid, cell_addMatrix hi hj]

/-- The same steps, one after another. -/
theorem foldl {α : Type} {step step' : Graph → α → Graph} {as : List α} (h : g.Resembles whole g')
    (hstep : ∀ a ∈ as, ∀ g₁ g₁' : Graph, g₁.Resembles whole g₁' →
      (step g₁ a).Resembles whole (step' g₁' a)) :
    (as.foldl step g).Resembles whole (as.foldl step' g') := by
  induction as generalizing g g' with
  | nil => exact h
  | cons a as ih =>
    exact ih (hstep a List.mem_cons_self g g' h) fun b hb => hstep b (List.mem_cons_of_mem a hb)

/-! ### Cells and edges -/

theorem modify (h : g.Resembles whole g') {id : CellId} {f f' : Cell → Cell}
    (hf : (f (g.cell id)).Resembles whole (f' (g'.cell id))) :
    (g.modify id f).Resembles whole (g'.modify id f') := by
  refine of_sameTables h.toSameTables (sameTables_modify g id f) (sameTables_modify g' id f')
    fun k => ?_
  simp only [cell_modify, h.mem_nodes]
  split
  · next hk =>
    rw [hk.1]
    exact hf
  · exact h.cell k

theorem link (h : g.Resembles whole g') (t s : CellId) :
    (g.link t s).Resembles whole (g'.link t s) := by
  refine of_sameTables h.toSameTables (sameTables_link g t s) (sameTables_link g' t s) fun k => ?_
  simp only [cell_link, h.mem_nodes, (h.cell k).dependencies, (h.cell k).dependents]
  split
  · exact { h.cell k with dependencies := rfl, dependents := rfl }
  · exact h.cell k

theorem linkAll (h : g.Resembles whole g') (t : CellId) (ss : List CellId) :
    (g.linkAll t ss).Resembles whole (g'.linkAll t ss) :=
  h.foldl fun s _ _ _ h₁ => h₁.link t s

theorem unlinkCell (h : g.Resembles whole g') (id : CellId) :
    (g.unlinkCell id).Resembles whole (g'.unlinkCell id) := by
  have hsources := (h.cell id).dependencies
  simp only [Graph.unlinkCell, hsources]
  have hfold : ((g.cell id).dependencies.foldl (fun g source =>
      g.modify source fun c => { c with dependents := c.dependents.erase id }) g).Resembles whole
        ((g.cell id).dependencies.foldl (fun g source =>
          g.modify source fun c => { c with dependents := c.dependents.erase id }) g') :=
    h.foldl fun source _ g₁ g₁' h₁ => h₁.modify
      { h₁.cell source with dependents := by rw [(h₁.cell source).dependents] }
  exact hfold.modify { hfold.cell id with dependencies := rfl }

theorem unlink (h : g.Resembles whole g') (name : Text) :
    (g.unlink name).Resembles whole (g'.unlink name) := by
  simp only [Graph.unlink, h.matrices]
  split
  · next b =>
    rw [h.ids_eq]
    exact h.foldl fun id _ _ _ h₁ => h₁.unlinkCell id
  · exact h

/-! ### Making matrices -/

theorem addMatrix (h : g.Resembles whole g') (name : Text) {rows cols : Nat} (hr : 0 < rows)
    (hc : 0 < cols) :
    (g.addMatrix name rows cols hr hc).Resembles whole (g'.addMatrix name rows cols hr hc) := by
  have hmatrices : (g'.addMatrix name rows cols hr hc).matrices =
      (g.addMatrix name rows cols hr hc).matrices := by
    refine Std.ExtTreeMap.ext_getElem? fun other => ?_
    rw [matrices_addMatrix, matrices_addMatrix, h.nextBlock_eq, h.matrices]
  refine ⟨⟨?_, ?_, hmatrices, ?_, ?_, fun {id} => ?_⟩, fun id => ?_⟩
  · rw [stem_addMatrix, stem_addMatrix, h.stem]
  · rw [minted_addMatrix, minted_addMatrix, h.minted]
  · rw [temporaries_addMatrix, temporaries_addMatrix, h.temporaries]
  · rw [descriptions_addMatrix, descriptions_addMatrix, h.descriptions]
  · simp only [mem_nodes_addMatrix, h.mem_nodes, h.nextBlock_eq, h.idAt_eq]
  · by_cases hid : ∃ i j, i < rows ∧ j < cols ∧ id = g.idAt (g.nextBlock rows cols hr hc) i j
    · obtain ⟨i, j, hi, hj, rfl⟩ := hid
      rw [h.cell_addMatrix_eq name hr hc hi hj, cell_addMatrix hi hj]
      exact Cell.resembles_blank ..
    · rw [cell_addMatrix_of_ne fun i j hi hj he => hid ⟨i, j, hi, hj, he⟩,
        cell_addMatrix_of_ne fun i j hi hj he =>
          hid ⟨i, j, hi, hj, by rw [he, h.nextBlock_eq, h.idAt_eq]⟩]
      exact h.cell id

theorem prepare (h : g.Resembles whole g') (name : Text) {rows cols : Nat} (hr : 0 < rows)
    (hc : 0 < cols) :
    (g.prepare name rows cols hr hc).Resembles whole (g'.prepare name rows cols hr hc) := by
  unfold Graph.prepare
  rw [h.shape?_eq]
  split
  · exact h.unlink name
  · exact h.addMatrix name hr hc

/-! ### Writing one matrix onto another one -/

theorem transferCell (h : g.Resembles whole g') (withIndex withSelf : Bool)
    (source target : CellId) :
    (g.transferCell withIndex withSelf source target).Resembles whole
      (g'.transferCell withIndex withSelf source target) := by
  simp only [transferCell_eq]
  have hpaint : (g.modify target ((g.cell source).paintOnto withIndex)).Resembles whole
      (g'.modify target ((g'.cell source).paintOnto withIndex)) :=
    h.modify ((h.cell source).paintOnto (h.cell target) withIndex)
  cases withSelf with
  | false =>
    simp only [Bool.false_eq_true, if_false, (hpaint.cell source).dependencies]
    exact hpaint.linkAll target _
  | true =>
    have hlink := hpaint.link target source
    simp only [if_true, (hlink.cell source).dependencies]
    exact hlink.linkAll target _

theorem transferBlock (h : g.Resembles whole g') (withSelf : Bool) (s t : Block) :
    (g.transferBlock withSelf s t).Resembles whole (g'.transferBlock withSelf s t) := by
  refine h.foldl fun p _ g₁ g₁' h₁ => ?_
  rw [h₁.idAt_eq, h₁.idAt_eq]
  exact h₁.transferCell true withSelf _ _

theorem instantiate (h : g.Resembles whole g') (source target : Text) :
    Option.Rel (Resembles whole) (g.instantiate source target) (g'.instantiate source target) := by
  simp only [Graph.instantiate, h.matrices]
  cases g.matrices[source]? with
  | none => exact .none
  | some s =>
    have hadd := h.addMatrix target s.rows_pos s.cols_pos
    refine .some ?_
    simp only [hadd.matrices]
    split
    · exact hadd
    · exact hadd.transferBlock true s _

theorem copy (h : g.Resembles whole g') (source target : Text) :
    Option.Rel (Resembles whole) (g.copy source target) (g'.copy source target) := by
  simp only [Graph.copy, h.matrices]
  cases g.matrices[source]? with
  | none => exact .none
  | some s =>
    have hprepare := h.prepare target s.rows_pos s.cols_pos
    refine .some ?_
    simp only [hprepare.matrices]
    split
    · exact hprepare
    · exact hprepare.transferBlock false s _

theorem transpose (h : g.Resembles whole g') (name : Text) :
    Option.Rel (fun p q => q.1 = p.1 ∧ p.2.Resembles whole q.2) (g.transpose name)
      (g'.transpose name) := by
  simp only [Graph.transpose, h.matrices]
  cases g.matrices[name]? with
  | none => exact .none
  | some s =>
    have hprepare := h.prepare (transposeName name) s.cols_pos s.rows_pos
    refine .some ?_
    simp only [hprepare.matrices]
    split
    · exact ⟨rfl, hprepare⟩
    · refine ⟨rfl, hprepare.foldl fun p _ g₁ g₁' h₁ => ?_⟩
      rw [h₁.idAt_eq, h₁.idAt_eq]
      exact h₁.transferCell false true _ _

/-! ### Entries of products -/

theorem dot_eq (h : g.Resembles whole g') (leafOnly : Bool) (row column : List CellId) :
    g'.dot leafOnly row column = g.dot leafOnly row column := by
  unfold dot
  congr 1
  funext d p
  exact Dot.step_congr (h.cell p.1) (h.cell p.2) leafOnly d

/-- An entry of a product of whole numbers is there, and it is a whole number. -/
theorem exists_dot (h : g.Resembles whole g') (hwhole : whole) (leafOnly : Bool)
    (row column : List CellId) :
    ∃ d n, g.dot leafOnly row column = some d ∧ d.total = .int n := by
  have hint : ∀ p ∈ (row.zip column).map fun p => (g.cell p.1, g.cell p.2),
      p.1.IsInt ∧ p.2.IsInt := by
    intro p hp
    obtain ⟨q, -, rfl⟩ := List.mem_map.1 hp
    exact ⟨(h.cell q.1).isInt hwhole, (h.cell q.2).isInt hwhole⟩
  obtain ⟨d, hd, htotal⟩ := Dot.ofPairs_int leafOnly hint
  refine ⟨d, _, ?_, htotal⟩
  rw [Dot.ofPairs, List.foldlM_map] at hd
  exact hd

/-- An entry is written with the colour that its cell has. -/
theorem writeDot (h : g.Resembles whole g') {id : CellId} {d : Dot}
    (hd : whole → ∃ n, d.total = .int n) (hcolor : (g'.cell id).color = (g.cell id).color) :
    (g.writeDot id d).Resembles whole (g'.writeDot id d) := by
  let write (c : Cell) : Cell := { c with value := d.total, isIdentity := d.isIdentity }
  have hpaint : (g.modify id write).Resembles whole (g'.modify id write) :=
    h.modify { h.cell id with
      isNonzero := rfl
      value := fun _ => rfl
      isInt := fun hw => Cell.isInt_iff.2 (hd hw)
      color := fun _ => hcolor
      isIdentity := fun _ => rfl }
  exact hpaint.linkAll id d.sources

end Resembles

theorem sameTables_writeDot (g : Graph) (id : CellId) (d : Dot) : g.SameTables (g.writeDot id d) :=
  have hlinks := SameTables.foldl (fun g source => sameTables_link g id source) d.sources
  (sameTables_modify g id _).trans (hlinks _)

theorem color_writeDot (g : Graph) (id : CellId) (d : Dot) (k : CellId) :
    ((g.writeDot id d).cell k).color = (g.cell k).color := by
  have hlink (ss : List CellId) (g : Graph) :
      ((g.linkAll id ss).cell k).color = (g.cell k).color := by
    induction ss generalizing g with
    | nil => rfl
    | cons s ss ih =>
      refine (ih (g.link id s)).trans ?_
      rw [cell_link]
      split <;> rfl
  rw [Graph.writeDot, hlink, cell_modify]
  split <;> rfl

end Graph

end CellLineage
