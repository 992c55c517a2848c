import CellLineage.Proofs.Graph.Frame

/-!
# Cycles of the lineage

A cycle can only arise where cells are written that other cells derive from already. The cells of a
fresh matrix are not such, and neither are those of a matrix that is *unread*. So writing an unread
matrix closes no cycle, as long as it is none of the matrices that it is written from. And whatever
was unread before and was not read then is unread afterwards.

What is written again and again is therefore kept apart from what is read. A graph is *tiered* by a
set of names if it has no cycle and nothing derives from the matrices of these names; then writing
them from other matrices keeps it so.

## Main definitions

* `Graph.IsAcyclic`: no cell derives from itself, however indirectly.
* `Graph.IsUnread`: no cell derives from a cell of the matrix.
* `Graph.IsTiered`: the graph is acyclic, and the matrices of some names are unread.
* `Graph.supply`: what matrices of some names may hand on.

## Main results

* `Graph.Makes.isTiered`: writing unread matrices from other ones keeps a graph tiered.
* `Graph.makes_copy_self`: copying a matrix to itself makes no edges.
-/

namespace CellLineage.Graph

open Relation

/-- One cell derives from another directly. -/
def DependsOn (g : Graph) (a x : CellId) : Prop :=
  x ∈ (g.cell a).dependencies

/-- No cell derives from itself. -/
def IsAcyclic (g : Graph) : Prop :=
  ∀ id, ¬TransGen g.DependsOn id id

/-- No cell derives from one of the matrix, if there is such a matrix. -/
def IsUnread (g : Graph) (name : Text) : Prop :=
  ∀ b, g.matrices[name]? = some b → ∀ a, ∀ x ∈ g.idSet b, ¬g.DependsOn a x

/-- The graph is well-formed and acyclic, and the matrices of the free names are unread. -/
structure IsTiered (g : Graph) (free : Set Text) : Prop where
  isWellFormed : g.IsWellFormed
  isAcyclic : g.IsAcyclic
  isUnread : ∀ name ∈ free, g.IsUnread name

/-- What cells may hand on to those written from them: what something derives from already, and the
cells of the matrices that are read. -/
def supply (g : Graph) (read : Set Text) : Set CellId :=
  {x | (∃ a, g.DependsOn a x) ∨
    ∃ name ∈ read, ∃ b, g.matrices[name]? = some b ∧ x ∈ g.idSet b}

variable {g g' : Graph} {sources : Set CellId} {read free free' : Set Text} {name : Text}

/-! ### Edges into what nothing derives from -/

/-- New edges close no cycle if they come from points that no edge leads to. -/
theorem not_transGen_of_targets {α : Type} {r r' : α → α → Prop} {targets sources : Set α}
    (hr : ∀ a, ¬TransGen r a a) (hnew : ∀ a x, r' a x → r a x ∨ a ∈ targets ∧ x ∈ sources)
    (htargets : ∀ a x, r a x → x ∉ targets) (hsources : ∀ x ∈ sources, x ∉ targets) (a : α) :
    ¬TransGen r' a a := by
  have hend {a x : α} (h : r' a x) : x ∉ targets :=
    (hnew a x h).elim (htargets a x) fun hx => hsources x hx.2
  have hend' {a x : α} (h : TransGen r' a x) : x ∉ targets := by
    cases h with
    | single h => exact hend h
    | tail _ h => exact hend h
  have hold {a x : α} (ha : a ∉ targets) (h : TransGen r' a x) : TransGen r a x := by
    induction h with
    | single h => exact .single ((hnew _ _ h).resolve_right fun hx => ha hx.1)
    | tail h h' ih => exact ih.tail ((hnew _ _ h').resolve_right fun hx => hend' h hx.1)
  exact fun h => hr a (hold (hend' h) h)

/-- Fresh cells derive from nothing. -/
theorem dependsOn_of_addMatrix {rows cols : Nat} {hr : 0 < rows} {hc : 0 < cols} {a x : CellId}
    (h : (g.addMatrix name rows cols hr hc).DependsOn a x) : g.DependsOn a x := by
  rw [DependsOn] at h
  rcases cell_addMatrix_cases g name rows cols hr hc a with ⟨i, j, -, -, -, he⟩ | he
  · rw [he] at h
    exact absurd h List.not_mem_nil
  · rwa [he] at h

theorem isUnread_of_notMem (h : name ∉ g.matrices) : g.IsUnread name := fun b hb =>
  absurd (Std.ExtTreeMap.mem_iff_isSome_getElem?.2 (by rw [hb, Option.isSome_some])) h

theorem mem_nodes_of_mem_idSet (hg : g.IsMinted) {b : Block} (hb : g.matrices[name]? = some b)
    {x : CellId} (hx : x ∈ g.idSet b) : x ∈ g.nodes := by
  obtain ⟨i, j, hi, hj, rfl⟩ := hx
  exact hg.idAt_mem hb hi hj

theorem mem_nodes_of_mem_supply (hg : g.IsWellFormed) {x : CellId} (hx : x ∈ g.supply read) :
    x ∈ g.nodes := by
  rcases hx with ⟨a, ha⟩ | ⟨name, -, b, hb, hx⟩
  · exact hg.mem_nodes ha
  · exact mem_nodes_of_mem_idSet hg.toIsMinted hb hx

/-- An unread matrix is apart from what other matrices may hand on. -/
theorem IsUnread.notMem_idSet (hg : g.IsMinted) (h : g.IsUnread name) (hname : name ∉ read)
    {b : Block} (hb : g.matrices[name]? = some b) {x : CellId} (hx : x ∈ g.supply read) :
    x ∉ g.idSet b := by
  rcases hx with ⟨a, ha⟩ | ⟨other, hother, c, hc, i, j, hi, hj, rfl⟩
  · exact fun hb' => h b hb a x hb' ha
  · exact hg.idAt_notMem_idSet hb hc (fun he => hname (he ▸ hother)) hi hj

/-- What is made has new edges from the cells of the matrix only, and no edge led to them. -/
theorem Makes.exists_targets (h : Makes (g.supply read) name g g') (hg : g.IsWellFormed)
    (hunread : g.IsUnread name) (hname : name ∉ read) :
    ∃ targets : Set CellId, (∀ b, g'.matrices[name]? = some b → g'.idSet b = targets) ∧
      (∀ a x, g'.DependsOn a x → g.DependsOn a x ∨ a ∈ targets ∧ x ∈ g.supply read) ∧
      (∀ a x, g.DependsOn a x → x ∉ targets) ∧ ∀ x ∈ g.supply read, x ∉ targets := by
  cases h with
  | @anew rows cols hr hc h =>
    have hfresh {x : CellId} (hx : x ∈ g.nodes) : x ∉ g.idSet (g.nextBlock rows cols hr hc) := by
      rintro ⟨i, j, hi, hj, rfl⟩
      exact hg.idAt_nextBlock_notMem hr hc i j hx
    refine ⟨g.idSet (g.nextBlock rows cols hr hc), fun b hb => ?_, fun a x hx => ?_,
      fun a x hx => hfresh (hg.mem_nodes hx), fun x hx => hfresh (mem_nodes_of_mem_supply hg hx)⟩
    · rw [(Fills.sameTables h).matrices, matrices_addMatrix, if_pos rfl] at hb
      cases hb
      rw [(Fills.sameTables h).idSet_eq]
      simp only [idSet, idAt_addMatrix]
    · exact (Fills.mem_dependencies h hx).imp_left dependsOn_of_addMatrix
  | @inPlace b hb h =>
    refine ⟨g.idSet b, fun b' hb' => ?_, fun a x hx => Fills.mem_dependencies h hx,
      fun a x hx hb' => hunread b hb a x hb' hx,
      fun x hx => hunread.notMem_idSet hg.toIsMinted hname hb hx⟩
    rw [(Fills.sameTables h).matrices, hb] at hb'
    cases hb'
    exact (Fills.sameTables h).idSet_eq b

/-! ### Tiered graphs -/

theorem IsTiered.mono (h : g.IsTiered free) (hfree : free' ⊆ free) : g.IsTiered free' :=
  ⟨h.isWellFormed, h.isAcyclic, fun name hname => h.isUnread name (hfree hname)⟩

theorem IsTiered.insert (h : g.IsTiered free) (hname : g.IsUnread name) :
    g.IsTiered (insert name free) :=
  ⟨h.isWellFormed, h.isAcyclic, fun other hother => by
    rcases hother with rfl | hother
    · exact hname
    · exact h.isUnread other hother⟩

theorem isTiered_empty (stem : String) : (empty stem).IsTiered free where
  isWellFormed := isWellFormed_empty stem
  isAcyclic id h := by
    obtain ⟨x, hx, -⟩ := TransGen.head'_iff.1 h
    simp [DependsOn, empty, cell, Cell.blank] at hx
  isUnread name _ := isUnread_of_notMem Std.ExtTreeMap.not_mem_empty

/-- How the intermediate results are counted and described does not matter. -/
theorem IsTiered.describe (h : g.IsTiered free) (temporaries : Nat)
    (descriptions : Std.ExtTreeMap Text Text) :
    IsTiered { g with temporaries, descriptions } free :=
  ⟨(Edit.describe g temporaries descriptions).isWellFormed h.isWellFormed, h.isAcyclic, h.isUnread⟩

/-- **Writing an unread matrix** from matrices that are not free keeps a graph tiered. -/
theorem Makes.isTiered (h : Makes (g.supply read) name g g') (hg : g.IsTiered free)
    (hread : ∀ other ∈ read, other ∉ free) (hname : name ∈ free) : g'.IsTiered free := by
  have hw := h.writesOnly hg.isWellFormed
  obtain ⟨targets, hids, hnew, hold, hsources⟩ :=
    h.exists_targets hg.isWellFormed (hg.isUnread name hname) fun hmem => hread name hmem hname
  refine ⟨hw.isWellFormed, not_transGen_of_targets hg.isAcyclic hnew hold hsources, ?_⟩
  intro other hother b hb a x hx hax
  by_cases hne : other = name
  · subst hne
    rw [hids b hb] at hx
    exact (hnew a x hax).elim (fun h => hold a x h hx) fun h => hsources x h.2 hx
  · have hkeeps := hw.keeps other hne
    rw [hkeeps.matrices] at hb
    have hx : x ∈ g.idSet b := by simpa only [idSet, hkeeps.idAt_eq] using hx
    have hunread := hg.isUnread other hother
    rcases hnew a x hax with h | ⟨-, h⟩
    · exact hunread b hb a x hx h
    · exact hunread.notMem_idSet hg.isWellFormed.toIsMinted (fun hmem => hread other hmem hother) hb
        h hx

/-! ### Operations that read and write -/

theorem Makes.mono {sources' : Set CellId} (h : Makes sources name g g') (hs : sources ⊆ sources') :
    Makes sources' name g g' := by
  have hfills {targets : Set CellId} {g₁ : Graph} (h : Fills targets sources g₁ g') :
      Fills targets sources' g₁ g' := by
    refine ReflTransGen.mono (fun g₁ g₂ h => ?_) _ _ h
    cases h with
    | paint f hid hf => exact .paint g₁ f hid hf
    | link ht hsource => exact .link g₁ ht (hs hsource)
    | unlinkCell hid => exact .unlinkCell g₁ hid
  cases h with
  | anew h => exact .anew (hfills h)
  | inPlace hb h => exact .inPlace hb (hfills h)

/-- A matrix that is read hands on no more than the supply. -/
theorem IsMinted.supplies (hg : g.IsMinted) (hname : name ∈ read) (withSelf : Bool) {b : Block}
    (hb : g.matrices[name]? = some b) : g.Supplies (g.supply read) withSelf b := by
  intro i j hi hj
  have hself : g.idAt b i j ∈ g.supply read := .inr ⟨name, hname, b, hb, idAt_mem_idSet hi hj⟩
  refine ⟨fun x hx => .inl ⟨_, hx⟩, fun _ => ⟨hself, ?_⟩⟩
  rwa [hg.id_cell]

theorem IsTiered.instantiate {source target : Text} (h : g.IsTiered free)
    (hrun : g.instantiate source target = some g') (hs : source ∉ free) (ht : target ∈ free) :
    g'.IsTiered free ∧ g'.temporaries = g.temporaries := by
  have hmakes : Makes (g.supply {source}) target g g' := makes_instantiate hrun fun s hb =>
    h.isWellFormed.toIsMinted.supplies (Set.mem_singleton _) true hb
  exact ⟨hmakes.isTiered h (fun other ho => ho ▸ hs) ht,
    (hmakes.writesOnly h.isWellFormed).temporaries⟩

theorem IsTiered.transpose {target : Text} (h : g.IsTiered free)
    (hrun : g.transpose name = some (target, g')) (hs : name ∉ free) (ht : transposeName name ∈ free) :
    target = transposeName name ∧ g'.IsTiered free ∧ g'.temporaries = g.temporaries := by
  have hmakes : target = transposeName name ∧ Makes (g.supply {name}) target g g' :=
    makes_transpose hrun fun s hb =>
      h.isWellFormed.toIsMinted.supplies (Set.mem_singleton _) true hb
  obtain ⟨rfl, hmakes⟩ := hmakes
  exact ⟨rfl, hmakes.isTiered h (fun other ho => ho ▸ hs) ht,
    (hmakes.writesOnly h.isWellFormed).temporaries⟩

theorem IsTiered.multiply {left right result : Text} (h : g.IsTiered free) (hl : left ∉ free)
    (hr : right ∉ free) (ht : result ∈ free) (leafOnly : Bool) :
    (after (multiply left right result leafOnly) g).IsTiered free ∧
      (after (multiply left right result leafOnly) g).temporaries = g.temporaries := by
  have hg := h.isWellFormed.toIsMinted
  have hmakes : after (Graph.multiply left right result leafOnly) g = g ∨
      Makes (g.supply {left, right}) result g
        (after (Graph.multiply left right result leafOnly) g) :=
    makes_multiply left right result leafOnly (fun l hb => hg.supplies (.inl rfl) true hb)
      fun r hb => hg.supplies (.inr rfl) true hb
  rcases hmakes with he | hmakes
  · rw [he]
    exact ⟨h, rfl⟩
  · refine ⟨hmakes.isTiered h (fun other ho => ?_) ht,
      (hmakes.writesOnly h.isWellFormed).temporaries⟩
    rcases ho with rfl | rfl
    · exact hl
    · exact hr

/-- A copy reads no matrix: it becomes derived from what its source is derived from. -/
theorem IsTiered.copy {source target : Text} (h : g.IsTiered free)
    (hrun : g.copy source target = some g') (ht : target ∈ free) : g'.IsTiered free := by
  have hmakes : Makes (g.supply ∅) target g g' := makes_copy hrun fun s _ i j _ _ =>
    ⟨fun x hx => .inl ⟨_, hx⟩, fun hw => Bool.noConfusion hw⟩
  exact hmakes.isTiered h (fun other ho => absurd ho (Set.notMem_empty other)) ht

/-- A matrix made from no sources has no new edges. -/
theorem dependsOn_of_makes (h : Makes ∅ name g g') {a x : CellId} (hx : g'.DependsOn a x) :
    g.DependsOn a x := by
  cases h with
  | anew hfills =>
    refine ((Fills.mem_dependencies hfills hx).imp_left dependsOn_of_addMatrix).resolve_right ?_
    exact fun hx => Set.notMem_empty x hx.2
  | inPlace hb hfills =>
    exact (Fills.mem_dependencies hfills hx).resolve_right fun hx => Set.notMem_empty x hx.2

/-- A matrix made from no sources may be one that is read. -/
theorem IsAcyclic.of_makes (h : g.IsAcyclic) (hmakes : Makes ∅ name g g') : g'.IsAcyclic :=
  fun id hid => h id (TransGen.mono (fun _ _ => dependsOn_of_makes hmakes) id id hid)

/-- **Copying a matrix to itself** makes no edges: those that it had are forgotten first. -/
theorem makes_copy_self (hg : g.IsWellFormed) (h : g.copy name name = some g') :
    Makes ∅ name g g' := by
  obtain ⟨b, hb, rfl⟩ := Option.map_eq_some_iff.1 h
  have hprepare : g.prepare name b.rows b.cols b.rows_pos b.cols_pos = g.unlink name := by
    rw [prepare, if_pos]
    rw [shape?, hb]
    rfl
  obtain ⟨hrewrites, hdeps⟩ := rewrites_unlink hg hb
  have hsupplies : (g.unlink name).Supplies ∅ false b := by
    intro i j hi hj
    have hnil : ((g.unlink name).coreAt b i j).dependencies = [] := by rw [hdeps i j hi hj]
    refine ⟨fun x hx => ?_, fun hw => Bool.noConfusion hw⟩
    exact absurd (hnil ▸ hx : x ∈ []) List.not_mem_nil
  have hb' : (g.unlink name).matrices[name]? = some b := by rw [hrewrites.matrices, hb]
  have hfill := fills_transferBlock (t := b) hsupplies rfl rfl
  rw [(Fills.sameTables (fills_unlink ∅ hb)).idSet_eq] at hfill
  simp only [hprepare, hb']
  exact .inPlace hb ((fills_unlink ∅ hb).trans hfill)

end CellLineage.Graph
