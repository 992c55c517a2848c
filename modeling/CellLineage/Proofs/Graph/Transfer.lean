import CellLineage.Proofs.Graph.Frame
import Mathlib.Data.Prod.Basic

/-!
# What transposes, instances and copies hold

A matrix written from another one holds the same values, colours and identity marks, and each of its
cells derives from what its source derives from; a cell of a transpose or of an instance also
derives from its source itself. The relations below say this about one graph. They hold right after
the operation, and as long as the two matrices are kept.

## Main definitions

* `Graph.IsCopyOf`, `Graph.IsTransposeOf`: one matrix holds what another one holds.

## Main results

* `Graph.copy_spec`, `Graph.instantiate_spec`, `Graph.transpose_spec`: what the operations leave.
* `Graph.copy_self_spec`: what copying a matrix onto itself leaves.
* `Graph.IsCopyOf.of_keeps`, `Graph.IsTransposeOf.of_keeps`: the relations stay true.
-/

namespace CellLineage

/-- The core of the cell `c` after it was written from the cell `s`. -/
def Cell.writtenFrom (withIndex withSelf : Bool) (s c : Cell) : Cell :=
  { s.paintOnto withIndex c with
    dependencies := appendAllNew
      (if withSelf then appendNew c.dependencies s.id else c.dependencies) s.dependencies }

/-- The cell `d` shows what the cell `c` shows and derives from what `c` derives from, and from `c`
itself if so asked. -/
structure Cell.Passes (withSelf : Bool) (c d : Cell) : Prop where
  value : d.value = c.value
  color : d.color = c.color
  isIdentity : d.isIdentity = c.isIdentity
  dependencies : d.dependencies =
    if withSelf then appendAllNew [c.id] c.dependencies else c.dependencies

theorem appendAllNew_of_nodup {α : Type} [DecidableEq α] {xs ys : List α} (h : (xs ++ ys).Nodup) :
    appendAllNew xs ys = xs ++ ys := by
  induction ys generalizing xs with
  | nil => exact (List.append_nil xs).symm
  | cons y ys ih =>
    have hy : y ∉ xs := fun hy => (List.nodup_append.1 h).2.2 y hy y List.mem_cons_self rfl
    have hn : appendNew xs y = xs ++ [y] := if_neg hy
    rw [List.append_cons] at h ⊢
    rw [← ih h, ← hn]
    rfl

theorem Cell.passes_writtenFrom {withIndex withSelf : Bool} {s c : Cell}
    (hs : s.dependencies.Nodup) (hc : c.dependencies = []) :
    Passes withSelf s (s.writtenFrom withIndex withSelf c) where
  value := rfl
  color := rfl
  isIdentity := rfl
  dependencies := by
    cases withSelf with
    | false =>
      simp only [writtenFrom, hc, Bool.false_eq_true, if_false]
      exact appendAllNew_of_nodup hs
    | true =>
      simp only [writtenFrom, hc, if_true]
      rfl

namespace Graph

variable {g g' : Graph}

/-! ### One cell -/

theorem rewrites_transferCell (g : Graph) (withIndex withSelf : Bool) (source target : CellId) :
    g.Rewrites (g.transferCell withIndex withSelf source target) {target} := by
  rw [transferCell_eq]
  refine (rewrites_modify g target ((g.cell source).paintOnto withIndex)).trans ?_
  cases withSelf with
  | false => exact rewrites_linkAll ..
  | true => exact (rewrites_link _ target source).trans (rewrites_linkAll ..)

theorem core_transferCell (hg : g.IsWellFormed) {source target : CellId} (hs : source ∈ g.nodes)
    (ht : target ∈ g.nodes) (hne : source ≠ target) (withIndex withSelf : Bool) :
    (g.transferCell withIndex withSelf source target).core target =
      (g.core source).writtenFrom withIndex withSelf (g.core target) := by
  have hid : (g.core source).id = source := hg.id_cell source
  have hdeps : ∀ d ∈ (g.cell source).dependencies, d ∈ g.nodes := fun d hd => hg.mem_nodes hd
  have h₁ := rewrites_modify g target ((g.cell source).paintOnto withIndex)
  have hcore₁ := core_modify_self (f := (g.cell source).paintOnto withIndex) ht
  rw [transferCell_eq]
  dsimp only
  set g₁ := g.modify target ((g.cell source).paintOnto withIndex)
  cases withSelf with
  | false =>
    simp only [Bool.false_eq_true, if_false]
    rw [h₁.dependencies_eq hne, core_linkAll_self (h₁.mem_nodes.2 ht)
      fun d hd => h₁.mem_nodes.2 (hdeps d hd), hcore₁]
    rfl
  | true =>
    have h₂ := h₁.trans (rewrites_link g₁ target source)
    have hcore₂ := core_link_self (h₁.mem_nodes.2 ht) (h₁.mem_nodes.2 hs)
    simp only [if_true]
    rw [h₂.dependencies_eq hne, core_linkAll_self (h₂.mem_nodes.2 ht)
      fun d hd => h₂.mem_nodes.2 (hdeps d hd), hcore₂, hcore₁]
    simp only [Cell.writtenFrom, hid, if_true]
    rfl

/-! ### All cells of a matrix -/

/-- A loop that writes cells of `ids` each from a cell outside writes them as at the start. -/
theorem foldl_transferCell {α : Type} {step : Graph → α → Graph} {source target : α → CellId}
    {ids : Set CellId} {as : List α} {withIndex withSelf : Bool} (hg : g.IsWellFormed)
    (hstep : ∀ a ∈ as, ∀ g₁, g.Rewrites g₁ ids →
      step g₁ a = g₁.transferCell withIndex withSelf (source a) (target a))
    (hs : ∀ a ∈ as, source a ∈ g.nodes ∧ source a ∉ ids)
    (ht : ∀ a ∈ as, target a ∈ g.nodes ∧ target a ∈ ids)
    (has : as.Pairwise fun a b => target a ≠ target b) :
    g.Rewrites (as.foldl step g) ids ∧ ∀ a ∈ as, (as.foldl step g).core (target a) =
      (g.core (source a)).writtenFrom withIndex withSelf (g.core (target a)) := by
  refine foldl_rewrites IsWellFormed (fun a ha g₁ hr hi hcore => ?_)
    (fun a ha => (ht a ha).2) has hg
  have hne : source a ≠ target a := fun he => (hs a ha).2 (he ▸ (ht a ha).2)
  rw [hstep a ha g₁ hr]
  refine ⟨rewrites_transferCell g₁ _ _ _ _, (edits_transferCell g₁ _ _ _ _).isWellFormed hi, ?_⟩
  rw [core_transferCell hi (hr.mem_nodes.2 (hs a ha).1) (hr.mem_nodes.2 (ht a ha).1) hne,
    hr.core_eq (hs a ha).2, hcore]

/-- What a loop over the positions of a block leaves that writes from each cell the one of a second
block at a place of its own. -/
private theorem rewrites_transferCells (hg : g.IsWellFormed) {source target : Text} {s t : Block}
    (hne : source ≠ target) (hs : g.matrices[source]? = some s)
    (ht : g.matrices[target]? = some t) {place : Nat × Nat → Nat × Nat}
    (hinj : Function.Injective place) (hplace : ∀ p ∈ s.positions, place p ∈ t.positions)
    {withIndex withSelf : Bool}
    (hg' : g' = s.positions.foldl (fun g p => g.transferCell withIndex withSelf
      (g.idAt s p.1 p.2) (g.idAt t (place p).1 (place p).2)) g) :
    g.Rewrites g' (g.idSet t) ∧ ∀ p ∈ s.positions, g'.coreAt t (place p).1 (place p).2 =
      (g.coreAt s p.1 p.2).writtenFrom withIndex withSelf
        (g.coreAt t (place p).1 (place p).2) := by
  have hstep : ∀ p ∈ s.positions, ∀ g₁, g.Rewrites g₁ (g.idSet t) →
      g₁.transferCell withIndex withSelf (g₁.idAt s p.1 p.2)
          (g₁.idAt t (place p).1 (place p).2) =
        g₁.transferCell withIndex withSelf (g.idAt s p.1 p.2)
          (g.idAt t (place p).1 (place p).2) := by
    intro p _ g₁ h₁
    rw [h₁.idAt_eq, h₁.idAt_eq]
  have hsource : ∀ p ∈ s.positions,
      g.idAt s p.1 p.2 ∈ g.nodes ∧ g.idAt s p.1 p.2 ∉ g.idSet t := by
    intro p hp
    obtain ⟨hi, hj⟩ := s.mem_positions.1 hp
    exact ⟨hg.idAt_mem hs hi hj, hg.idAt_notMem_idSet ht hs hne hi hj⟩
  have htarget : ∀ p ∈ s.positions,
      g.idAt t (place p).1 (place p).2 ∈ g.nodes ∧
        g.idAt t (place p).1 (place p).2 ∈ g.idSet t := by
    intro p hp
    obtain ⟨hi, hj⟩ := t.mem_positions.1 (hplace p hp)
    exact ⟨hg.idAt_mem ht hi hj, idAt_mem_idSet hi hj⟩
  have hpair : s.positions.Pairwise fun p q =>
      g.idAt t (place p).1 (place p).2 ≠ g.idAt t (place q).1 (place q).2 := by
    refine s.nodup_positions.imp_of_mem fun {p q} hp hq hne he => hne (hinj ?_)
    have hp := (t.mem_positions.1 (hplace p hp)).2
    have hq := (t.mem_positions.1 (hplace q hq)).2
    obtain ⟨h₁, h₂⟩ := (idAt_inj hp hq).1 he
    exact Prod.ext h₁ h₂
  obtain ⟨h, hcells⟩ := foldl_transferCell hg hstep hsource htarget hpair
  rw [← hg'] at h hcells
  refine ⟨h, fun p hp => ?_⟩
  rw [coreAt, h.idAt_eq]
  exact hcells p hp

/-! ### Copies and instances -/

/-- The matrix `target` has the shape of the matrix `source` and holds what that holds. -/
def IsCopyOf (g : Graph) (withSelf : Bool) (source target : Text) : Prop :=
  ∃ s t, g.matrices[source]? = some s ∧ g.matrices[target]? = some t ∧
    t.rows = s.rows ∧ t.cols = s.cols ∧ ∀ i j, i < s.rows → j < s.cols →
      (g.coreAt s i j).Passes withSelf (g.coreAt t i j)

theorem IsCopyOf.of_keeps {withSelf : Bool} {source target : Text}
    (h : g.IsCopyOf withSelf source target) (hs : g.Keeps g' source) (ht : g.Keeps g' target) :
    g'.IsCopyOf withSelf source target := by
  obtain ⟨s, t, hb, hc, hr, hcol, hcells⟩ := h
  refine ⟨s, t, hs.matrices.trans hb, ht.matrices.trans hc, hr, hcol, fun i j hi hj => ?_⟩
  rw [hs.coreAt hb hi hj, ht.coreAt hc (hr ▸ hi) (hcol ▸ hj)]
  exact hcells i j hi hj

/-- Writing a block from another one of the same shape. -/
theorem transferBlock_spec (hg : g.IsWellFormed) {source target : Text} {s t : Block}
    (hne : source ≠ target) (hs : g.matrices[source]? = some s)
    (ht : g.matrices[target]? = some t) (hr : t.rows = s.rows) (hc : t.cols = s.cols)
    (hempty : ∀ {i j}, i < t.rows → j < t.cols → (g.coreAt t i j).dependencies = [])
    (withSelf : Bool) :
    g.WritesOnly (g.transferBlock withSelf s t) target ∧
      (g.transferBlock withSelf s t).IsCopyOf withSelf source target := by
  have hplace : ∀ p ∈ s.positions, id p ∈ t.positions := by
    have hst : s.positions = t.positions := by simp only [Block.positions, hr, hc]
    rw [hst]
    exact fun p hp => hp
  obtain ⟨h, hcells⟩ := rewrites_transferCells hg hne hs ht Function.injective_id hplace
    (rfl : g.transferBlock withSelf s t = _)
  have hedits := (fills_transferBlock (g.supplies_univ withSelf s) hr hc).edits
  have hw := h.writesOnly hg hedits ht
  have hk := hw.keeps source hne
  refine ⟨hw, s, t, hk.matrices.trans hs, ?_, hr, hc, fun i j hi hj => ?_⟩
  · rw [h.matrices, ht]
  · have htarget : (g.transferBlock withSelf s t).coreAt t i j =
        (g.coreAt s i j).writtenFrom true withSelf (g.coreAt t i j) :=
      hcells (i, j) (s.mem_positions.2 ⟨hi, hj⟩)
    rw [hk.coreAt hs hi hj, htarget]
    exact Cell.passes_writtenFrom (hg.nodup_dependencies _) (hempty (hr ▸ hi) (hc ▸ hj))

/-- A matrix made ready for it takes a copy of another one. -/
private theorem Prepared.transferBlock {g₁ : Graph} {source target : Text} {s t : Block}
    (h : g.Prepared g₁ target t) (hne : source ≠ target) (hs : g.matrices[source]? = some s)
    (hr : t.rows = s.rows) (hc : t.cols = s.cols) (withSelf : Bool) :
    g.WritesOnly (g₁.transferBlock withSelf s t) target ∧
      (g₁.transferBlock withSelf s t).IsCopyOf withSelf source target := by
  have hs₁ : g₁.matrices[source]? = some s := (h.keeps source hne).matrices.trans hs
  obtain ⟨hw, hcopy⟩ :=
    transferBlock_spec h.isWellFormed hne hs₁ h.matrices hr hc h.dependencies withSelf
  exact ⟨h.toWritesOnly.trans hw, hcopy⟩

/-- **Copying a matrix onto another one.** Only that one changes, and it then holds what the first
one holds. -/
theorem copy_spec (hg : g.IsWellFormed) {source target : Text} {s : Block}
    (hs : g.matrices[source]? = some s) (hne : source ≠ target) :
    ∃ g', g.copy source target = some g' ∧ g.WritesOnly g' target ∧
      g'.IsCopyOf false source target := by
  obtain ⟨t, ht, hr, hc⟩ := prepared_prepare hg target s.rows_pos s.cols_pos
  refine ⟨_, ?_, ht.transferBlock hne hs hr hc false⟩
  rw [copy, hs, Option.map_some]
  simp only [ht.matrices]

/-- Of the cells that the graph had, those stand in a matrix after another one was copied to it that
stood there before, if it had the shape already. -/
theorem idAt?_of_copy (hg : g.IsMinted) {source target : Text} (h : g.copy source target = some g')
    {s : Block} (hs : g.matrices[source]? = some s) {i j : Nat} {x : CellId} (hx : x ∈ g.nodes) :
    g'.idAt? target i j = some x ↔
      g.shape? target = some s.shape ∧ g.idAt? target i j = some x := by
  rw [copy, hs, Option.map_some, Option.some.injEq] at h
  obtain ⟨t, ht, hrow, hcol, -⟩ := g.prepare_spec target s.rows_pos s.cols_pos
  simp only [ht] at h
  have htables := (fills_transferBlock ((g.prepare target s.rows s.cols s.rows_pos
    s.cols_pos).supplies_univ false s) hrow hcol).sameTables
  rw [← h, htables.idAt?_eq]
  by_cases hshape : g.shape? target = some (s.rows, s.cols)
  · rw [prepare, if_pos hshape, Block.shape, and_iff_right hshape]
    obtain ⟨b, hb, -⟩ := Option.map_eq_some_iff.1 hshape
    rw [(fills_unlink ∅ hb).sameTables.idAt?_eq]
  · rw [prepare, if_neg hshape, idAt?_eq_some_iff]
    refine iff_of_false ?_ fun hx => hshape hx.1
    rintro ⟨b, hb, -, -, rfl⟩
    rw [matrices_addMatrix, if_pos rfl, Option.some.injEq] at hb
    rw [← hb, idAt_addMatrix] at hx
    exact hg.idAt_nextBlock_notMem s.rows_pos s.cols_pos i j hx

/-- **An instance of a matrix.** Only the instance is new, and it holds what the matrix holds. -/
theorem instantiate_spec (hg : g.IsWellFormed) {source target : Text} {s : Block}
    (hs : g.matrices[source]? = some s) (hne : source ≠ target) :
    ∃ g', g.instantiate source target = some g' ∧ g.WritesOnly g' target ∧
      g'.IsCopyOf true source target := by
  have ht := prepared_addMatrix hg target s.rows_pos s.cols_pos
  refine ⟨_, ?_, ht.transferBlock hne hs rfl rfl true⟩
  rw [instantiate, hs, Option.map_some]
  simp only [ht.matrices]

/-- Writing a cell without dependencies from itself changes nothing that is read of it. -/
theorem core_transferCell_self {id : CellId} (hid : id ∈ g.nodes)
    (hdeps : (g.core id).dependencies = []) : (g.transferCell true false id id).core id = g.core id := by
  have hcore := core_modify_self (f := (g.cell id).paintOnto true) hid
  have hnil : ((g.modify id ((g.cell id).paintOnto true)).cell id).dependencies = [] := by
    have h := congrArg Cell.dependencies hcore
    exact h.trans hdeps
  rw [transferCell_eq]
  simp only [Bool.false_eq_true, if_false, hnil, linkAll, List.foldl_nil]
  exact hcore

/-- Writing a block without dependencies from itself changes nothing that is read of it. -/
theorem transferBlock_self (hg : g.IsWellFormed) {name : Text} {b : Block}
    (hb : g.matrices[name]? = some b)
    (hdeps : ∀ i j, i < b.rows → j < b.cols → (g.coreAt b i j).dependencies = []) :
    g.Rewrites (g.transferBlock false b b) (g.idSet b) ∧
      ∀ i j, i < b.rows → j < b.cols →
        (g.transferBlock false b b).coreAt b i j = g.coreAt b i j := by
  have hstep : ∀ p ∈ b.positions, ∀ g₁, g.Rewrites g₁ (g.idSet b) → g₁.IsWellFormed →
      g₁.core (g.idAt b p.1 p.2) = g.coreAt b p.1 p.2 →
      g₁.Rewrites (g₁.transferCell true false (g₁.idAt b p.1 p.2) (g₁.idAt b p.1 p.2))
          {g.idAt b p.1 p.2} ∧
        (g₁.transferCell true false (g₁.idAt b p.1 p.2) (g₁.idAt b p.1 p.2)).IsWellFormed ∧
        (g₁.transferCell true false (g₁.idAt b p.1 p.2) (g₁.idAt b p.1 p.2)).core
          (g.idAt b p.1 p.2) = g.coreAt b p.1 p.2 := by
    intro p hp g₁ h₁ hi hcore
    obtain ⟨hrow, hcol⟩ := b.mem_positions.1 hp
    rw [h₁.idAt_eq]
    refine ⟨rewrites_transferCell .., (edits_transferCell ..).isWellFormed hi, ?_⟩
    rw [core_transferCell_self (h₁.mem_nodes.2 (hg.idAt_mem hb hrow hcol)), hcore]
    rw [hcore, hdeps _ _ hrow hcol]
  have hkey : ∀ p ∈ b.positions, g.idAt b p.1 p.2 ∈ g.idSet b := fun p hp =>
    idAt_mem_idSet (b.mem_positions.1 hp).1 (b.mem_positions.1 hp).2
  obtain ⟨h, hcells⟩ := foldl_rewrites IsWellFormed hstep hkey (g.pairwise_idAt b) hg
  have h : g.Rewrites (g.transferBlock false b b) (g.idSet b) := h
  refine ⟨h, fun i j hi hj => ?_⟩
  rw [coreAt, h.idAt_eq]
  exact hcells (i, j) (b.mem_positions.2 ⟨hi, hj⟩)

/-- **Copying a matrix onto itself.** Only that matrix changes: it forgets what its cells were
derived from, and keeps all that is painted on them. -/
theorem copy_self_spec (hg : g.IsWellFormed) {name : Text} {b : Block}
    (hb : g.matrices[name]? = some b) :
    ∃ g', g.copy name name = some g' ∧ g.WritesOnly g' name ∧ g'.matrices[name]? = some b ∧
      ∀ i j, i < b.rows → j < b.cols →
        g'.coreAt b i j = { g.coreAt b i j with dependencies := [] } := by
  have hshape : g.shape? name = some (b.rows, b.cols) := by
    rw [shape?, hb]
    rfl
  obtain ⟨h₁, hunlinked⟩ := rewrites_unlink hg hb
  have he₁ : Edits g (g.unlink name) := (fills_unlink ∅ hb).edits
  have hwf : (g.unlink name).IsWellFormed := he₁.isWellFormed hg
  have hb₁ : (g.unlink name).matrices[name]? = some b := by rw [h₁.matrices, hb]
  obtain ⟨h₂, hcells⟩ := transferBlock_self hwf hb₁ fun i j hi hj => by rw [hunlinked i j hi hj]
  have he₂ : Edits (g.unlink name) ((g.unlink name).transferBlock false b b) :=
    (fills_transferBlock (supplies_univ _ false b) rfl rfl).edits
  refine ⟨(g.unlink name).transferBlock false b b, ?_,
    (h₁.writesOnly hg he₁ hb).trans (h₂.writesOnly hwf he₂ hb₁), ?_, fun i j hi hj => ?_⟩
  · simp only [copy, hb, Option.map_some, prepare, if_pos hshape, hb₁]
  · rw [h₂.matrices, hb₁]
  · rw [hcells i j hi hj, hunlinked i j hi hj]

theorem instantiate_eq_none {source target : Text} (h : g.matrices[source]? = none) :
    g.instantiate source target = none := by
  rw [instantiate, h, Option.map_none]

/-! ### Transposes -/

/-- The matrix `target` has the transposed shape of the matrix `source` and holds at each place what
that holds at the swapped one; its cells also derive from the cells they are taken from. -/
def IsTransposeOf (g : Graph) (source target : Text) : Prop :=
  ∃ s t, g.matrices[source]? = some s ∧ g.matrices[target]? = some t ∧
    t.rows = s.cols ∧ t.cols = s.rows ∧ ∀ i j, i < s.rows → j < s.cols →
      (g.coreAt s i j).Passes true (g.coreAt t j i)

theorem IsTransposeOf.of_keeps {source target : Text} (h : g.IsTransposeOf source target)
    (hs : g.Keeps g' source) (ht : g.Keeps g' target) : g'.IsTransposeOf source target := by
  obtain ⟨s, t, hb, hc, hr, hcol, hcells⟩ := h
  refine ⟨s, t, hs.matrices.trans hb, ht.matrices.trans hc, hr, hcol, fun i j hi hj => ?_⟩
  rw [hs.coreAt hb hi hj, ht.coreAt hc (hr ▸ hj) (hcol ▸ hi)]
  exact hcells i j hi hj

/-- A transpose has a name of its own. -/
theorem ne_transposeName (name : Text) : name ≠ transposeName name := by
  intro h
  have h := congrArg (fun t : Text => t.symbols.length) h
  simp only [transposeName, Text.symbols_append, List.length_append] at h
  have : (Text.ofString "_T").symbols.length = 2 := by decide
  omega

/-- The loop of a transpose. -/
private def transposeBlock (g : Graph) (s t : Block) : Graph :=
  s.positions.foldl (fun g p =>
    g.transferCell false true (g.idAt s p.1 p.2) (g.idAt t p.2 p.1)) g

/-- **The transpose of a matrix.** Only the transpose changes, and it then holds what the matrix
holds at the swapped places. -/
theorem transpose_spec (hg : g.IsWellFormed) {name : Text} {s : Block}
    (hs : g.matrices[name]? = some s) :
    ∃ g', g.transpose name = some (transposeName name, g') ∧
      g.WritesOnly g' (transposeName name) ∧ g'.IsTransposeOf name (transposeName name) := by
  have hne := ne_transposeName name
  obtain ⟨t, ht, hr, hc⟩ := prepared_prepare hg (transposeName name) s.cols_pos s.rows_pos
  set g₁ := g.prepare (transposeName name) s.cols s.rows s.cols_pos s.rows_pos
  have hs₁ : g₁.matrices[name]? = some s := (ht.keeps name hne).matrices.trans hs
  have hplace : ∀ p ∈ s.positions, p.swap ∈ t.positions := by
    intro p hp
    obtain ⟨hi, hj⟩ := s.mem_positions.1 hp
    exact t.mem_positions.2 ⟨hr ▸ hj, hc ▸ hi⟩
  obtain ⟨h, hcells⟩ := rewrites_transferCells ht.isWellFormed hne hs₁ ht.matrices
    Prod.swap_injective hplace (rfl : g₁.transposeBlock s t = _)
  have he : Edits g₁ (g₁.transposeBlock s t) :=
    steps_foldl fun p _ g _ => edits_transferCell g false true _ _
  have hw := h.writesOnly ht.isWellFormed he ht.matrices
  have hk := hw.keeps name hne
  refine ⟨g₁.transposeBlock s t, ?_, ht.toWritesOnly.trans hw, s, t, hk.matrices.trans hs₁, ?_, hr,
    hc, fun i j hi hj => ?_⟩
  · rw [transpose, hs, Option.map_some]
    simp only [g₁, ht.matrices, transposeBlock]
  · rw [h.matrices, ht.matrices]
  · have htarget : (g₁.transposeBlock s t).coreAt t j i =
        (g₁.coreAt s i j).writtenFrom false true (g₁.coreAt t j i) :=
      hcells (i, j) (s.mem_positions.2 ⟨hi, hj⟩)
    rw [hk.coreAt hs₁ hi hj, htarget]
    exact Cell.passes_writtenFrom (ht.isWellFormed.nodup_dependencies _)
      (ht.dependencies (hr ▸ hj) (hc ▸ hi))

end Graph

end CellLineage
