import CellLineage.Evaluation.Recompute
import CellLineage.Proofs.Graph.Dot
import CellLineage.Proofs.Graph.Lookup
import Mathlib.Data.Set.Basic
import Mathlib.Logic.Relation

/-!
# Edits of a graph

Whatever happens to a graph is a sequence of *edits* (`Graph.Edit`): a fresh matrix is made, a cell
is painted, one edge is recorded, the edges into one cell are forgotten, an intermediate result is
named or described, or all is dropped. What every edit preserves therefore holds after any run of
operations, also after one that stopped part-way.

An operation on matrices does more specific edits. It makes its target ready, by making it anew or
in place, and then fills the cells of the target only; they become derived from what the operands
hand on. `Graph.Makes` says so, for a set of *sources* that holds whatever is handed on.

## Main definitions

* `Graph.Edit`, `Graph.Edits`: one edit, and any number of them.
* `Graph.Fill`, `Graph.Fills`: edits of some cells, which become derived from some sources.
* `Graph.Makes`: a matrix is made ready and filled.
* `Graph.after`: the graph that a run leaves.

## Main results

* `Graph.Fills.mem_dependencies`: what cells derive from after they were filled.
* `Graph.makes_transpose`, `Graph.makes_instantiate`, `Graph.makes_copy`, `Graph.makes_multiply`:
  the operations on matrices make their targets.
-/

namespace CellLineage

/-- The cell with nothing painted on it: its id, its place and its lineage. -/
def Cell.bare (c : Cell) : Cell :=
  { c with value := .int 0, color := none, colorIndex := none, isIdentity := false }

theorem Cell.eq_of_bare_eq {c d : Cell} (h : c.bare = d.bare) :
    c.id = d.id ∧ (c.matrix = d.matrix ∧ c.row = d.row ∧ c.col = d.col) ∧
      c.dependencies = d.dependencies ∧ c.dependents = d.dependents := by
  simp only [bare, mk.injEq] at h
  tauto

namespace Graph

/-- One elementary change of a graph. -/
inductive Edit : Graph → Graph → Prop where
  | addMatrix (g : Graph) (name : Text) (rows cols : Nat) (hr : 0 < rows) (hc : 0 < cols) :
      Edit g (g.addMatrix name rows cols hr hc)
  | paint (g : Graph) (id : CellId) (f : Cell → Cell) (hf : ∀ c, (f c).bare = c.bare) :
      Edit g (g.modify id f)
  | link (g : Graph) (target source : CellId) : Edit g (g.link target source)
  | unlinkCell (g : Graph) (id : CellId) : Edit g (g.unlinkCell id)
  | describe (g : Graph) (temporaries : Nat) (descriptions : Std.ExtTreeMap Text Text) :
      Edit g { g with temporaries, descriptions }
  | clear (g : Graph) : Edit g g.clear

/-- Any number of edits, one after another. -/
abbrev Edits : Graph → Graph → Prop :=
  Relation.ReflTransGen Edit

/-- One change of a cell of `targets`: it is painted, it becomes derived from one of `sources`, or
what it was derived from is forgotten. -/
inductive Fill (targets sources : Set CellId) : Graph → Graph → Prop where
  | paint (g : Graph) {id : CellId} (f : Cell → Cell) (hid : id ∈ targets)
      (hf : ∀ c, (f c).bare = c.bare) : Fill targets sources g (g.modify id f)
  | link (g : Graph) {target source : CellId} (ht : target ∈ targets) (hs : source ∈ sources) :
      Fill targets sources g (g.link target source)
  | unlinkCell (g : Graph) {id : CellId} (hid : id ∈ targets) :
      Fill targets sources g (g.unlinkCell id)

/-- Any number of changes of cells of `targets`. -/
abbrev Fills (targets sources : Set CellId) : Graph → Graph → Prop :=
  Relation.ReflTransGen (Fill targets sources)

/-- The ids of a block. -/
def idSet (g : Graph) (b : Block) : Set CellId :=
  {id | ∃ i j, i < b.rows ∧ j < b.cols ∧ id = g.idAt b i j}

/-- The matrix of the name is made ready, anew or in place, and then its cells are filled. -/
inductive Makes (sources : Set CellId) (name : Text) (g g' : Graph) : Prop where
  | anew {rows cols : Nat} {hr : 0 < rows} {hc : 0 < cols}
      (h : Fills (g.idSet (g.nextBlock rows cols hr hc)) sources
        (g.addMatrix name rows cols hr hc) g')
  | inPlace {b : Block} (hb : g.matrices[name]? = some b) (h : Fills (g.idSet b) sources g g')

/-- What the cells of the block hand on to cells written from them is among `sources`: all that they
derive from, and the cells themselves if so asked. -/
def Supplies (g : Graph) (sources : Set CellId) (withSelf : Bool) (b : Block) : Prop :=
  ∀ i j, i < b.rows → j < b.cols →
    (∀ x ∈ (g.cell (g.idAt b i j)).dependencies, x ∈ sources) ∧
    (withSelf = true → g.idAt b i j ∈ sources ∧ (g.cell (g.idAt b i j)).id ∈ sources)

/-- The graph that a run leaves, whether it stopped part-way or not. -/
def after {α : Type} (r : Run α) (g : Graph) : Graph :=
  match r g with
  | .ok _ g' => g'
  | .error _ g' => g'

variable {g g' g₁ : Graph} {targets sources : Set CellId} {a x : CellId} {name : Text}

theorem idAt_mem_idSet {b : Block} {i j : Nat} (hi : i < b.rows) (hj : j < b.cols) :
    g.idAt b i j ∈ g.idSet b :=
  ⟨i, j, hi, hj, rfl⟩

theorem SameTables.idSet_eq (h : g.SameTables g') (b : Block) : g'.idSet b = g.idSet b := by
  simp only [idSet, h.idAt_eq]

/-! ### Runs, step by step

The steps are those of any relation on graphs: edits, changes of some cells, and others below. -/

section

variable {r : Graph → Graph → Prop} {α β : Type}

open Relation

theorem steps_foldl {σ : Type} {r : σ → σ → Prop} {s : σ} {f : σ → α → σ} {as : List α}
    (hf : ∀ a ∈ as, ∀ s₁, ReflTransGen r s s₁ → ReflTransGen r s₁ (f s₁ a)) :
    ReflTransGen r s (as.foldl f s) := by
  suffices hall : ∀ s₁, ReflTransGen r s s₁ → ReflTransGen r s (as.foldl f s₁) from hall s .refl
  induction as with
  | nil => exact fun s₁ h => h
  | cons a as ih =>
    intro s₁ h
    exact ih (fun b hb => hf b (List.mem_cons_of_mem a hb)) _
      (h.trans (hf a List.mem_cons_self s₁ h))

theorem get_bind_eq (f : Graph → Run α) (g : Graph) : (get >>= f) g = f g g :=
  rfl

theorem set_bind_eq (k : Run α) (g g' : Graph) : (do set g'; k) g = k g' :=
  rfl

theorem bind_eq_of_ok {x : Run α} {f : α → Run β} {a : α} (h : x g = .ok a g') :
    (x >>= f) g = f a g' := by
  simp only [bind, EStateM.bind, h]

theorem bind_eq_of_error {x : Run α} {f : α → Run β} {e : Fault} (h : x g = .error e g') :
    (x >>= f) g = .error e g' := by
  simp only [bind, EStateM.bind, h]

/-- A run of two parts that returns went through a first part that did. -/
theorem exists_run_of_bind {x : Run α} {f : α → Run β} {b : β} (h : (x >>= f) g = .ok b g') :
    ∃ a g₁, x g = .ok a g₁ ∧ f a g₁ = .ok b g' := by
  cases hx : x g with
  | ok a g₁ => exact ⟨a, g₁, rfl, (bind_eq_of_ok hx).symm.trans h⟩
  | error e g₁ =>
    rw [bind_eq_of_error hx] at h
    cases h

theorem after_congr {r : Run α} (h : r g = r g') : after r g = after r g' := by
  rw [after, after, h]

theorem after_of_ok {x : Run α} {a : α} (h : x g = .ok a g') : after x g = g' := by
  simp only [after, h]

theorem after_of_error {x : Run α} {e : Fault} (h : x g = .error e g') : after x g = g' := by
  simp only [after, h]

/-- What a run that does not stop reports. -/
theorem run'_of_ok {x : Run α} {a : α} (h : x g = .ok a g') : EStateM.run' x g = some a :=
  congrArg (fun r => EStateM.run' (fun _ => r) g) h

/-- A run that stops reports nothing. -/
theorem run'_of_error {x : Run α} {e : Fault} (h : x g = .error e g') : EStateM.run' x g = none :=
  congrArg (fun r => EStateM.run' (fun _ => r) g) h

theorem after_bind_of_ok {x : Run α} {f : α → Run β} {a : α} (h : x g = .ok a g') :
    after (x >>= f) g = after (f a) g' := by
  simp only [after, bind_eq_of_ok h]

/-- What only reports leaves the graph as it was before. -/
theorem after_bind_of_after_eq {x : Run α} {f : α → Run β} (hf : ∀ a g₁, after (f a) g₁ = g₁) :
    after (x >>= f) g = after x g := by
  cases h : x g with
  | ok a g₁ => rw [after_bind_of_ok h, hf, after_of_ok h]
  | error e g₁ => rw [after_of_error (bind_eq_of_error h), after_of_error h]

theorem steps_bind {x : Run α} {f : α → Run β} (hx : ReflTransGen r g (after x g))
    (hf : ∀ a g₁, x g = .ok a g₁ → ReflTransGen r g₁ (after (f a) g₁)) :
    ReflTransGen r g (after (x >>= f) g) := by
  unfold after at hx hf ⊢
  cases h : x g with
  | ok a g₁ =>
    rw [h] at hx
    simpa only [bind, EStateM.bind, h] using hx.trans (hf a g₁ h)
  | error e g₁ =>
    rw [h] at hx
    simpa only [bind, EStateM.bind, h] using hx

theorem steps_get_bind {f : Graph → Run α} (hf : ReflTransGen r g (after (f g) g)) :
    ReflTransGen r g (after (get >>= f) g) :=
  hf

theorem steps_set_bind {k : Run α} (h : ReflTransGen r g g')
    (hk : ReflTransGen r g' (after k g')) : ReflTransGen r g (after (do set g'; k) g) :=
  h.trans hk

theorem steps_pure (a : α) : ReflTransGen r g (after (pure a : Run α) g) :=
  .refl

theorem eq_ok_of_liftIndex {x : Except Formula.IndexFault α} {a : α}
    (h : liftIndex x g = .ok a g') : x = .ok a := by
  cases x with
  | error e => cases h
  | ok b =>
    cases h
    rfl

theorem graph_eq_of_liftIndex {x : Except Formula.IndexFault α} {a : α}
    (h : liftIndex x g = .ok a g') : g' = g := by
  cases x with
  | error e => cases h
  | ok b =>
    cases h
    rfl

theorem steps_liftIndex (x : Except Formula.IndexFault α) :
    ReflTransGen r g (after (liftIndex x) g) := by
  cases x <;> exact .refl

theorem steps_liftGraph {x : Except Fault Graph} (h : ∀ g', x = .ok g' → ReflTransGen r g g') :
    ReflTransGen r g (after (liftGraph x) g) := by
  cases x with
  | error e => exact .refl
  | ok g' => exact h g' rfl

theorem steps_forM {as : List α} {f : α → Run Unit}
    (hf : ∀ a ∈ as, ∀ g₁, ReflTransGen r g g₁ → ReflTransGen r g₁ (after (f a) g₁)) :
    ReflTransGen r g (after (as.forM f) g) := by
  suffices hall : ∀ g₁, ReflTransGen r g g₁ → ReflTransGen r g₁ (after (as.forM f) g₁) from
    hall g .refl
  induction as with
  | nil => exact fun g₁ _ => .refl
  | cons a as ih =>
    intro g₁ h
    have ha := hf a List.mem_cons_self g₁ h
    refine steps_bind ha fun _ g₂ h₂ => ?_
    rw [after_of_ok h₂] at ha
    exact ih (fun b hb => hf b (List.mem_cons_of_mem a hb)) g₂ (h.trans ha)

end

/-! ### Changes of cells -/

theorem Fill.edit (h : Fill targets sources g g') : Edit g g' := by
  cases h with
  | paint f hid hf => exact .paint g _ f hf
  | link ht hs => exact .link g _ _
  | unlinkCell hid => exact .unlinkCell g _

theorem Fills.edits (h : Fills targets sources g g') : Edits g g' :=
  Relation.ReflTransGen.mono (fun _ _ => Fill.edit) _ _ h

theorem Fill.sameTables (h : Fill targets sources g g') : g.SameTables g' := by
  cases h with
  | paint f hid hf => exact sameTables_modify g _ f
  | link ht hs => exact sameTables_link g _ _
  | unlinkCell hid => exact sameTables_unlinkCell g _

theorem Fills.sameTables (h : Fills targets sources g g') : g.SameTables g' := by
  induction h with
  | refl => exact .refl g
  | tail _ h ih => exact ih.trans h.sameTables

/-- A cell keeps its id, and what it newly derives from is a source, if it is a target. -/
theorem Fill.cell (h : Fill targets sources g g') : (g'.cell a).id = (g.cell a).id ∧
    (x ∈ (g'.cell a).dependencies → x ∈ (g.cell a).dependencies ∨ a ∈ targets ∧ x ∈ sources) := by
  cases h with
  | @paint id f hid hf =>
    have hbare : ((g.modify id f).cell a).bare = (g.cell a).bare := by
      rw [cell_modify]
      split
      · exact hf _
      · rfl
    obtain ⟨hid, -, hdeps, -⟩ := Cell.eq_of_bare_eq hbare
    rw [hid, hdeps]
    exact ⟨rfl, .inl⟩
  | @link target source ht hs =>
    rw [cell_link]
    split
    · refine ⟨rfl, fun hx => ?_⟩
      dsimp only at hx
      split at hx
      · next ha =>
        subst ha
        rcases mem_appendNew.1 hx with hx | rfl
        · exact .inl hx
        · exact .inr ⟨ht, hs⟩
      · exact .inl hx
    · exact ⟨rfl, .inl⟩
  | @unlinkCell id hid =>
    obtain ⟨ds, hds⟩ := exists_cell_unlinkCell g id a
    rw [hds]
    refine ⟨rfl, fun hx => ?_⟩
    dsimp only at hx
    split at hx
    · exact absurd hx List.not_mem_nil
    · exact .inl hx

theorem Fills.id_eq (h : Fills targets sources g g') (a : CellId) :
    (g'.cell a).id = (g.cell a).id := by
  induction h with
  | refl => rfl
  | tail _ h ih => exact (h.cell (x := a)).1.trans ih

/-- **What cells derive from after they were filled.** Only targets derive from anything new, and
that is a source. -/
theorem Fills.mem_dependencies (h : Fills targets sources g g')
    (hx : x ∈ (g'.cell a).dependencies) :
    x ∈ (g.cell a).dependencies ∨ a ∈ targets ∧ x ∈ sources := by
  induction h with
  | refl => exact .inl hx
  | tail _ h ih =>
    rcases h.cell.2 hx with hx | hx
    · exact ih hx
    · exact .inr hx

theorem supplies_univ (g : Graph) (withSelf : Bool) (b : Block) :
    g.Supplies Set.univ withSelf b :=
  fun _ _ _ _ => ⟨fun _ _ => Set.mem_univ _, fun _ => ⟨Set.mem_univ _, Set.mem_univ _⟩⟩

/-- While cells are filled from sources, the operands hand on nothing but sources. -/
theorem Supplies.of_fills {withSelf : Bool} {b : Block} (h : g.Supplies sources withSelf b)
    (hf : Fills targets sources g g') : g'.Supplies sources withSelf b := by
  intro i j hi hj
  obtain ⟨hdeps, hself⟩ := h i j hi hj
  rw [hf.sameTables.idAt_eq, hf.id_eq]
  refine ⟨fun x hx => ?_, hself⟩
  rcases hf.mem_dependencies hx with hx | hx
  · exact hdeps x hx
  · exact hx.2

theorem Supplies.addMatrix {withSelf : Bool} {b : Block} (h : g.Supplies sources withSelf b)
    {rows cols : Nat} {hr : 0 < rows} {hc : 0 < cols} :
    (g.addMatrix name rows cols hr hc).Supplies sources withSelf b := by
  intro i j hi hj
  obtain ⟨hdeps, hself⟩ := h i j hi hj
  rw [idAt_addMatrix]
  rcases cell_addMatrix_cases g name rows cols hr hc (g.idAt b i j) with ⟨i', j', -, -, -, he⟩ | he
  · rw [he]
    exact ⟨fun x hx => absurd hx List.not_mem_nil, fun hw => ⟨(hself hw).1, (hself hw).1⟩⟩
  · rw [he]
    exact ⟨hdeps, hself⟩

theorem fills_linkAll {id : CellId} {ids : List CellId} (hid : id ∈ targets)
    (hs : ∀ s ∈ ids, s ∈ sources) : Fills targets sources g (g.linkAll id ids) :=
  steps_foldl fun s hmem g₁ _ => .single (.link g₁ hid (hs s hmem))

theorem fills_unlink (sources : Set CellId) {b : Block} (hb : g.matrices[name]? = some b) :
    Fills (g.idSet b) sources g (g.unlink name) := by
  simp only [unlink, hb, ids, List.foldl_map]
  refine steps_foldl fun p hp g₁ _ => .single (.unlinkCell g₁ ?_)
  exact idAt_mem_idSet (b.mem_positions.1 hp).1 (b.mem_positions.1 hp).2

theorem fills_update (sources : Set CellId) (g : Graph) (name : Text) (row col : Int) (value : Number)
    (color : Option Text) (isIdentity : Option Bool) (colorIndex : Option Int) {b : Block}
    (hb : g.matrices[name]? = some b) :
    Fills (g.idSet b) sources g (g.update name row col value color isIdentity colorIndex) := by
  rw [update, update?, idAt?, hb]
  dsimp only
  split
  · refine .single (.paint g (paintCell · value color isIdentity colorIndex) ?_ fun _ => rfl)
    exact ⟨row.toNat, col.toNat, by omega, by omega, rfl⟩
  · exact .refl

theorem fills_wipe (sources : Set CellId) {b : Block} (hb : g.matrices[name]? = some b) :
    Fills (g.idSet b) sources g (g.wipe name) := by
  simp only [wipe, hb, ids, List.foldl_map]
  refine steps_foldl fun p hp g₁ _ => .single (.paint g₁ wipeCell ?_ fun _ => rfl)
  exact idAt_mem_idSet (b.mem_positions.1 hp).1 (b.mem_positions.1 hp).2

theorem fills_restoreCell (sources : Set CellId) (g : Graph) (name : Text) (rows cols : Int)
    (c : PaintedCell) {b : Block} (hb : g.matrices[name]? = some b) :
    Fills (g.idSet b) sources g (g.restoreCell name rows cols c) := by
  unfold restoreCell
  split
  · exact fills_update sources g name _ _ _ _ _ _ hb
  · exact .refl

theorem fills_writeDot {id : CellId} {d : Dot} (hid : id ∈ targets)
    (hs : ∀ s ∈ d.sources, s ∈ sources) : Fills targets sources g (g.writeDot id d) :=
  .head (.paint g (fun c => { c with value := d.total, isIdentity := d.isIdentity }) hid
    fun _ => rfl) (fills_linkAll hid hs)

theorem fills_transferCell {source target : CellId} {withIndex withSelf : Bool}
    (ht : target ∈ targets) (hdeps : ∀ x ∈ (g.cell source).dependencies, x ∈ sources)
    (hself : withSelf = true → source ∈ sources) :
    Fills targets sources g (g.transferCell withIndex withSelf source target) := by
  have h₁ : Fills targets sources g (g.modify target ((g.cell source).paintOnto withIndex)) :=
    .single (.paint g ((g.cell source).paintOnto withIndex) ht fun _ => rfl)
  have hlink {g₂ : Graph} (h₂ : Fills targets sources g g₂) :
      Fills targets sources g₂ (g₂.linkAll target (g₂.cell source).dependencies) :=
    fills_linkAll ht fun x hx => (h₂.mem_dependencies hx).elim (hdeps x) And.right
  rw [transferCell_eq]
  cases withSelf with
  | false => exact h₁.trans (hlink h₁)
  | true =>
    have h₂ := h₁.tail (.link _ ht (hself rfl))
    exact h₂.trans (hlink h₂)

theorem edits_transferCell (g : Graph) (withIndex withSelf : Bool) (source target : CellId) :
    Edits g (g.transferCell withIndex withSelf source target) :=
  (fills_transferCell (Set.mem_univ target) (fun _ _ => Set.mem_univ _)
    fun _ => Set.mem_univ source).edits

/-- A loop over the positions of a block that writes from each cell one of a second block. -/
theorem fills_transferCells {s t : Block} {withIndex withSelf : Bool}
    (place : Nat × Nat → Nat × Nat) (hs : g.Supplies sources withSelf s)
    (hplace : ∀ p ∈ s.positions, place p ∈ t.positions) :
    Fills (g.idSet t) sources g (s.positions.foldl (fun g p => g.transferCell withIndex withSelf
      (g.idAt s p.1 p.2) (g.idAt t (place p).1 (place p).2)) g) := by
  refine steps_foldl fun p hp g₁ h₁ => ?_
  obtain ⟨hi, hj⟩ := s.mem_positions.1 hp
  obtain ⟨hi', hj'⟩ := t.mem_positions.1 (hplace p hp)
  obtain ⟨hdeps, hself⟩ := hs.of_fills h₁ _ _ hi hj
  refine fills_transferCell ?_ hdeps fun hw => (hself hw).1
  rw [(Fills.sameTables h₁).idAt_eq]
  exact idAt_mem_idSet hi' hj'

theorem fills_transferBlock {s t : Block} {withSelf : Bool} (hs : g.Supplies sources withSelf s)
    (hr : t.rows = s.rows) (hc : t.cols = s.cols) :
    Fills (g.idSet t) sources g (g.transferBlock withSelf s t) := by
  refine fills_transferCells id hs fun p hp => ?_
  have hst : t.positions = s.positions := by simp only [Block.positions, hr, hc]
  rw [hst]
  exact hp

theorem fills_multiplyAt (leafOnly : Bool) {l r t : Block} {p : Nat × Nat}
    (hl : g.Supplies sources true l) (hr : g.Supplies sources true r) (hp : p ∈ t.positions)
    (hrow : t.rows = l.rows) (hcol : t.cols = r.cols) :
    Fills (g.idSet t) sources g (after (multiplyAt leafOnly l r t p) g) := by
  obtain ⟨hi, hj⟩ := t.mem_positions.1 hp
  refine steps_get_bind ?_
  split
  · exact .refl
  · next d hd =>
    refine fills_writeDot (idAt_mem_idSet hi hj) fun x hx => ?_
    obtain ⟨id, hid, -, hfeeds⟩ := exists_feeds_of_dot hd hx
    have hsupply : (∀ x ∈ (g.cell id).dependencies, x ∈ sources) ∧ (g.cell id).id ∈ sources := by
      rcases hid with hid | hid <;> obtain ⟨k, hk, rfl⟩ := List.mem_map.1 hid <;>
        rw [List.mem_range] at hk
      · have h := hl p.1 k (hrow ▸ hi) hk
        exact ⟨h.1, (h.2 rfl).2⟩
      · have h := hr k p.2 hk (hcol ▸ hj)
        exact ⟨h.1, (h.2 rfl).2⟩
    rcases hfeeds with hx | ⟨rfl, -⟩
    · exact hsupply.1 x hx
    · exact hsupply.2

/-! ### Matrices that are made -/

theorem Makes.edits (h : Makes sources name g g') : Edits g g' := by
  cases h with
  | anew h => exact .head (.addMatrix g name _ _ _ _) h.edits
  | inPlace hb h => exact h.edits

/-- **A matrix made ready for a shape** is there and has that shape, whether it is made anew or not,
and filling it makes it. -/
theorem prepare_spec (g : Graph) (name : Text) {rows cols : Nat} (hr : 0 < rows) (hc : 0 < cols) :
    ∃ b, (g.prepare name rows cols hr hc).matrices[name]? = some b ∧ b.rows = rows ∧
      b.cols = cols ∧ ∀ sources,
        (∀ g', Fills ((g.prepare name rows cols hr hc).idSet b) sources
          (g.prepare name rows cols hr hc) g' → Makes sources name g g') ∧
        ∀ withSelf c, g.Supplies sources withSelf c →
          (g.prepare name rows cols hr hc).Supplies sources withSelf c := by
  by_cases hs : g.shape? name = some (rows, cols)
  · obtain ⟨b, hb, hshape⟩ := Option.map_eq_some_iff.1 hs
    have h (sources : Set CellId) : Fills (g.idSet b) sources g (g.unlink name) := fills_unlink sources hb
    rw [prepare, if_pos hs]
    refine ⟨b, ?_, congrArg Prod.fst hshape, congrArg Prod.snd hshape, fun sources =>
      ⟨fun g' h' => .inPlace hb ((h sources).trans ?_), fun _ _ hsup => hsup.of_fills (h sources)⟩⟩
    · rw [(h ∅).sameTables.matrices, hb]
    · rwa [(h sources).sameTables.idSet_eq] at h'
  · rw [prepare, if_neg hs]
    refine ⟨g.nextBlock rows cols hr hc, ?_, rfl, rfl, fun sources =>
      ⟨fun g' h' => ?_, fun _ _ hsup => hsup.addMatrix⟩⟩
    · rw [matrices_addMatrix, if_pos rfl]
    · have hfill : Fills (g.idSet (g.nextBlock rows cols hr hc)) sources
          (g.addMatrix name rows cols hr hc) g' := by simpa only [idSet, idAt_addMatrix] using h'
      exact .anew hfill

theorem makes_transpose {target : Text} (h : g.transpose name = some (target, g'))
    (hs : ∀ s, g.matrices[name]? = some s → g.Supplies sources true s) :
    target = transposeName name ∧ Makes sources target g g' := by
  obtain ⟨s, hb, h⟩ := Option.map_eq_some_iff.1 h
  obtain ⟨t, ht, hrow, hcol, hmake⟩ := g.prepare_spec (transposeName name) s.cols_pos s.rows_pos
  obtain ⟨hmakes, hsup⟩ := hmake sources
  simp only [ht, Prod.mk.injEq] at h
  obtain ⟨rfl, rfl⟩ := h
  refine ⟨rfl, hmakes _ (fills_transferCells Prod.swap (hsup _ _ (hs s hb)) ?_)⟩
  intro p hp
  obtain ⟨hi, hj⟩ := s.mem_positions.1 hp
  exact t.mem_positions.2 ⟨hrow ▸ hj, hcol ▸ hi⟩

theorem makes_instantiate {source target : Text} (h : g.instantiate source target = some g')
    (hs : ∀ s, g.matrices[source]? = some s → g.Supplies sources true s) :
    Makes sources target g g' := by
  obtain ⟨s, hb, rfl⟩ := Option.map_eq_some_iff.1 h
  have ht : (g.addMatrix target s.rows s.cols s.rows_pos s.cols_pos).matrices[target]? =
      some (g.nextBlock s.rows s.cols s.rows_pos s.cols_pos) := by
    rw [matrices_addMatrix, if_pos rfl]
  simp only [ht]
  have hsupplies : (g.addMatrix target s.rows s.cols s.rows_pos s.cols_pos).Supplies sources true s :=
    (hs s hb).addMatrix
  have hfill := fills_transferBlock (t := g.nextBlock s.rows s.cols s.rows_pos s.cols_pos)
    hsupplies rfl rfl
  simp only [idSet, idAt_addMatrix] at hfill
  exact .anew hfill

theorem makes_copy {source target : Text} (h : g.copy source target = some g')
    (hs : ∀ s, g.matrices[source]? = some s → g.Supplies sources false s) :
    Makes sources target g g' := by
  obtain ⟨s, hb, rfl⟩ := Option.map_eq_some_iff.1 h
  obtain ⟨t, ht, hrow, hcol, hmake⟩ := g.prepare_spec target s.rows_pos s.cols_pos
  obtain ⟨hmakes, hsup⟩ := hmake sources
  simp only [ht]
  exact hmakes _ (fills_transferBlock (hsup _ _ (hs s hb)) hrow hcol)

theorem makes_initMatrix {rows cols : Int} (h : g.initMatrix name rows cols = .ok g') :
    Makes ∅ name g g' := by
  unfold initMatrix at h
  split at h
  · cases h
    exact .anew .refl
  · cases h

theorem makes_restore {s : Snapshot} {rows cols : Int} (h : g.restore s rows cols = .ok g') :
    Makes ∅ s.name g g' := by
  unfold restore initMatrix at h
  split at h
  · next hpos =>
    cases h
    refine .anew (steps_foldl fun c _ g₁ h₁ => ?_)
    have hb : g₁.matrices[s.name]? = some (g.nextBlock rows.toNat cols.toNat (by omega)
        (by omega)) := by
      rw [(Fills.sameTables h₁).matrices, matrices_addMatrix, if_pos rfl]
    have hfill := fills_restoreCell ∅ g₁ s.name rows cols c hb
    rw [(Fills.sameTables h₁).idSet_eq] at hfill
    simpa only [idSet, idAt_addMatrix] using hfill
  · cases h

/-- **Products are made**, also if the run stops part-way; where there is none, nothing changes. -/
theorem makes_multiply (left right result : Text) (leafOnly : Bool)
    (hl : ∀ l, g.matrices[left]? = some l → g.Supplies sources true l)
    (hr : ∀ r, g.matrices[right]? = some r → g.Supplies sources true r) :
    after (multiply left right result leafOnly) g = g ∨
      Makes sources result g (after (multiply left right result leafOnly) g) := by
  have hget {k : Graph → Run (Option Issue)} : after (get >>= k) g = after (k g) g := rfl
  rw [multiply, hget]
  split
  · exact .inl rfl
  · exact .inl rfl
  · next l r hl' hr' =>
    split
    · exact .inl rfl
    · obtain ⟨t, ht, hrow, hcol, hmake⟩ := g.prepare_spec result l.rows_pos r.cols_pos
      obtain ⟨hmakes, hsup⟩ := hmake sources
      have hset {g₁ : Graph} {k : Run (Option Issue)} : after (do set g₁; k) g = after k g₁ := rfl
      simp only [hset, ht]
      refine .inr (hmakes _ (steps_bind (steps_forM fun p hp g₁ h₁ => ?_) fun _ _ _ => .refl))
      have hfill := fills_multiplyAt leafOnly ((hsup _ _ (hl l hl')).of_fills h₁)
        ((hsup _ _ (hr r hr')).of_fills h₁) hp hrow hcol
      rwa [(Fills.sameTables h₁).idSet_eq] at hfill

/-- A matrix that was made is there. -/
theorem Makes.mem_matrices (h : Makes sources name g g') : name ∈ g'.matrices := by
  rw [Std.ExtTreeMap.mem_iff_isSome_getElem?]
  cases h with
  | anew h => rw [h.sameTables.matrices, matrices_addMatrix, if_pos rfl, Option.isSome_some]
  | inPlace hb h => rw [h.sameTables.matrices, hb, Option.isSome_some]

/-- A multiplication that meets no issue leaves the result there. -/
theorem mem_matrices_of_multiply {left right result : Text} {leafOnly : Bool}
    (h : multiply left right result leafOnly g = .ok none g') : result ∈ g'.matrices := by
  rw [multiply, get_bind_eq] at h
  cases hl : g.matrices[left]? with
  | none =>
    rw [hl] at h
    cases h
  | some l =>
    cases hr : g.matrices[right]? with
    | none =>
      rw [hl, hr] at h
      cases h
    | some r =>
      by_cases hfits : l.cols = r.rows
      · obtain ⟨t, ht, -⟩ := g.prepare_spec result l.rows_pos r.cols_pos
        simp only [hl, hr, hfits, ne_eq, not_true_eq_false, if_false, set_bind_eq, ht] at h
        obtain ⟨u, g₂, hloop, h⟩ := exists_run_of_bind h
        cases h
        have hfills : Fills Set.univ Set.univ
            (g.prepare result l.rows r.cols l.rows_pos r.cols_pos)
            (after (t.positions.forM (multiplyAt leafOnly l r t))
              (g.prepare result l.rows r.cols l.rows_pos r.cols_pos)) := by
          refine steps_forM fun p _ g₁ _ => steps_get_bind ?_
          split
          · exact .refl
          · exact fills_writeDot (Set.mem_univ _) fun _ _ => Set.mem_univ _
        rw [after_of_ok hloop] at hfills
        rw [Std.ExtTreeMap.mem_iff_isSome_getElem?, (Fills.sameTables hfills).matrices, ht,
          Option.isSome_some]
      · simp only [hl, hr, ne_eq, hfits, not_false_eq_true, if_true] at h
        cases h

end Graph

end CellLineage
