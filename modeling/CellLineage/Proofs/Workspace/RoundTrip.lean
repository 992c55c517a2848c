import CellLineage.Proofs.Document.RoundTrip
import CellLineage.Proofs.Workspace.Entered

/-!
# Workspaces that are exported and imported again

The proof has two halves that meet at a description of the workspace by a document. A workspace in
good order is written as a document that describes it and that passes all checks. And what a
document that describes a workspace leaves of a new one has the same formula, settings and shapes,
and input matrices that are painted the same but for zeros. So recomputing both ends alike.

## Main definitions

* `Document.Describes`: a document says what a workspace holds.

## Main results

* `Workspace.IsTended.exists_describes`: what is written of a workspace in good order.
* `Document.Describes.isSound`: it passes the checks of an import.
* `Workspace.IsTended.exists_entered`: what entering it leaves before the formula is evaluated.
* `Workspace.importDocument_document`: export then import.
* `Workspace.importDocument_refused`: an output that is read stands in the way.
-/

namespace CellLineage

open Formula

namespace Association

variable {α β : Type}

theorem exists_of_mem_names {xs : Association α} {name : Text} (h : name ∈ names xs) :
    ∃ a, xs.lookup name = some a :=
  Option.isSome_iff_exists.1 ((lookup_isSome_iff xs name).2 h)

theorem mem_of_mem_foldl_put {xs ys : Association α} {x : Text × α}
    (h : x ∈ ys.foldl (fun zs y => zs.put y.1 y.2) xs) : x ∈ xs ∨ x ∈ ys := by
  induction ys generalizing xs with
  | nil => exact .inl h
  | cons y ys ih =>
    rcases ih h with h | h
    · rcases mem_put h with rfl | h
      · exact .inr List.mem_cons_self
      · exact .inl h
    · exact .inr (List.mem_cons_of_mem y h)

theorem lookup_map_snd (xs : Association α) (f : α → β) (name : Text) :
    (xs.map fun x => (x.1, f x.2)).lookup name = (xs.lookup name).map f := by
  induction xs with
  | nil => rfl
  | cons x xs ih => grind

end Association

/-- The document says what the workspace holds. -/
structure Document.Describes (doc : Document) (w : Workspace) : Prop where
  formula : w.formula = .text doc.formula
  rows : w.rows = .int doc.dimensions.rows
  cols : w.cols = .int doc.dimensions.cols
  symmetric : w.symmetric = .bool doc.configuration.symmetric
  mirror : w.mirror = .bool doc.configuration.mirror
  iterations : w.iterations = .int doc.iterations
  shapes : w.shapes = doc.matrixDimensions.map fun m => (m.1, m.2.shape)
  matrices : doc.matrices = w.baseMatrices.map fun name => (name, w.entries name)

variable {w : Workspace} {doc : Document} {timestamp : Text}

/-! ### Writing -/

namespace Document.Describes

/-- The draft of a workspace says what a document says that describes it. -/
theorem draft_eq (h : doc.Describes w) (timestamp : Text) :
    w.draft timestamp = doc.draft timestamp := by
  have hshapes : w.shapes.map (fun s => (s.1, Datum.int (s.2.1 : Nat), Datum.int (s.2.2 : Nat))) =
      doc.matrixDimensions.map fun m => (m.1, .int m.2.rows, .int m.2.cols) := by
    rw [h.shapes, List.map_map]
    rfl
  rw [Workspace.draft, Document.draft, h.formula, h.rows, h.cols, h.symmetric, h.mirror,
    h.iterations, hshapes, h.matrices]

/-- What is written of a workspace is what describes it, at the time of writing. -/
theorem document_eq (h : doc.Describes w) (timestamp : Text) :
    w.document timestamp = .ok { doc with timestamp := some timestamp } := by
  rw [Workspace.document, h.draft_eq, document_draft]
  rfl

/-- The time of writing says nothing about the workspace. -/
theorem at_timestamp (h : doc.Describes w) (timestamp : Option Text) :
    { doc with timestamp := timestamp }.Describes w :=
  { h with }

/-- The document gives the declared matrices their shapes. -/
theorem shape_dimensionsOf (h : doc.Describes w) {name : Text} {shape : Nat × Nat}
    (hs : w.shapes.lookup name = some shape) : (doc.dimensionsOf name).shape = shape := by
  rw [h.shapes, Association.lookup_map_snd] at hs
  obtain ⟨d, hd, rfl⟩ := Option.map_eq_some_iff.1 hs
  rw [Document.dimensionsOf, hd, Option.getD_some]

end Document.Describes

namespace Document

/-- Sizes that pass the check are within the limit. -/
theorem Dimensions.isWithin_of_check {d : Dimensions} {rows cols limit : Datum}
    (hrows : rows = .int d.rows) (hcols : cols = .int d.cols) {shape : Nat × Nat}
    (h : Size.check rows cols limit = .ok shape) : d.IsWithin limit := by
  obtain ⟨⟨-, hrows', hr⟩, ⟨-, hcols', hc⟩⟩ := Size.check_eq_ok h
  have hr : (d.rows : Int) = shape.1 := by simpa using hrows.symm.trans hr
  have hc : (d.cols : Int) = shape.2 := by simpa using hcols.symm.trans hc
  exact ⟨hr ▸ hrows', hc ▸ hcols'⟩

/-- Sizes within the limit pass the check. -/
theorem Dimensions.IsWithin.check_eq_ok {d : Dimensions} {limit : Datum}
    (h : d.IsWithin limit) :
    Size.check (.int d.rows) (.int d.cols) limit = .ok d.shape := by
  have haxis (axis : Axis) {n : Nat} (hpos : 1 ≤ n) (hn : Size.IsWithin limit (.int n)) :
      Size.checkAxis axis limit (.int n) = .ok n := by
    have hrange : Size.checkRange limit (.int n) (.outOfRange axis limit n) = .ok () := by
      refine Size.checkRange_eq_ok_iff.2 ⟨?_, hn⟩
      rw [Number.lt_int, decide_eq_false_iff_not]
      omega
    simp only [Size.checkAxis, hrange]
    rfl
  rw [Size.check, haxis .rows d.rows_pos h.rows, haxis .cols d.cols_pos h.cols]
  rfl

/-- The sizes that are checked are those of the document and of single matrices. -/
theorem mem_sizes {m : Text × Dimensions} (h : m ∈ doc.sizes) :
    m.2 = doc.dimensions ∨ m ∈ doc.matrixDimensions := by
  rw [sizes] at h
  rcases Association.mem_of_mem_foldl_put h with h | h
  · exact .inl (congrArg Prod.snd (List.mem_singleton.1 h))
  · exact .inr h

/-- **What describes a workspace in good order** passes the checks of an import. -/
theorem Describes.isSound (h : doc.Describes w) (hw : w.IsTended) : doc.IsSound w.sizeLimit where
  formula := by
    obtain ⟨text, hformula, hread⟩ := hw.formula
    obtain ⟨output, -, hobstacle, -⟩ := hw.output
    cases hformula.symm.trans h.formula
    exact ⟨w.plan, hread, (Plan.obstacle?_eq_none_iff.1 hobstacle).1⟩
  iterations := by
    obtain ⟨n, hn, -, hle⟩ := hw.iterations
    have heq : (n : Int) = doc.iterations := by simpa using hn.symm.trans h.iterations
    rwa [← heq]
  sizes := by
    intro m hm
    rcases mem_sizes hm with hm | hm
    · obtain ⟨shape, hcheck⟩ := hw.size
      rw [hm]
      exact Dimensions.isWithin_of_check h.rows h.cols hcheck
    · have hs : (m.1, m.2.shape) ∈ w.shapes := by
        rw [h.shapes]
        exact List.mem_map_of_mem hm
      have hcheck := hw.sizes (m.1, m.2.shape) hs
      exact Dimensions.isWithin_of_check rfl rfl hcheck
  inside := by
    intro m hm e he
    rw [h.matrices] at hm
    obtain ⟨name, hname, rfl⟩ := List.mem_map.1 hm
    have hname : name ∈ w.shapes.names := mem_sortedNames.1 hname
    obtain ⟨shape, hs⟩ := Association.exists_of_mem_names hname
    obtain ⟨b, hb, hbshape⟩ := Option.map_eq_some_iff.1 (hw.shapesAgree name shape hs)
    have hd := (h.shape_dimensionsOf hs).trans hbshape.symm
    rw [Workspace.entries_eq hw.isReachable.isWellFormed.toIsMinted, Graph.listed_eq hb] at he
    obtain ⟨p, hp, rfl⟩ := List.mem_map.1 he
    obtain ⟨⟨hi, hj⟩, -⟩ := Graph.mem_listedPositions.1 hp
    obtain ⟨hrows, hcols⟩ := Prod.mk.inj hd
    exact Bool.and_eq_true_iff.2 ⟨decide_eq_true (hrows ▸ hi), decide_eq_true (hcols ▸ hj)⟩

/-- **What describes a workspace in good order** is loaded as it is written. -/
theorem Describes.load_eq (h : doc.Describes w) (hw : w.IsTended) :
    load (.datum doc.toDatum) w.sizeLimit = .ok doc :=
  load_eq_ok_iff.2 ⟨⟨doc.toDatum, rfl, read_toDatum doc⟩, h.isSound hw⟩

end Document

namespace Workspace.IsTended

/-- Shapes that pass the check are sizes of a document. -/
theorem exists_dimensions {limit : Datum} {shapes : Shapes} (h : ∀ s ∈ shapes,
    Size.check (.int (s.2.1 : Nat)) (.int (s.2.2 : Nat)) limit = .ok s.2) :
    ∃ ds : Association Document.Dimensions, shapes = ds.map fun m => (m.1, m.2.shape) := by
  induction shapes with
  | nil => exact ⟨[], rfl⟩
  | cons s shapes ih =>
    obtain ⟨hs, hshapes⟩ := List.forall_mem_cons.1 h
    obtain ⟨ds, rfl⟩ := ih hshapes
    obtain ⟨⟨hrows, -⟩, ⟨hcols, -⟩⟩ := Size.check_eq_ok hs
    exact ⟨(s.1, ⟨s.2.1, s.2.2, hrows, hcols⟩) :: ds, rfl⟩

/-- A workspace in good order can be described. -/
theorem exists_describes (h : w.IsTended) : ∃ doc : Document, doc.Describes w := by
  obtain ⟨text, hformula, -⟩ := h.formula
  obtain ⟨symmetric, hsymmetric⟩ := h.symmetric
  obtain ⟨mirror, hmirror⟩ := h.mirror
  obtain ⟨n, hiterations, hpos, -⟩ := h.iterations
  obtain ⟨shape, hsize⟩ := h.size
  obtain ⟨⟨hrows, -, hrows'⟩, ⟨hcols, -, hcols'⟩⟩ := Size.check_eq_ok hsize
  obtain ⟨ds, hds⟩ := exists_dimensions h.sizes
  exact ⟨{
    timestamp := none
    dimensions := ⟨shape.1, shape.2, hrows, hcols⟩
    configuration := ⟨symmetric, mirror⟩
    matrices := w.baseMatrices.map fun name => (name, w.entries name)
    formula := text
    iterations := n
    iterations_pos := hpos
    matrixDimensions := ds
  }, hformula, hrows', hcols', hsymmetric, hmirror, hiterations, hds, rfl⟩

end Workspace.IsTended

/-! ### Reading -/

namespace Workspace

variable {output : Text} {whole : Prop}

/-- Entering painted cells only paints. -/
theorem paints_paintListed (g₀ : Graph) (names : List Text) (w : Workspace) :
    Paints w { w with graph := g₀.paintListed w.graph names } := by
  induction names generalizing w with
  | nil => exact .refl
  | cons name names ih =>
    have hfirst : Paints w { w with graph := w.graph.paintEntries name (g₀.listed name) } := by
      rw [← foldl_update_eq]
      exact Graph.steps_foldl fun e _ w₁ _ => .single (.update w₁ ..)
    exact hfirst.trans (ih _)

/-- A new workspace for a document within the limits. -/
theorem make_settingsFor {limit : Datum} (output : Text) (hsizes : doc.dimensions.IsWithin limit)
    (hiterations : doc.iterations ≤ Size.defaultLimit) :
    make (settingsFor doc (.text output) limit) =
      .ok (blank (settingsFor doc (.text output) limit)) := by
  have hcount : Config.checkIterations (.int Size.defaultLimit) (.int doc.iterations) =
      .ok (some doc.iterations) :=
    Config.checkIterations_int ⟨by exact_mod_cast doc.iterations_pos, hiterations⟩
  exact make_eq_blank rfl rfl hsizes.check_eq_ok hcount

/-- Declaring what a document lists leaves a fresh workspace with the listed shapes. -/
theorem exists_listed (output : Datum) {limit : Datum}
    (hnodup : (Association.names doc.matrixDimensions).Nodup)
    (hcheck : ∀ m ∈ doc.matrixDimensions,
      Size.check (.int (m.2.rows : Nat)) (.int (m.2.cols : Nat)) limit = .ok m.2.shape) :
    ∃ v : Workspace, (doc.matrixDimensions.forM fun m => declareSized m.1 m.2)
        (blank (settingsFor doc output limit)) = .ok () v ∧ v.IsFresh ∧
      v = { blank (settingsFor doc output limit) with
        shapes := doc.matrixDimensions.map fun m => (m.1, m.2.shape)
        graph := v.graph } := by
  obtain ⟨g, hrun, hfresh⟩ := (isFresh_blank (settingsFor doc output limit)).forM_declare
    doc.matrixDimensions Prod.fst (fun m => (some (.int m.2.rows), some (.int m.2.cols)))
    (fun m => m.2.shape) hnodup hcheck
  exact ⟨_, hrun, hfresh, rfl⟩

/-- A new workspace for a document that describes one in good order. -/
theorem IsTended.make_settingsFor (hw : w.IsTended) (h : doc.Describes w) :
    make (settingsFor doc w.output w.sizeLimit) =
      .ok (blank (settingsFor doc w.output w.sizeLimit)) := by
  obtain ⟨output, houtput, -⟩ := hw.output
  obtain ⟨shape, hcheck⟩ := hw.size
  rw [houtput]
  exact Workspace.make_settingsFor output
    (Document.Dimensions.isWithin_of_check h.rows h.cols hcheck) (h.isSound hw).iterations

/-- Declaring what such a document lists leaves a fresh workspace with the declared shapes. -/
theorem IsTended.exists_declared (hw : w.IsTended) (h : doc.Describes w) :
    ∃ v : Workspace, (doc.matrixDimensions.forM fun m => declareSized m.1 m.2)
        (blank (settingsFor doc w.output w.sizeLimit)) = .ok () v ∧ v.IsFresh ∧
      v = { blank (settingsFor doc w.output w.sizeLimit) with
        shapes := w.shapes
        graph := v.graph } := by
  have hnodup : (Association.names doc.matrixDimensions).Nodup := by
    have hnodup := hw.nodup
    rw [h.shapes, Association.names, List.map_map] at hnodup
    exact hnodup
  have hcheck : ∀ m ∈ doc.matrixDimensions,
      Size.check (.int (m.2.rows : Nat)) (.int (m.2.cols : Nat)) w.sizeLimit = .ok m.2.shape := by
    intro m hm
    have hs : (m.1, m.2.shape) ∈ w.shapes := by
      rw [h.shapes]
      exact List.mem_map_of_mem hm
    exact hw.sizes (m.1, m.2.shape) hs
  rw [h.shapes]
  exact exists_listed w.output hnodup hcheck

/-- Declared matrices of a fresh workspace are ready to be painted like those of another one with
the same declared shapes. -/
theorem IsFresh.isReadyFor {v : Workspace} (hv : v.IsFresh) (hw : w.ShapesAgree)
    (hshapes : v.shapes = w.shapes) {name : Text} (hname : name ∈ w.shapes.names) :
    w.graph.IsReadyFor v.graph name := by
  obtain ⟨shape, hs⟩ := Association.exists_of_mem_names hname
  obtain ⟨b₀, hb₀, hshape₀⟩ := Option.map_eq_some_iff.1 (hw name shape hs)
  obtain ⟨b, hb, hshape⟩ := Option.map_eq_some_iff.1 (hv.shapesAgree name shape (hshapes ▸ hs))
  exact ⟨⟨b, b₀, hb, hb₀, hshape.trans hshape₀.symm⟩, hv.isUnpainted name⟩

/-- Painting what a workspace lists gives its input matrices. -/
theorem IsTended.resemblesOn_paintListed (hw : w.IsTended) {v : Workspace} (hv : v.IsFresh)
    (hshapes : v.shapes = w.shapes) (hwhole : whole → w.IsWhole) {config : Config}
    (hconfig : config.shapes = w.shapes) {name : Text} (hname : name ∈ w.shapes.names) :
    w.graph.ResemblesOn whole (w.graph.paintListed v.graph w.baseMatrices) config name := by
  obtain ⟨shape, hs⟩ := Association.exists_of_mem_names hname
  obtain ⟨b, hb, rfl⟩ := Option.map_eq_some_iff.1 (hw.shapesAgree name shape hs)
  have hinput (g : Graph) : g.inputShape config name = b.shape := by
    rw [Graph.inputShape, hconfig, hs, Option.getD_some]
  refine ⟨(hinput _).trans (hinput _).symm, fun i j hi hj => ?_⟩
  rw [hinput] at hi hj
  refine Graph.resembles_paintListed hwhole hv.isWellFormed (fun other hother => ?_)
    (Graph.nodup_sortedNames _) (mem_sortedNames.2 hname) hb hi hj
  exact hv.isReadyFor hw.shapesAgree hshapes (mem_sortedNames.1 hother)

/-- **What entering a document leaves** before the formula is evaluated, if the document describes a
workspace in good order: all of that but its last outcome and its graph, in which the input matrices
are painted as there but for zeros. -/
theorem IsTended.exists_entered (hw : w.IsTended) (h : doc.Describes w)
    (hwhole : whole → w.IsWhole) :
    ∃ g, ofDocument doc w.output w.sizeLimit =
        after (do let _ ← Workspace.recompute) { w with last? := none, graph := g } ∧
      g.IsWellFormed ∧ g.stem = w.graph.stem ∧
      ∀ config : Config, config.shapes = w.shapes → ∀ name ∈ w.shapes.names,
        w.graph.ResemblesOn whole g config name := by
  obtain ⟨text, hformula, hread⟩ := hw.formula
  obtain ⟨output, houtput, hobstacle, -⟩ := hw.output
  cases hformula.symm.trans h.formula
  obtain ⟨v, hdeclare, hfresh, hv⟩ := hw.exists_declared h
  have hshapes : v.shapes = w.shapes := (congrArg Workspace.shapes hv).trans rfl
  let g := w.graph.paintListed v.graph w.baseMatrices
  have hpaints : Paints v { v with graph := g } := paints_paintListed w.graph w.baseMatrices v
  have hadd : (doc.matrices.forM fun m => addMatrix doc m.1 m.2) v =
      .ok () { v with graph := g } := by
    simp only [h.matrices, entries_eq hw.isReachable.isWellFormed.toIsMinted]
    exact forM_addMatrix doc w.graph fun name hname => hshapes ▸ mem_sortedNames.1 hname
  have hsettings : { v with formula := .text doc.formula, plan := w.plan, graph := g } =
      { w with last? := none, graph := g } := by
    generalize v.graph = g₁ at hv
    rw [hv]
    simp only [blank, settingsFor, ← h.formula, ← h.rows, ← h.cols, ← h.symmetric, ← h.mirror,
      ← h.iterations]
  have hset : setFormula (.text doc.formula) { v with graph := g } =
      .ok () { w with last? := none, graph := g } := by
    have hout : v.output = .text output := ((congrArg Workspace.output hv).trans rfl).trans houtput
    rw [setFormula_of_text (w := { v with graph := g }) hread hout hobstacle, ← hsettings]
    refine declareBases_of_mem_names fun name => ?_
    rw [← hw.mem_names, ← hshapes]
  have henter : enter doc (blank (settingsFor doc w.output w.sizeLimit)) =
      (do let _ ← Workspace.recompute : Run Unit) { w with last? := none, graph := g } :=
    (bind_eq_of_ok hdeclare).trans ((bind_eq_of_ok hadd).trans (bind_eq_of_ok hset))
  refine ⟨g, ?_, ?_, ?_, ?_⟩
  · rw [ofDocument, hw.make_settingsFor h]
    change after (enter doc) (blank (settingsFor doc w.output w.sizeLimit)) = _
    rw [after, henter, after]
  · exact hpaints.edits.isWellFormed hfresh.isWellFormed
  · exact hpaints.sameTables.stem.trans (hfresh.stem_eq.trans hw.isReachable.stem_eq.symm)
  · exact fun config hconfig name hname =>
      hw.resemblesOn_paintListed hfresh hshapes hwhole hconfig hname

/-! ### Both ways -/

/-- An outcome is shown with the matrices that were computed. -/
theorem computed_shown (output : Datum) (o : Outcome) : (shown output o).computed = o.computed := by
  unfold shown
  split
  · rfl
  · split <;> rfl

theorem after_eq_ok {α : Type} {run : Run α} {a : α} {w' : Workspace} (h : run w = .ok a w') :
    after (do let _ ← run) w = .ok w' := by
  rw [after, bind_eq_of_ok h]
  rfl

theorem after_eq_error {α : Type} {run : Run α} {e : Fault} {w' : Workspace}
    (h : run w = .error e w') : after (do let _ ← run) w = .error e := by
  rw [after, bind_eq_of_error h]

/-- What a document that describes a workspace in good order is made into, next to what evaluating
the formula of the workspace leaves. -/
theorem IsTended.ofDocument_resembles (hw : w.IsTended) (h : doc.Describes w)
    (hwhole : whole → w.IsWhole) :
    (∃ e left, Workspace.recompute w = .error (.graph e) left ∧
      ofDocument doc w.output w.sizeLimit = .error (.graph e) ∧ e.MayStop whole) ∨
    ∃ o left v, Workspace.recompute w = .ok o left ∧ ofDocument doc w.output w.sizeLimit = .ok v ∧
      v = { w with last? := v.last?, graph := v.graph } ∧
      (o.computed ≠ [] → v.last? = some o ∧ left.graph.Resembles whole v.graph) := by
  obtain ⟨g, hdoc, hg, hstem, hpaint⟩ := hw.exists_entered h hwhole
  obtain ⟨config, names, hconfig, hfits, hnames⟩ := hw.exists_fits
  -- the settings of an evaluation do not depend on the graph
  have hconfig' : { w with last? := none, graph := g }.config = .ok config := hconfig
  have hinput : ∀ name ∈ names, w.graph.ResemblesOn whole g config name := fun name hname =>
    hpaint config (of_config hconfig).1 name ((hnames name).1 hname)
  rw [hdoc]
  rcases hfits.recompute_resembles hw.isReachable.isWellFormed hg hstem hinput with
    ⟨e, g₁, g₁', hrun, hrun', he⟩ | ⟨o, o', g₁, g₁', hrun, hrun', -, -, hsame⟩
  · exact .inl ⟨e, _, recompute_eq_of_error hconfig hrun,
      after_eq_error (recompute_eq_of_error hconfig' hrun'), he⟩
  · have hleft := recompute_eq_of_ok hconfig hrun
    have hright := after_eq_ok (recompute_eq_of_ok hconfig' hrun')
    refine .inr ⟨_, _, { w with graph := g₁', last? := some (shown w.output o') }, hleft, hright,
      rfl, fun hne => ?_⟩
    rw [computed_shown] at hne
    obtain ⟨rfl, hresembles⟩ := hsame hne
    exact ⟨rfl, hresembles⟩

/-- The formula of a document that may be evaluated does not use the output. -/
theorem conflict?_eq_none {plan : Plan} (hread : Plan.read doc.formula = .ok plan)
    (hobstacle : plan.obstacle? output = none) : conflict? doc (.text output) = .ok none := by
  have hplan : readFormula (.text doc.formula) = .ok plan := congrArg (Except.mapError _) hread
  rw [conflict?, hplan]
  change (Except.ok (if plan.uses output then _ else none) : Except Fault _) = _
  rw [(Plan.obstacle?_eq_none_iff.1 hobstacle).2]
  rfl

/-- An import of a document that does not use the output makes the workspace that it describes. -/
theorem importDocument_of_load {source : Document.Source}
    (hload : Document.load source w.sizeLimit = .ok doc)
    (hconflict : conflict? doc w.output = .ok none) :
    w.importDocument source = (ofDocument doc w.output w.sizeLimit).map Except.ok := by
  rw [importDocument, hload]
  simp only [hconflict]
  cases ofDocument doc w.output w.sizeLimit <;> rfl

/-- An import of what describes a workspace in good order makes the workspace that it describes. -/
theorem IsTended.importDocument_eq (hw : w.IsTended) (h : doc.Describes w) {v : Workspace}
    (houtput : v.output = w.output) (hlimit : v.sizeLimit = w.sizeLimit) :
    v.importDocument (.datum doc.toDatum) =
      (ofDocument doc w.output w.sizeLimit).map Except.ok := by
  obtain ⟨text, hformula, hread⟩ := hw.formula
  obtain ⟨output, hout, hobstacle, -⟩ := hw.output
  cases hformula.symm.trans h.formula
  rw [importDocument_congr houtput hlimit]
  exact importDocument_of_load (h.load_eq hw) (hout ▸ conflict?_eq_none hread hobstacle)

theorem sizeLimit_of_make {s : Settings} {new : Workspace} (h : make s = .ok new) :
    new.sizeLimit = s.sizeLimit := by
  obtain ⟨plan, hsame⟩ := exists_of_make h
  exact (congrArg Workspace.sizeLimit hsame).trans rfl

/-- **Export then import.** A workspace is made with a formula that may be evaluated, with settings
of the kinds that documents hold, with no at sign in the name of a matrix that is read, and with an
output that is not read. After any run of operations that tend it, it can be written as a document,
and importing this into any workspace with the same output matrix and size limit succeeds unless
evaluating the formula stops, on an index with too many digits or, if not only whole numbers were
painted, on a number that is too large. The import leaves the same formula, settings and shapes.
And if evaluating the formula computes a matrix, it leaves the same outcome and the same matrices
with the same ids, where every cell has the same lineage, the same value if that is not zero or if
only whole numbers were painted, and the same colour and identity mark if it is not zero. -/
theorem importDocument_document {s : Settings} {new : Workspace} {ops : List Operation}
    {text output : Text} {symmetric mirror : Bool} {n : Int} (hmake : make s = .ok new)
    (hformula : s.formula = .text text) (houtput : s.output = .text output)
    (hsymmetric : s.symmetric = .bool symmetric) (hmirror : s.mirror = .bool mirror)
    (hiterations : s.iterations = .int n) (hobstacle : new.plan.obstacle? output = none)
    (hnotMem : output ∉ new.plan.baseMatrices)
    (horiginal : ∀ name ∈ new.plan.baseMatrices, .char '@' ∉ name.symbols)
    (hops : ∀ op ∈ ops, op.IsTending new.plan.baseMatrices) (timestamp : Text) :
    let w := runAll new ops
    let whole := ∀ op ∈ ops, op.IsWhole
    ∃ doc, w.document timestamp = .ok doc ∧
      ((∃ e left, Workspace.recompute w = .error (.graph e) left ∧ e.MayStop whole ∧
          ∀ v : Workspace, v.output = s.output → v.sizeLimit = s.sizeLimit →
            v.importDocument (.datum doc.toDatum) = .error (.graph e)) ∨
        ∃ o left v', Workspace.recompute w = .ok o left ∧
          (∀ v : Workspace, v.output = s.output → v.sizeLimit = s.sizeLimit →
            v.importDocument (.datum doc.toDatum) = .ok (.ok v')) ∧
          v' = { w with last? := v'.last?, graph := v'.graph } ∧
          (o.computed ≠ [] → v'.last? = some o ∧ left.graph.Resembles whole v'.graph)) := by
  intro w whole
  have hnew := isTended_of_make hmake hformula houtput hsymmetric hmirror hiterations hobstacle
    hnotMem horiginal
  obtain ⟨hw, hsettings⟩ : w.IsTended ∧ SameFormula new w := hnew.runAll hops
  have hlimit : w.sizeLimit = s.sizeLimit := hsettings.sizeLimit.trans (sizeLimit_of_make hmake)
  have houtput : w.output = s.output := hsettings.output.trans (output_of_make hmake)
  have hwhole : whole → w.IsWhole := fun h => hnew.isWhole_runAll hops h (IsWhole.of_make hmake)
  obtain ⟨doc, hdoc⟩ := hw.exists_describes
  have hdoc := hdoc.at_timestamp (some timestamp)
  have himport (v : Workspace) (hv : v.output = s.output) (hv' : v.sizeLimit = s.sizeLimit) :=
    hw.importDocument_eq hdoc (hv.trans houtput.symm) (hv'.trans hlimit.symm)
  refine ⟨_, hdoc.document_eq timestamp, ?_⟩
  rcases hw.ofDocument_resembles hdoc hwhole with
    ⟨e, left, hrun, hmade, he⟩ | ⟨o, left, v', hrun, hmade, hv', hsame⟩
  · refine .inl ⟨e, left, hrun, he, fun v hv hlimit => ?_⟩
    rw [himport v hv hlimit, hmade]
    rfl
  · refine .inr ⟨o, left, v', hrun, fun v hv hlimit => ?_, hv', hsame⟩
    rw [himport v hv hlimit, hmade]
    rfl

/-- Both factors are resized and painted, and the product is computed. -/
def productOperations : List Operation :=
  [.resize "A" (.int 2) (.int 1), .resize "B" (.int 1) (.int 2),
    .paint "A" 1 0 (.int 2) (some "red") none, .setMirror (.bool true), .recompute,
    .toggle "A" 0 0 none]

/-- In the sample the import of what is exported leaves the same product, cell by cell. -/
theorem importDocument_document_sample : ∃ new doc o left v, make sampleSettings = .ok new ∧
    (runAll new productOperations).document "today" = .ok doc ∧
    (blank sampleSettings).importDocument (.datum doc.toDatum) = .ok (.ok v) ∧
    v.shapes = ([("A", 2, 1), ("B", 1, 2)] : Shapes) ∧
    Workspace.recompute (runAll new productOperations) = .ok o left ∧
    o.computed = (["O"] : List Text) ∧ left.graph.Resembles True v.graph := by
  let new := Workspace.left (setFormula sampleSettings.formula) (blank sampleSettings)
  have hnotMem : defaultOutput ∉ new.plan.baseMatrices := by decide +kernel
  have horiginal : ∀ name ∈ new.plan.baseMatrices, .char '@' ∉ name.symbols := by decide +kernel
  have hops : ∀ op ∈ productOperations, op.IsTending new.plan.baseMatrices := by
    simp only [productOperations, List.forall_mem_cons, Operation.IsTending]
    exact ⟨by decide +kernel, by decide +kernel, trivial, ⟨true, rfl⟩, trivial, trivial, nofun⟩
  have hwhole : ∀ op ∈ productOperations, op.IsWhole := by
    simp only [productOperations, List.forall_mem_cons, Operation.IsWhole]
    exact ⟨trivial, trivial, ⟨2, rfl⟩, trivial, trivial, trivial, nofun⟩
  have hcomputed : (match Workspace.recompute (runAll new productOperations) with
      | .ok o _ => some o.computed
      | .error _ _ => none) = some (["O"] : List Text) := by decide +kernel
  have hshapes : (runAll new productOperations).shapes = ([("A", 2, 1), ("B", 1, 2)] : Shapes) := by
    decide +kernel
  obtain ⟨doc, hdoc, ⟨e, left, hrun, -⟩ | ⟨o, left, v, hrun, himport, hv, hsame⟩⟩ :=
    importDocument_document make_sampleSettings rfl rfl rfl rfl rfl (by decide +kernel) hnotMem
      horiginal hops "today"
  · rw [hrun] at hcomputed
    cases hcomputed
  · rw [hrun] at hcomputed
    have hcomputed : o.computed = (["O"] : List Text) := Option.some.inj hcomputed
    have hne : o.computed ≠ [] := by
      rw [hcomputed]
      exact List.cons_ne_nil _ _
    refine ⟨new, doc, o, left, v, make_sampleSettings, hdoc, himport _ rfl rfl, ?_, hrun,
      hcomputed, ?_⟩
    · rw [hv]
      exact hshapes
    · have hresembles := (hsame hne).2
      rwa [eq_true hwhole] at hresembles

/-! ### An output that is read -/

/-- A relative reference to the output, which a formula without statements reads as a matrix. -/
def relativeSettings : Settings where
  formula := .text "A_n*B"
  rows := .int 2
  cols := .int 2
  output := .text "A"

/-- The second factor is made wider, both are painted, and the product is computed. -/
def relativeOperations : List Operation :=
  [.resize "B" (.int 2) (.int 3), .paint "A" 0 0 (.int 1) none none,
    .paint "B" 0 2 (.int 1) none none, .recompute]

/-- **An output that is read** stands in the way of an import, although no obstacle is reported: the
product takes the place of the factor and is wider than that was declared, so a cell outside of the
declared shape is listed. -/
theorem importDocument_refused : ∃ new fresh doc why, make relativeSettings = .ok new ∧
    new.plan.obstacle? "A" = none ∧ (∀ name ∈ new.plan.baseMatrices, .char '@' ∉ name.symbols) ∧
    (∀ op ∈ relativeOperations, op.IsTending new.plan.baseMatrices ∧ op.IsWhole) ∧
    (runAll new relativeOperations).document "today" = .ok doc ∧
    make { output := .text "A" } = .ok fresh ∧
    fresh.importDocument (.datum doc.toDatum) = .ok (.error why) ∧
    why.message = ("Cell (0, 2) is outside A (2x2)" : Text) := by
  let new := Workspace.left (setFormula relativeSettings.formula) (blank relativeSettings)
  let fresh := blank { output := .text "A" }
  have hmake : make relativeSettings = .ok new := make_of_isSome (by decide +kernel)
  have hops : ∀ op ∈ relativeOperations, op.IsTending new.plan.baseMatrices ∧ op.IsWhole := by
    simp only [relativeOperations, List.forall_mem_cons, Operation.IsTending, Operation.IsWhole]
    exact ⟨⟨by decide +kernel, trivial⟩, ⟨trivial, 1, rfl⟩, ⟨trivial, 1, rfl⟩, ⟨trivial, trivial⟩,
      nofun⟩
  have hrefused : (((runAll new relativeOperations).document "today").toOption.map fun doc =>
      match fresh.importDocument (.datum doc.toDatum) with
      | .ok (.error why) => some why.message
      | _ => none) = some (some ("Cell (0, 2) is outside A (2x2)" : Text)) := by decide +kernel
  obtain ⟨doc, hdoc, himport⟩ := Document.exists_of_toOption_map hrefused
  split at himport
  · next why hwhy =>
    exact ⟨new, fresh, doc, why, hmake, by decide +kernel, by decide +kernel, hops, hdoc,
      make_eq_blank rfl rfl rfl rfl, hwhy, Option.some.inj himport⟩
  · cases himport

end Workspace

end CellLineage
