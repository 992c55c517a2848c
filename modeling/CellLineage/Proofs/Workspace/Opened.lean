import CellLineage.Proofs.Workspace.Look
import CellLineage.Proofs.Workspace.Plan
import CellLineage.Proofs.Workspace.RoundTrip

/-!
# What an import shows

An import stages a workspace of its own: it declares the matrices that have shapes of their own in
the document, enters the painted cells of all matrices, takes the formula and evaluates it. The
shape of a matrix is asked for at three places, and it is the same at all of them. So the first two
steps leave matrices in the sizes of the document that look as it says, whatever the formula reads.
Taking the formula drops the declarations of those that it does not read and declares what is
missing, and evaluating it keeps the looks of what it reads unless it writes its product there.

## Main definitions

* `Document.lookAt`: the look that a document gives to a cell.
* `Workspace.IsStaged`: matrices have the sizes of the document.
* `Workspace.Shows`: the formula and the matrices that it reads are those of the document.

## Main results

* `Workspace.exists_isStaged`: what the first two steps leave.
* `Workspace.IsStaged.setFormula`, `Workspace.Shows.recompute`: what the other two make of it.
* `Workspace.exists_shows`: all steps but the last one.
* `Workspace.importDocument_shows`: an import shows its document.
* `Workspace.importDocument_overwritten`: it does not if the formula reads the output.
-/

namespace CellLineage

open Formula

namespace Document

variable {doc : Document} {limit : Datum} {source : Source}

/-- The look that a document gives to a cell: that of the last entry for it, if there is one. -/
def lookAt (doc : Document) (name : Text) (i j : Nat) : Look :=
  (((doc.matrices.lookup name).bind fun entries => lastAt? entries i j).map Entry.look).getD
    .blank

/-- The names of the matrices that a loaded document lists are distinct, whatever its version. -/
theorem nodup_names_matrices_of_load (hsource : source.NamesDistinct)
    (h : load source limit = .ok doc) : (Association.names doc.matrices).Nodup := by
  obtain ⟨⟨d, hd, hread⟩, -⟩ := load_eq_ok_iff.1 h
  obtain ⟨fields, version, named, rfl, -, -, hversion⟩ := exists_of_read hread
  have hfields := Source.namesDistinct_of_read hsource hd
  cases version with
  | first =>
    obtain ⟨contents, -, rfl⟩ := Checked.map_eq_valid_iff.1 hversion
    simp [ofFirst, Association.names, leftName, kernelName, rightName]
    decide
  | second =>
    obtain ⟨_, formula, hmk, -, rfl⟩ := Checked.seq_eq_valid_iff.1 hversion
    obtain ⟨contents, hcontents, rfl⟩ := Checked.map_eq_valid_iff.1 hmk
    exact nodup_names_matrices hcontents hfields
  | third =>
    obtain ⟨_, shapes, h₃, -, rfl⟩ := Checked.seq_eq_valid_iff.1 hversion
    obtain ⟨_, _, h₂, -, rfl⟩ := Checked.seq_eq_valid_iff.1 h₃
    obtain ⟨_, _, h₁, -, rfl⟩ := Checked.seq_eq_valid_iff.1 h₂
    obtain ⟨contents, hcontents, rfl⟩ := Checked.map_eq_valid_iff.1 h₁
    exact nodup_names_matrices hcontents hfields

/-- The sizes of a matrix are within the limit if those of the document itself are. -/
theorem isWithin_dimensionsOf (hsource : source.NamesDistinct) (h : load source limit = .ok doc)
    (hsizes : doc.dimensions.IsWithin limit) (name : Text) :
    (doc.dimensionsOf name).IsWithin limit := by
  have hnodup := nodup_names_of_load hsource h
  rw [dimensionsOf]
  cases hname : doc.matrixDimensions.lookup name with
  | none => exact hsizes
  | some d => exact (load_eq_ok_iff.1 h).2.single hnodup hname

end Document

namespace Workspace

variable {w w' w₁ : Workspace} {name : Text} {shape : Nat × Nat} {doc : Document}

/-! ### Declaring without a stop -/

/-- **Declaring a matrix** in sizes that are allowed does not stop, and a matrix that is declared
already stays as it is. -/
theorem exists_declare (name : Text) (rows? cols? : Option Datum)
    (hcheck : Size.check (rows?.getD w.rows) (cols?.getD w.cols) w.sizeLimit = .ok shape) :
    ∃ w', declare name rows? cols? w = .ok () w' ∧ ∀ other,
      w'.shapes.lookup other =
        (w.shapes.lookup other).or (if other = name then some shape else none) := by
  by_cases hname : name ∈ w.shapes.names
  · refine ⟨w, declare_of_mem hname rows? cols?, fun other => ?_⟩
    obtain ⟨s, hs⟩ := Association.exists_of_mem_names hname
    by_cases he : other = name
    · rw [he, hs, Option.some_or]
    · rw [if_neg he, Option.or_none]
  obtain ⟨⟨hrows, -⟩, ⟨hcols, -⟩⟩ := Size.check_eq_ok hcheck
  have hlookup : w.shapes.lookup name = none :=
    (Association.lookup_eq_none_iff w.shapes name).2 hname
  have hshapes (other : Text) : (w.shapes.put name shape).lookup other =
      (w.shapes.lookup other).or (if other = name then some shape else none) := by
    rw [Association.lookup_put]
    by_cases he : other = name
    · simp [he, hlookup]
    · simp [he]
  rw [declare_eq_of_notMem hname hcheck]
  split
  · exact ⟨_, liftGraph_of_ok (w := { w with shapes := w.shapes.put name shape })
      (fun g => g.initMatrix name shape.1 shape.2) (Graph.initMatrix_eq_ok hrows hcols), hshapes⟩
  · exact ⟨_, rfl, hshapes⟩

/-- Declaring matrices in the sizes of the workspace, one after another. -/
theorem exists_forM_declare (hcheck : Size.check w.rows w.cols w.sizeLimit = .ok shape)
    (names : List Text) : ∃ w', names.forM (fun name => declare name none none) w = .ok () w' ∧
      ∀ other, w'.shapes.lookup other =
        (w.shapes.lookup other).or (if other ∈ names then some shape else none) := by
  induction names generalizing w with
  | nil => exact ⟨w, rfl, fun other => by simp⟩
  | cons name names ih =>
    obtain ⟨w₁, hrun, hlookup⟩ := exists_declare name none none hcheck
    have hsame := sameSettings_declare name none none w
    rw [left_of_ok hrun] at hsame
    have hcheck₁ : Size.check w₁.rows w₁.cols w₁.sizeLimit = .ok shape := by
      rw [hsame]
      exact hcheck
    obtain ⟨w', hrest, hlookup'⟩ := ih hcheck₁
    refine ⟨w', (bind_eq_of_ok hrun).trans hrest, fun other => ?_⟩
    rw [hlookup', hlookup, Option.or_assoc]
    congr 1
    by_cases he : other = name
    · simp [he]
    · simp [he]

/-- No name is declared twice. -/
theorem nodup_names_declare (h : w.shapes.names.Nodup) (name : Text) (rows? cols? : Option Datum) :
    (left (Workspace.declare name rows? cols?) w).shapes.names.Nodup := by
  rcases declare_cases name rows? cols? w with hrun | ⟨shape, -, -, hrun⟩
  · rwa [hrun]
  · rw [hrun]
    split
    · rw [initMatrix, left_liftGraph]
      exact Association.nodup_names_put h name shape
    · exact Association.nodup_names_put h name shape

/-! ### Bringing the matrices of a document into a new workspace -/

/-- The workspace holds matrices in the sizes of the document, among them all that have sizes of
their own there, and no others. -/
structure IsStaged (doc : Document) (w : Workspace) : Prop where
  isWellFormed : w.graph.IsWellFormed
  onlyDeclared : w.OnlyDeclared
  shapesAgree : w.ShapesAgree
  isWhole : w.IsWhole
  nodup : w.shapes.names.Nodup
  declared : ∀ name ∈ Association.names doc.matrixDimensions, name ∈ w.shapes.names
  lookup : ∀ name shape, w.shapes.lookup name = some shape → shape = (doc.dimensionsOf name).shape

namespace IsStaged

/-- Declaring one more matrix in the size that the document gives it. -/
theorem declare (h : IsStaged doc w) (hcheck : Size.check (.int (doc.dimensionsOf name).rows)
      (.int (doc.dimensionsOf name).cols) w.sizeLimit = .ok (doc.dimensionsOf name).shape) :
    ∃ w', declareSized name (doc.dimensionsOf name) w = .ok () w' ∧ IsStaged doc w' ∧
      SameSettings w w' ∧ SameLook w w' ∧
      w'.graph.shape? name = some (doc.dimensionsOf name).shape := by
  let rows? : Option Datum := some (.int (doc.dimensionsOf name).rows)
  let cols? : Option Datum := some (.int (doc.dimensionsOf name).cols)
  obtain ⟨w', hrun, hlookup⟩ := exists_declare name rows? cols? hcheck
  have hleft : left (Workspace.declare name rows? cols?) w = w' := left_of_ok hrun
  obtain ⟨honly, hagree⟩ := h.onlyDeclared.declare h.shapesAgree name rows? cols?
  have hg := (editsGraph_declare name rows? cols? w).isWellFormed h.isWellFormed
  have hwhole := h.isWhole.declare name rows? cols?
  have hnodup := nodup_names_declare h.nodup name rows? cols?
  have hsame := sameSettings_declare name rows? cols? w
  have hlook := sameLook_declare h.isWellFormed name rows? cols?
  rw [hleft] at honly hagree hg hwhole hnodup hsame hlook
  have hlookup' : ∀ other shape, w'.shapes.lookup other = some shape →
      shape = (doc.dimensionsOf other).shape := by
    intro other shape hs
    rw [hlookup, Option.or_eq_some_iff] at hs
    rcases hs with hs | ⟨-, hs⟩
    · exact h.lookup other shape hs
    · split at hs
      · next he => rw [he, ← Option.some.inj hs]
      · cases hs
  have hname : ∃ s, w'.shapes.lookup name = some s := by
    rw [hlookup, if_pos rfl]
    cases w.shapes.lookup name <;> exact ⟨_, rfl⟩
  obtain ⟨s, hs⟩ := hname
  refine ⟨w', hrun, ⟨hg, honly, hagree, hwhole, hnodup, fun other hother => ?_, hlookup'⟩, hsame,
    hlook, ?_⟩
  · obtain ⟨t, ht⟩ := Association.exists_of_mem_names (h.declared other hother)
    rw [← Association.lookup_isSome_iff, hlookup, ht]
    rfl
  · rw [hagree name s hs, hlookup' name s hs]

/-- Painting entries of a document changes the graph only. -/
theorem paintEntries (h : IsStaged doc w) (name : Text) {entries : List Document.Entry}
    (hentries : ∀ e ∈ entries, e.value.IsWhole) :
    IsStaged doc { w with graph := w.graph.paintEntries name entries } := by
  have hpaints : Paints w { w with graph := w.graph.paintEntries name entries } := by
    rw [← foldl_update_eq]
    exact Graph.steps_foldl fun e _ w₁ _ => .single (.update w₁ ..)
  refine { h with
    isWellFormed := Graph.isWellFormed_paintEntries h.isWellFormed name entries
    onlyDeclared := h.onlyDeclared.of_paints hpaints
    shapesAgree := h.shapesAgree.of_paints hpaints
    isWhole := ?_ }
  exact List.foldlRecOn entries _ h.isWhole fun g hg e he =>
    hg.update name e.row e.col (hentries e he) e.color (some e.isIdentity) none

/-- Entering a matrix of a document: it then looks as the last entries for its cells say. -/
theorem addMatrix (h : IsStaged doc w) (hcheck : Size.check (.int (doc.dimensionsOf name).rows)
      (.int (doc.dimensionsOf name).cols) w.sizeLimit = .ok (doc.dimensionsOf name).shape)
    {entries : List Document.Entry} (hentries : ∀ e ∈ entries, e.value.IsWhole)
    (hinside : ∀ e ∈ entries, e.isInside (doc.dimensionsOf name) = true) :
    ∃ w', addMatrix doc name entries w = .ok () w' ∧ IsStaged doc w' ∧ SameSettings w w' ∧
      ∀ other i j, w'.graph.lookAt other i j = if other = name then
        ((Document.lastAt? entries i j).map Document.Entry.look).getD (w.graph.lookAt other i j)
      else w.graph.lookAt other i j := by
  obtain ⟨w₁, hrun, h₁, hsame, hlook, hshape⟩ := h.declare hcheck
  have hadd : Workspace.addMatrix doc name entries w =
      .ok () { w₁ with graph := w₁.graph.paintEntries name entries } := by
    rw [← foldl_update_eq]
    exact bind_eq_of_ok hrun
  refine ⟨_, hadd, h₁.paintEntries name hentries, hsame.trans rfl, fun other i j => ?_⟩
  change (w₁.graph.paintEntries name entries).lookAt other i j = _
  rw [Graph.lookAt_paintEntries h₁.isWellFormed, hlook]
  by_cases he : other = name
  swap
  · rw [if_neg he, if_neg fun hand => he hand.1]
  subst he
  by_cases hcell : w₁.graph.HasCell other i j
  · rw [if_pos ⟨rfl, hcell⟩, if_pos rfl]
  · -- there is no entry for a cell outside of the matrix
    rw [Graph.hasCell_iff_of_shape? hshape] at hcell
    have hnone : Document.lastAt? entries i j = none := by
      refine Document.lastAt?_eq_none fun e he hat => hcell ?_
      obtain ⟨rfl, rfl⟩ := hat
      simpa [Document.Entry.isInside, Document.Dimensions.shape] using hinside e he
    rw [if_neg fun hand => hcell ((Graph.hasCell_iff_of_shape? hshape).1 hand.2), hnone]
    exact (ite_self _).symm

/-- **Entering matrices of a document**, one after another. -/
theorem forM_addMatrix (h : IsStaged doc w)
    (hsizes : ∀ name, (doc.dimensionsOf name).IsWithin w.sizeLimit)
    {ms : Association (List Document.Entry)} (hnames : (Association.names ms).Nodup)
    (hwhole : ∀ m ∈ ms, ∀ e ∈ m.2, e.value.IsWhole)
    (hinside : ∀ m ∈ ms, ∀ e ∈ m.2, e.isInside (doc.dimensionsOf m.1) = true) :
    ∃ w', ms.forM (fun m => Workspace.addMatrix doc m.1 m.2) w = .ok () w' ∧ IsStaged doc w' ∧
      SameSettings w w' ∧ ∀ name i j, w'.graph.lookAt name i j =
        (((ms.lookup name).bind fun entries => Document.lastAt? entries i j).map
          Document.Entry.look).getD (w.graph.lookAt name i j) := by
  induction ms generalizing w with
  | nil => exact ⟨w, rfl, h, rfl, fun _ _ _ => rfl⟩
  | cons m ms ih =>
    obtain ⟨hnew, hnames⟩ := List.nodup_cons.1 hnames
    obtain ⟨hm, hwhole⟩ := List.forall_mem_cons.1 hwhole
    obtain ⟨hm', hinside⟩ := List.forall_mem_cons.1 hinside
    obtain ⟨w₁, hrun, h₁, hsame, hlook⟩ := h.addMatrix (hsizes m.1).check_eq_ok hm hm'
    have hlimit : w₁.sizeLimit = w.sizeLimit := (congrArg Workspace.sizeLimit hsame).trans rfl
    obtain ⟨w', hrest, h', hsame', hlook'⟩ := ih h₁ (hlimit ▸ hsizes) hnames hwhole hinside
    refine ⟨w', (bind_eq_of_ok hrun).trans hrest, h', hsame.trans hsame', fun name i j => ?_⟩
    rw [hlook', hlook, List.lookup_cons]
    by_cases he : name = m.1
    · have hnone : ms.lookup name = none := by
        rw [Association.lookup_eq_none_iff, he]
        exact hnew
      simp [he, he ▸ hnone]
    · simp [he, beq_eq_false_iff_ne.2 he]

end IsStaged

/-- A new workspace in which the matrices of a document that is loaded are declared and painted. -/
theorem exists_isStaged {source : Document.Source} {limit : Datum} (output : Datum)
    (hsource : source.NamesDistinct) (hload : Document.load source limit = .ok doc)
    (hsizes : doc.dimensions.IsWithin limit)
    (hwhole : ∀ m ∈ doc.matrices, ∀ e ∈ m.2, e.value.IsWhole) :
    ∃ v w : Workspace, (doc.matrixDimensions.forM fun m => declareSized m.1 m.2)
        (blank (settingsFor doc output limit)) = .ok () v ∧
      (doc.matrices.forM fun m => addMatrix doc m.1 m.2) v = .ok () w ∧ IsStaged doc w ∧
      SameSettings (blank (settingsFor doc output limit)) w ∧
      ∀ name i j, w.graph.lookAt name i j = doc.lookAt name i j := by
  have hsound := (Document.load_eq_ok_iff.1 hload).2
  have hnodup := Document.nodup_names_of_load hsource hload
  have hwithin := Document.isWithin_dimensionsOf hsource hload hsizes
  have hcheck : ∀ m ∈ doc.matrixDimensions,
      Size.check (.int (m.2.rows : Nat)) (.int (m.2.cols : Nat)) limit = .ok m.2.shape :=
    fun m hm => (hsound.single hnodup ((Association.lookup_eq_some_iff hnodup).2 hm)).check_eq_ok
  obtain ⟨v, hdeclare, hfresh, hv⟩ := exists_listed output hnodup hcheck
  have hshapes := congrArg Workspace.shapes hv
  have hnames : v.shapes.names = Association.names doc.matrixDimensions := by
    rw [hshapes, Association.names, List.map_map]
    rfl
  have hlookup : ∀ name shape, v.shapes.lookup name = some shape →
      shape = (doc.dimensionsOf name).shape := by
    intro name shape hs
    rw [hshapes, Association.lookup_map_snd] at hs
    obtain ⟨d, hd, rfl⟩ := Option.map_eq_some_iff.1 hs
    rw [Document.dimensionsOf, hd, Option.getD_some]
  have hwholeV : v.IsWhole := by
    rw [← left_of_ok hdeclare]
    exact left_forM_of (IsWhole.of_blank _) fun m _ w₁ h₁ => h₁.declare m.1 _ _
  have hstaged : IsStaged doc v := ⟨hfresh.isWellFormed, hfresh.onlyDeclared, hfresh.shapesAgree,
    hwholeV, hnames ▸ hnodup, fun name hname => hnames ▸ hname, hlookup⟩
  have hlimit : v.sizeLimit = limit := (congrArg Workspace.sizeLimit hv).trans rfl
  obtain ⟨w, hadd, hw, hsame, hlook⟩ := hstaged.forM_addMatrix (hlimit ▸ hwithin)
    (Document.nodup_names_matrices_of_load hsource hload) hwhole hsound.inside
  refine ⟨v, w, hdeclare, hadd, hw, ?_, fun name i j => ?_⟩
  · rw [SameSettings] at hsame ⊢
    rw [hsame, hv]
  · rw [hlook, hfresh.isUnpainted.lookAt_eq, Document.lookAt]

/-- The workspace has the formula and the iterations of a document. The declared matrices are those
that the formula reads, in the shapes that the document gives them, and in the graph they have these
shapes and look as the document says. -/
structure Shows (w : Workspace) (doc : Document) : Prop where
  formula : w.formula = .text doc.formula
  plan : Plan.read doc.formula = .ok w.plan
  iterations : w.iterations = .int doc.iterations
  nodup : w.shapes.names.Nodup
  mem_names : ∀ name, name ∈ w.shapes.names ↔ name ∈ w.plan.baseMatrices
  lookup : ∀ name ∈ w.plan.baseMatrices,
    w.shapes.lookup name = some (doc.dimensionsOf name).shape
  shape?_eq : ∀ name ∈ w.plan.baseMatrices,
    w.graph.shape? name = some (doc.dimensionsOf name).shape
  look : ∀ name ∈ w.plan.baseMatrices, ∀ i j, w.graph.lookAt name i j = doc.lookAt name i j

/-- **Taking the formula of a document** when its matrices are there: matrices that it does not read
lose their declaration, and those that it reads and that are not there have the sizes of the
document. -/
theorem IsStaged.setFormula {plan : Plan} {output : Text} {limit : Datum} (h : IsStaged doc w)
    (hsame : SameSettings (blank (settingsFor doc (.text output) limit)) w)
    (hlook : ∀ name i j, w.graph.lookAt name i j = doc.lookAt name i j)
    (hread : Plan.read doc.formula = .ok plan) (hobstacle : plan.obstacle? output = none)
    (hsizes : doc.dimensions.IsWithin limit) :
    ∃ w', setFormula (.text doc.formula) w = .ok () w' ∧ w'.Shows doc ∧ w'.graph.IsWellFormed ∧
      w'.IsWhole ∧ SameSettings { blank (settingsFor doc (.text output) limit) with
        formula := .text doc.formula, plan } w' := by
  let kept : Workspace := { w with
    formula := .text doc.formula
    plan
    shapes := w.shapes.keep fun name => plan.baseMatrices.contains name }
  have houtput : w.output = .text output := (congrArg Workspace.output hsame).trans rfl
  have hcheck : Size.check kept.rows kept.cols kept.sizeLimit = .ok doc.dimensions.shape := by
    have hkept : Size.check w.rows w.cols w.sizeLimit = .ok doc.dimensions.shape := by
      rw [hsame]
      exact hsizes.check_eq_ok
    exact hkept
  obtain ⟨w', hforM, hlookup⟩ := exists_forM_declare hcheck plan.baseMatrices
  have hdeclare : declareBases plan { w with formula := .text doc.formula, plan } = .ok () w' :=
    hforM
  have hrun : Workspace.setFormula (.text doc.formula) w = .ok () w' :=
    (setFormula_of_text hread houtput hobstacle).trans hdeclare
  have hshapes : ∀ name ∈ plan.baseMatrices,
      w'.shapes.lookup name = some (doc.dimensionsOf name).shape := by
    intro name hname
    have hkept : kept.shapes.lookup name = w.shapes.lookup name := by
      rw [Association.lookup_keep, if_pos (List.contains_iff_mem.2 hname)]
    rw [hlookup, hkept, if_pos hname]
    cases hs : w.shapes.lookup name with
    | some shape => rw [Option.some_or, h.lookup name shape hs]
    | none =>
      -- what has sizes of its own in the document was declared
      have hnone : doc.matrixDimensions.lookup name = none := by
        rw [Association.lookup_eq_none_iff]
        intro hmem
        obtain ⟨shape, hshape⟩ := Association.exists_of_mem_names (h.declared name hmem)
        cases hs.symm.trans hshape
      rw [Option.none_or, Document.dimensionsOf, hnone, Option.getD_none]
  have hagree : (left (Workspace.setFormula (.text doc.formula)) w).ShapesAgree :=
    h.shapesAgree.setFormula fun _ _ _ _ _ name _ => h.onlyDeclared.mayDeclare name _ _
  have hg := (editsGraph_setFormula (.text doc.formula) w).isWellFormed h.isWellFormed
  have hkeeps := sameLook_setFormula h.isWellFormed (.text doc.formula)
  rw [left_of_ok hrun] at hagree hg hkeeps
  have hwhole : w'.IsWhole := by
    rw [← left_of_ok hforM]
    exact left_forM_of (P := IsWhole) h.isWhole fun name _ w₁ h₁ => h₁.declare name none none
  have hnodup : w'.shapes.names.Nodup := by
    rw [← left_of_ok hforM]
    refine left_forM_of (P := fun w => w.shapes.names.Nodup) ?_ fun name _ w₁ h₁ =>
      nodup_names_declare h₁ name none none
    rw [Association.names_keep]
    exact h.nodup.filter _
  have hnames : w'.shapes.names ⊆ plan.baseMatrices := by
    have hdeclared := names_declareBases plan { w with formula := .text doc.formula, plan }
    rwa [left_of_ok hdeclare] at hdeclared
  have hsame' : SameSettings { blank (settingsFor doc (.text output) limit) with
      formula := .text doc.formula, plan } w' := by
    have hdeclared := sameSettings_declareBases plan { w with formula := .text doc.formula, plan }
    rw [left_of_ok hdeclare] at hdeclared
    rw [SameSettings] at hsame hdeclared ⊢
    rw [hdeclared, hsame]
  have hplan : w'.plan = plan := hsame'.plan
  refine ⟨w', hrun, ?_, hg, hwhole, hsame'⟩
  refine ⟨hsame'.formula, hplan ▸ hread, (congrArg Workspace.iterations hsame').trans rfl,
    hnodup, fun name => ?_, fun name hname => ?_, fun name hname => ?_, fun name _ i j => ?_⟩
  · rw [hplan]
    refine ⟨fun hname => hnames hname, fun hname => ?_⟩
    rw [← Association.lookup_isSome_iff, hshapes name hname, Option.isSome_some]
  · exact hshapes name (hplan ▸ hname)
  · exact hagree name _ (hshapes name (hplan ▸ hname))
  · rw [hkeeps, hlook]

/-- A workspace that shows a document has settings for an evaluation that fit its formula. -/
theorem Shows.exists_fits {output : Text} (h : w.Shows doc) (houtput : w.output = .text output)
    (hobstacle : w.plan.obstacle? output = none) (hiterations : doc.iterations ≤ Size.defaultLimit)
    (hsize : ∃ shape, Size.check w.rows w.cols w.sizeLimit = .ok shape)
    (hsizes : ∀ name, (doc.dimensionsOf name).IsWithin w.sizeLimit) :
    ∃ config names, w.config = .ok config ∧ Graph.Fits w.plan config names ∧
      ∀ name, name ∈ names ↔ name ∈ w.shapes.names := by
  refine Workspace.exists_fits h.plan houtput hobstacle
    ⟨doc.iterations, h.iterations, doc.iterations_pos, hiterations⟩ hsize (fun s hs => ?_)
    h.mem_names
  have hlookup := (Association.lookup_eq_some_iff h.nodup).2 hs
  have hname := (h.mem_names s.1).1 (List.mem_map_of_mem hs)
  rw [h.lookup s.1 hname] at hlookup
  rw [← Option.some.inj hlookup]
  exact (hsizes s.1).check_eq_ok

/-- **Evaluating the formula of a document** stops at an index with too many digits at most, and
leaves its matrices as they are shown. -/
theorem Shows.recompute {output : Text} (h : w.Shows doc) (hg : w.graph.IsWellFormed)
    (hwhole : w.IsWhole) (houtput : w.output = .text output)
    (hobstacle : w.plan.obstacle? output = none) (hnotMem : output ∉ w.plan.baseMatrices)
    (horiginal : ∀ name ∈ w.plan.baseMatrices, .char '@' ∉ name.symbols)
    (hiterations : doc.iterations ≤ Size.defaultLimit)
    (hsize : ∃ shape, Size.check w.rows w.cols w.sizeLimit = .ok shape)
    (hsizes : ∀ name, (doc.dimensionsOf name).IsWithin w.sizeLimit) :
    (∃ e left, Workspace.recompute w = .error (.graph (.index e)) left) ∨
      ∃ o w', Workspace.recompute w = .ok o w' ∧ w'.Shows doc ∧ w'.last? = some o := by
  obtain ⟨config, names, hconfig, hfits, hnames⟩ :=
    h.exists_fits houtput hobstacle hiterations hsize hsizes
  have hself : ∀ name ∈ names, w.graph.ResemblesOn True w.graph config name := fun name _ =>
    Graph.resemblesOn_self (fun _ => hwhole) config name
  rcases hfits.recompute_resembles hg hg rfl hself with
    ⟨e, g, -, hrun, -, he⟩ | ⟨o, -, g, -, hrun, -⟩
  · cases e with
    | index e => exact .inl ⟨e, _, recompute_eq_of_error hconfig hrun⟩
    | overflow => exact absurd trivial he
    | dimensions name rows cols => exact he.elim
    | iterations => exact he.elim
  refine .inr ⟨_, _, recompute_eq_of_ok hconfig hrun, ?_, rfl⟩
  obtain ⟨-, -, hout⟩ := of_config hconfig
  rw [houtput, outputFor_text] at hout
  have hout : output = config.output := Except.ok.inj hout
  have hpainted : ∀ name ∈ w.plan.baseMatrices,
      w.graph.PaintedFrom g name (doc.dimensionsOf name).shape := by
    intro name hname
    rw [← Graph.after_of_ok hrun]
    refine paintedFrom_recompute hg hconfig hfits.obstacle? hfits.inputs
      ((hnames name).2 ((h.mem_names name).2 hname)) ?_ ?_ (h.lookup name hname)
    · exact notMem_generatedNames_of_mem_baseMatrices h.plan hname (horiginal name hname)
    · rintro rfl
      exact hnotMem (hout ▸ hname)
  have hshape : ∀ name ∈ w.plan.baseMatrices,
      g.shape? name = some (doc.dimensionsOf name).shape := fun name hname =>
    (hpainted name hname).shape?_eq
  refine { h with shape?_eq := hshape, look := fun name hname i j => ?_ }
  change g.lookAt name i j = _
  rw [← h.look name hname]
  have hcell : g.HasCell name i j ↔ w.graph.HasCell name i j :=
    Graph.hasCell_congr ((hshape name hname).trans (h.shape?_eq name hname).symm)
  by_cases hij : g.HasCell name i j
  · exact (hpainted name hname).keepsLook i j hij
  · rw [Graph.lookAt_of_not_hasCell hij, Graph.lookAt_of_not_hasCell (mt hcell.2 hij)]

/-- **All steps but the last** leave a workspace that shows the document, and evaluating the formula
there is the last one. -/
theorem exists_shows {source : Document.Source} {plan : Plan} {output : Text} {limit : Datum}
    (hsource : source.NamesDistinct) (hload : Document.load source limit = .ok doc)
    (hread : Plan.read doc.formula = .ok plan) (hobstacle : plan.obstacle? output = none)
    (hsizes : doc.dimensions.IsWithin limit)
    (hwhole : ∀ m ∈ doc.matrices, ∀ e ∈ m.2, e.value.IsWhole) :
    ∃ staged : Workspace, staged.Shows doc ∧ staged.graph.IsWellFormed ∧ staged.IsWhole ∧
      SameSettings { blank (settingsFor doc (.text output) limit) with
        formula := .text doc.formula, plan } staged ∧
      ofDocument doc (.text output) limit =
        after (do let _ ← Workspace.recompute) staged := by
  obtain ⟨v, w, hdeclare, hadd, hstaged, hsame, hlook⟩ :=
    exists_isStaged (.text output) hsource hload hsizes hwhole
  obtain ⟨staged, hset, hshows, hg, hwhole', hsame'⟩ :=
    hstaged.setFormula hsame hlook hread hobstacle hsizes
  have henter : enter doc (blank (settingsFor doc (.text output) limit)) =
      (do let _ ← Workspace.recompute : Run Unit) staged :=
    (bind_eq_of_ok hdeclare).trans ((bind_eq_of_ok hadd).trans (bind_eq_of_ok hset))
  refine ⟨staged, hshows, hg, hwhole', hsame', ?_⟩
  rw [ofDocument, make_settingsFor output hsizes (Document.load_eq_ok_iff.1 hload).2.iterations]
  change after (enter doc) (blank (settingsFor doc (.text output) limit)) = _
  rw [after, henter, after]

/-- **An import shows its document.** Let the document be within the limit of sizes and hold whole
numbers, and let its formula be one that can be evaluated and does not read the output. Then there
is a workspace that shows it, and evaluating the formula there decides: if that stops at an index
with too many digits then so does the import, and otherwise the import succeeds and leaves the
evaluated workspace, which shows the document still and has its settings. -/
theorem importDocument_shows {source : Document.Source} {plan : Plan} {output : Text}
    (hsource : source.NamesDistinct) (hload : Document.load source w.sizeLimit = .ok doc)
    (houtput : w.output = .text output) (hread : Plan.read doc.formula = .ok plan)
    (hobstacle : plan.obstacle? output = none) (hnotMem : output ∉ plan.baseMatrices)
    (horiginal : ∀ name ∈ plan.baseMatrices, .char '@' ∉ name.symbols)
    (hsizes : doc.dimensions.IsWithin w.sizeLimit)
    (hwhole : ∀ m ∈ doc.matrices, ∀ e ∈ m.2, e.value.IsWhole) :
    ∃ staged : Workspace, staged.Shows doc ∧ staged.output = w.output ∧
      staged.sizeLimit = w.sizeLimit ∧
      ((∃ e left, Workspace.recompute staged = .error (.graph (.index e)) left ∧
          w.importDocument source = .error (.graph (.index e))) ∨
        ∃ o w', Workspace.recompute staged = .ok o w' ∧ w.importDocument source = .ok (.ok w') ∧
          w'.Shows doc ∧ w'.IsOpened doc ∧ w'.last? = some o) := by
  obtain ⟨staged, hshows, hg, hwhole', hsame, hdoc⟩ :=
    exists_shows hsource hload hread hobstacle hsizes hwhole
  have hplan : staged.plan = plan := hsame.plan
  have hout : staged.output = .text output := (congrArg Workspace.output hsame).trans rfl
  have hlimit : staged.sizeLimit = w.sizeLimit := (congrArg Workspace.sizeLimit hsame).trans rfl
  have hsize : Size.check staged.rows staged.cols staged.sizeLimit = .ok doc.dimensions.shape := by
    rw [hsame]
    exact hsizes.check_eq_ok
  have himport := importDocument_of_load hload (houtput ▸ conflict?_eq_none hread hobstacle)
  rw [houtput] at himport
  refine ⟨staged, hshows, hout.trans houtput.symm, hlimit, ?_⟩
  rcases hshows.recompute hg hwhole' hout (hplan ▸ hobstacle) (hplan ▸ hnotMem)
    (hplan ▸ horiginal) (Document.load_eq_ok_iff.1 hload).2.iterations ⟨_, hsize⟩
    (hlimit ▸ Document.isWithin_dimensionsOf hsource hload hsizes) with
    ⟨e, left, hrun⟩ | ⟨o, w', hrun, hshows', hlast⟩
  · refine .inl ⟨e, left, hrun, ?_⟩
    rw [himport, hdoc, after_eq_error hrun]
    rfl
  · rw [after_eq_ok hrun] at hdoc
    refine .inr ⟨o, w', hrun, ?_, hshows', (isOpened_of_ofDocument hdoc).1, hlast⟩
    rw [himport, hdoc]
    rfl

/-- A document for a formula. Its matrix `A` has a shape of its own and two entries for a cell, and
its matrix `B` has one for another cell. -/
def paintedDocument (formula : Text) : Datum :=
  let entry (col value : Int) : Datum :=
    .object [("row", .int 0), ("col", .int col), ("value", .int value)]
  .object [("version", .int 3),
    ("dimensions", .object [("rows", .int 2), ("cols", .int 2)]),
    ("formula", .text formula),
    ("matrices", .object [("A", .list [entry 0 7, entry 0 2]), ("B", .list [entry 0 3])]),
    ("matrixDimensions", .object [("A", .object [("rows", .int 1), ("cols", .int 2)])])]

theorem namesDistinct_paintedDocument (formula : Text) :
    Document.Source.NamesDistinct (.datum (paintedDocument formula)) := by
  simp only [Document.Source.NamesDistinct, paintedDocument, Datum.NamesDistinct,
    Datum.FieldsNamesDistinct, Datum.ItemsNamesDistinct, Association.names, List.map,
    List.nodup_cons, List.not_mem_nil, not_false_eq_true, List.nodup_nil, and_true]
  decide

/-- What the sample holds once it is loaded, for a formula with which it is. -/
theorem exists_load_paintedDocument (formula : Text)
    (h : ((Document.load (.datum (paintedDocument formula)) (.int 50)).toOption.map fun doc =>
      (doc.formula, doc.dimensions.shape, (doc.dimensionsOf "A").shape,
        decide (∀ m ∈ doc.matrices, ∀ e ∈ m.2, e.value.IsWhole),
        (doc.lookAt "A" 0 0).value.toInt)) = some (formula, (2, 2), (1, 2), true, 2)) :
    ∃ doc, Document.load (.datum (paintedDocument formula)) (.int 50) = .ok doc ∧
      doc.formula = formula ∧ doc.dimensions.IsWithin (.int 50) ∧
      (doc.dimensionsOf "A").shape = (1, 2) ∧
      (∀ m ∈ doc.matrices, ∀ e ∈ m.2, e.value.IsWhole) ∧
      (doc.lookAt "A" 0 0).value.toInt = 2 := by
  obtain ⟨doc, hload, hparts⟩ := Document.exists_of_toOption_map h
  simp only [Prod.mk.injEq, decide_eq_true_eq] at hparts
  obtain ⟨hformula, hdimensions, hshape, hwhole, hlook⟩ := hparts
  obtain ⟨hrows, hcols⟩ := Prod.mk.inj hdimensions
  have hwithin : doc.dimensions.IsWithin (.int 50) :=
    ⟨(Size.isWithin_int 50 _).2 (by omega), (Size.isWithin_int 50 _).2 (by omega)⟩
  exact ⟨doc, hload, hformula, hwithin, hshape, hwhole, hlook⟩

/-- The sample opened beside an output `O`: what is read is `A` in a shape of its own, and for its
cell with two entries the last one counts. -/
theorem importDocument_shows_sample :
    ∃ doc w', Document.load (.datum (paintedDocument "A*B")) (.int 50) = .ok doc ∧
      (blank sampleSettings).importDocument (.datum (paintedDocument "A*B")) = .ok (.ok w') ∧
      w'.Shows doc ∧ w'.graph.shape? "A" = some (1, 2) ∧
      (w'.graph.lookAt "A" 0 0).value.toInt = 2 := by
  let source : Document.Source := .datum (paintedDocument "A*B")
  let w := blank sampleSettings
  obtain ⟨doc, hload, hformula, hwithin, hshape, hwhole, hlook⟩ :=
    exists_load_paintedDocument "A*B" (by decide +kernel)
  have hread : (Plan.read "A*B").toOption.map (fun plan =>
      (plan.obstacle? "O", plan.baseMatrices)) = some (none, [("A" : Text), "B"]) := by
    decide +kernel
  obtain ⟨plan, hplan, hparts⟩ := Document.exists_of_toOption_map hread
  obtain ⟨hobstacle, hbases⟩ := Prod.mk.inj hparts
  obtain ⟨staged, -, -, -, h⟩ := importDocument_shows (w := w)
    (namesDistinct_paintedDocument "A*B") hload rfl (hformula ▸ hplan) hobstacle
    (hbases ▸ by decide) (hbases ▸ by decide) hwithin hwhole
  rcases h with ⟨e, left, -, himport⟩ | ⟨o, w', -, himport, hshows, -, -⟩
  · have hok : (w.importDocument source).toOption.isSome = true := by decide +kernel
    rw [himport] at hok
    cases hok
  · have hA : ("A" : Text) ∈ w'.plan.baseMatrices := by
      have hread' := hshows.plan
      rw [hformula, hplan] at hread'
      rw [← Except.ok.inj hread', hbases]
      decide
    refine ⟨doc, w', hload, himport, hshows, ?_, ?_⟩
    · rw [hshows.shape?_eq _ hA, hshape]
    · rw [hshows.look _ hA, hlook]

/-- **An import does not always show its document.** A matrix that the formula reads through a
relative index may be the output, which is not reported, and the evaluation then overwrites what the
document gives for it. -/
theorem importDocument_overwritten : ∃ fresh doc plan w',
    make { output := .text "A" } = .ok fresh ∧
    Document.load (.datum (paintedDocument "A_n*B")) fresh.sizeLimit = .ok doc ∧
    doc.dimensions.IsWithin fresh.sizeLimit ∧
    (∀ m ∈ doc.matrices, ∀ e ∈ m.2, e.value.IsWhole) ∧
    Plan.read doc.formula = .ok plan ∧ plan.obstacle? "A" = none ∧
    ("A" : Text) ∈ plan.baseMatrices ∧ (∀ name ∈ plan.baseMatrices, .char '@' ∉ name.symbols) ∧
    fresh.importDocument (.datum (paintedDocument "A_n*B")) = .ok (.ok w') ∧
    (doc.lookAt "A" 0 0).value.toInt = 2 ∧ (w'.graph.lookAt "A" 0 0).value.toInt = 6 := by
  let fresh := blank { output := .text "A" }
  let source : Document.Source := .datum (paintedDocument "A_n*B")
  obtain ⟨doc, hload, hformula, hwithin, -, hwhole, hlook⟩ :=
    exists_load_paintedDocument "A_n*B" (by decide +kernel)
  have hread : (Plan.read "A_n*B").toOption.map (fun plan =>
      (plan.obstacle? "A", plan.baseMatrices)) = some (none, [("A" : Text), "B"]) := by
    decide +kernel
  obtain ⟨plan, hplan, hparts⟩ := Document.exists_of_toOption_map hread
  obtain ⟨hobstacle, hbases⟩ := Prod.mk.inj hparts
  have himport : (fresh.importDocument source).toOption.map (fun answer =>
      answer.toOption.map fun w' => (w'.graph.lookAt "A" 0 0).value.toInt) = some (some 6) := by
    decide +kernel
  obtain ⟨answer, hanswer, hshown⟩ := Document.exists_of_toOption_map himport
  obtain ⟨w', rfl, hsix⟩ := Document.exists_of_toOption_map hshown
  exact ⟨fresh, doc, plan, w', make_eq_blank rfl rfl rfl rfl, hload, hwithin, hwhole,
    hformula ▸ hplan, hobstacle, hbases ▸ by decide, hbases ▸ by decide, hanswer, hlook, hsix⟩

end Workspace

end CellLineage
