import CellLineage.Proofs.Recompute.Prediction
import CellLineage.Proofs.Workspace.Opened

/-!
# Documents of the first version

A document of the first version says nothing of its formula or of single shapes. Its layout implies
them: a left, a kernel and a right matrix, the kernel with its sizes swapped, and the product of the
three. Whatever the sizes are, the factors of that product fit, and so it has a value with the sizes
of the document.

So a document of the first version that is loaded is also opened and evaluated. What it holds beside
the three matrices is dropped when it is loaded, and has no effect. The result is shown with the
sizes of the document unless the output matrix is called by the empty text, which counts as having
no name when the outcome is put together.

## Main definitions

* `Document.Source.IsFirst`: a source holds an object of the first version.
* `Document.layoutShapes`, `layoutPlan`: the shapes and the formula of the layout.
* `Document.Contents.SameLayout`: contents that differ outside of the layout only.
* `Workspace.ShowsLayout`: the declared matrices are those of the layout, and look as they should.

## Main results

* `Graph.recompute_layout`: the product of the layout has the sizes of the document.
* `Workspace.importDocument_layout`: documents of the first version are opened and evaluated.
* `Workspace.importDocument_unnamed`: without a name the result has no shape.
-/

namespace CellLineage

open Formula

namespace Document

variable {doc : Document} {source : Source} {limit : Datum} {fields : Fields} {contents : Contents}

/-! ### Contents of the first version -/

/-- The matrices of the layout. -/
def layoutNames : List Text :=
  [leftName, kernelName, rightName]

/-- The shapes of the matrices of the layout. -/
def layoutShapes (d : Dimensions) : Shapes :=
  [(leftName, d.shape), (kernelName, d.swap.shape), (rightName, d.shape)]

theorem names_layoutShapes (d : Dimensions) : (layoutShapes d).names = layoutNames :=
  rfl

theorem lookup_layoutShapes (c : Contents) {name : Text} (hname : name ∈ layoutNames) :
    (layoutShapes c.dimensions).lookup name = some ((ofFirst c).dimensionsOf name).shape := by
  have hmap : layoutShapes c.dimensions =
      (ofFirst c).matrixDimensions.map fun m => (m.1, m.2.shape) := rfl
  have hmem : name ∈ Association.names (ofFirst c).matrixDimensions := hname
  obtain ⟨d, hd⟩ := Association.exists_of_mem_names hmem
  rw [hmap, Association.lookup_map_snd, dimensionsOf, hd]
  rfl

theorem lookup_layoutShapes_of_notMem (d : Dimensions) {name : Text} (hname : name ∉ layoutNames) :
    (layoutShapes d).lookup name = none :=
  (Association.lookup_eq_none_iff (layoutShapes d) name).2 hname

/-- The look that contents give to a cell: that of the last entry for it, if there is one. -/
def Contents.lookAt (c : Contents) (name : Text) (i j : Nat) : Look :=
  (((c.matrices.lookup name).bind fun entries => lastAt? entries i j).map Entry.look).getD .blank

/-- Cells of the layout look in the document as in the contents that it was made from. -/
theorem lookAt_ofFirst (c : Contents) {name : Text} (hname : name ∈ layoutNames) (i j : Nat) :
    (ofFirst c).lookAt name i j = c.lookAt name i j := by
  have hmatrices : (ofFirst c).matrices.lookup name = some ((c.matrices.lookup name).getD []) := by
    change (layoutNames.map fun name => (name, (c.matrices.lookup name).getD [])).lookup name = _
    rw [Association.lookup_map, if_pos hname]
  rw [lookAt, hmatrices, Contents.lookAt]
  cases c.matrices.lookup name <;> rfl

/-- The source holds an object of these fields, which names the first version. -/
structure Source.IsFirst (source : Source) (fields : Fields) : Prop where
  read : source.read = .ok (.object fields)
  version : fields.find? "version" = some (.int Version.first.number)

/-- An object of the first version is read by way of its contents. -/
theorem readObject_first_eq_ok_iff
    (hversion : fields.find? "version" = some (.int Version.first.number)) :
    readObject fields = .ok doc ↔
      ∃ contents, readContents fields = .valid contents ∧ doc = ofFirst contents := by
  rw [readObject, hversion]
  simp only [Version.ofDatum?_number, readVersion]
  cases readContents fields with
  | valid contents => simp [eq_comm]
  | invalid problems => simp

/-- A source of the first version is loaded exactly if its contents can be read and make a document
that passes its checks. -/
theorem Source.IsFirst.load_eq_ok_iff (h : source.IsFirst fields) : load source limit = .ok doc ↔
    ∃ contents, readContents fields = .valid contents ∧ doc = ofFirst contents ∧
      (ofFirst contents).IsSound limit := by
  rw [Document.load_eq_ok_iff, h.read]
  constructor
  · rintro ⟨⟨d, hd, hdoc⟩, hsound⟩
    cases hd
    obtain ⟨contents, hcontents, rfl⟩ := (readObject_first_eq_ok_iff h.version).1 hdoc
    exact ⟨contents, hcontents, rfl, hsound⟩
  · rintro ⟨contents, hcontents, rfl, hsound⟩
    exact ⟨⟨_, rfl, (readObject_first_eq_ok_iff h.version).2 ⟨contents, hcontents, rfl⟩⟩, hsound⟩

/-- The sizes of a document of the first version are checked with those of its left matrix. -/
theorem isWithin_of_isSound_ofFirst (h : (ofFirst contents).IsSound limit) :
    contents.dimensions.IsWithin limit := by
  have hnodup : (Association.names (ofFirst contents).matrixDimensions).Nodup := by
    change layoutNames.Nodup
    decide
  have hleft : (ofFirst contents).matrixDimensions.lookup leftName = some contents.dimensions := rfl
  exact h.single hnodup hleft

/-- The contents differ in their time and in matrices outside of the layout only. -/
structure Contents.SameLayout (c c' : Contents) : Prop where
  dimensions : c'.dimensions = c.dimensions
  configuration : c'.configuration = c.configuration
  entries : ∀ name ∈ layoutNames,
    (c'.matrices.lookup name).getD [] = (c.matrices.lookup name).getD []

/-- What is outside of the layout is not in the document. -/
theorem Contents.SameLayout.ofFirst_eq {c c' : Contents} (h : c.SameLayout c') :
    ofFirst c' = { ofFirst c with timestamp := c'.timestamp } := by
  have hmatrices : (ofFirst c').matrices = (ofFirst c).matrices :=
    List.map_congr_left fun name hname => congrArg (Prod.mk name) (h.entries name hname)
  have hshapes : (ofFirst c').matrixDimensions = (ofFirst c).matrixDimensions := by
    rw [ofFirst, ofFirst, h.dimensions]
  rw [ofFirst, Document.mk.injEq, Contents.mk.injEq]
  exact ⟨⟨rfl, h.dimensions, h.configuration, hmatrices⟩, rfl, rfl, hshapes⟩

end Document

open Document

/-! ### The product of the layout -/

/-- The plan of the formula of the layout. -/
def layoutPlan : SimplePlan where
  factors := [⟨"S", .label "left", false, 0⟩, ⟨"K", .absent, false, 7⟩,
    ⟨"S", .label "right", false, 9⟩]
  fault? := none
  text := layoutFormula

theorem read_layoutFormula : Plan.read layoutFormula = .ok (.simple layoutPlan) := by
  decide +kernel

theorem mem_baseMatrices_layoutPlan {name : Text} :
    name ∈ (Plan.simple layoutPlan).baseMatrices ↔ name ∈ layoutNames := by
  have hperm : (Plan.simple layoutPlan).baseMatrices.Perm layoutNames := by decide +kernel
  exact hperm.mem_iff

/-- Nothing stands in the way of the plan unless the output is one of its matrices. -/
theorem obstacle?_layoutPlan {output : Text} (h : output ∉ layoutNames) :
    (Plan.simple layoutPlan).obstacle? output = none := by
  have hused : (Plan.simple layoutPlan).usedNames = layoutNames := by decide +kernel
  refine Plan.obstacle?_eq_none_iff.2 ⟨rfl, ?_⟩
  rw [Plan.uses, hused, Bool.and_eq_false_iff]
  exact .inr (by simpa using h)

/-- **The factors of the layout fit**, and their product has the sizes of the document. -/
theorem ShapeCheck.shapeOf_layoutPlan (d : Dimensions) : ∃ p, layoutPlan.product? = some p ∧
    ShapeCheck.shapeOf (layoutShapes d) p = (some d.shape, []) := by
  have hleft : shapeOf (layoutShapes d) (.single ⟨"S", .label "left", false, 0⟩) =
      (some d.shape, []) := rfl
  have hkernel : shapeOf (layoutShapes d) (.single ⟨"K", .absent, false, 7⟩) =
      (some d.swap.shape, []) := rfl
  have hright : shapeOf (layoutShapes d) (.single ⟨"S", .label "right", false, 9⟩) =
      (some d.shape, []) := rfl
  have hproduct : shapeOf (layoutShapes d) (.times (.single ⟨"S", .label "left", false, 0⟩)
      (.single ⟨"K", .absent, false, 7⟩)) = (some (d.rows, d.rows), []) := by
    rw [shapeOf, hleft, hkernel]
    exact if_pos rfl
  refine ⟨_, rfl, ?_⟩
  change shapeOf (layoutShapes d) (.times (.times _ _) _) = _
  rw [shapeOf, hproduct, hright]
  exact if_pos rfl

namespace Graph

variable {g : Graph} {config : Config} {names : List Text}

/-- **Evaluating the layout** in its shapes meets no issue, and the output has the sizes of the
document, whatever it is called. -/
theorem recompute_layout (hfits : Fits (.simple layoutPlan) config names) (hg : g.IsWellFormed)
    (hwhole : g.IsWhole) {d : Dimensions}
    (hshapes : ∀ name, config.shapes.lookup name = (layoutShapes d).lookup name)
    (hnames : ∀ name, name ∈ names ↔ name ∈ layoutNames) :
    ∃ computed g', recompute (.simple layoutPlan) config g = .ok ⟨some config.output,
        if config.output = "" then none else some d.shape, computed, [], none⟩ g' ∧
      g'.shape? config.output = some d.shape := by
  obtain ⟨g₀, hrebuild, hwf, -, hrep, -, -⟩ :=
    rebuild_inputs hfits.hasCells hg.toIsMinted (nodup_of_inputNames hfits.inputs)
  have henv {name : Text} (_ : IsPublic name) :
      g₀.Represents name ((g.inputs config names).lookup name) :=
    hrep name (isIntegral_of_forall_isInt hg.toIsMinted (fun id _ => hwhole id) config name)
  have hdescribes : ShapeCheck.Describes (layoutShapes d) (g.inputs config names) := by
    intro name
    rw [lookup_inputs]
    by_cases hname : name ∈ layoutNames
    · have hmem : name ∈ (layoutShapes d).names := hname
      obtain ⟨shape, hshape⟩ := Association.exists_of_mem_names hmem
      rw [if_pos ((hnames name).2 hname), hshape, Option.map_some, IntMatrix.shape, inputMatrix,
        IntMatrix.ofFn, inputShape, hshapes, hshape]
      rfl
    · rw [if_neg fun h => hname ((hnames name).1 h), lookup_layoutShapes_of_notMem d hname]
      rfl
  have hpublic : ∀ r ∈ layoutPlan.factors, IsPublic r.name := by decide +kernel
  obtain ⟨p, hp, hshape⟩ := ShapeCheck.shapeOf_layoutPlan d
  obtain ⟨results, g₁, hrun, hbears⟩ :=
    evaluatePlan_simple_bears config hpublic hwf henv hdescribes
  rw [hp] at hbears
  obtain ⟨g', hend, hout⟩ := hbears.exists_outcome (congrArg Prod.fst hshape) config
    (g.shape? config.output)
  have hissues : results.issues = [] := by
    have h : (ShapeCheck.shapeOf (layoutShapes d) p).2.map Issue.obstruction =
        results.issues.map Issue.obstruction := hbears.issues
    rw [hshape] at h
    exact List.map_eq_nil_iff.1 h.symm
  refine ⟨results.computed, g', ?_, hout⟩
  rw [recompute_eq hfits.obstacle? hfits.inputs hrebuild, runPlan_eq]
  exact (bind_eq_of_ok hrun).trans (hissues ▸ hend)

end Graph

namespace Workspace

variable {w : Workspace} {source : Document.Source} {contents : Document.Contents} {output : Text}

/-! ### Opening documents of the first version -/

/-- The declared matrices are those of the layout, in its shapes, and their cells look as the
contents say. -/
structure ShowsLayout (w : Workspace) (c : Document.Contents) : Prop where
  nodup : w.shapes.names.Nodup
  lookup : ∀ name, w.shapes.lookup name = (layoutShapes c.dimensions).lookup name
  shape?_eq : ∀ m ∈ layoutShapes c.dimensions, w.graph.shape? m.1 = some m.2
  look : ∀ name ∈ layoutNames, ∀ i j, w.graph.lookAt name i j = c.lookAt name i j

theorem Shows.plan_eq (h : w.Shows (ofFirst contents)) : w.plan = .simple layoutPlan :=
  Except.ok.inj (h.plan.symm.trans read_layoutFormula)

theorem Shows.mem_baseMatrices_iff (h : w.Shows (ofFirst contents)) (name : Text) :
    name ∈ w.plan.baseMatrices ↔ name ∈ layoutNames := by
  rw [h.plan_eq, mem_baseMatrices_layoutPlan]

theorem Shows.lookup_eq (h : w.Shows (ofFirst contents)) (name : Text) :
    w.shapes.lookup name = (layoutShapes contents.dimensions).lookup name := by
  by_cases hname : name ∈ layoutNames
  · rw [h.lookup name ((h.mem_baseMatrices_iff name).2 hname), lookup_layoutShapes contents hname]
  · rw [lookup_layoutShapes_of_notMem _ hname, Association.lookup_eq_none_iff, h.mem_names,
      h.mem_baseMatrices_iff]
    exact hname

/-- An outcome that has no shape if the output has no name is shown as it is. -/
theorem shown_text {o : Outcome} (h : output = "" → o.shape? = none) :
    shown (.text output) o = o := by
  by_cases hempty : output = ""
  · have hshown : shown (.text output) o = { o with shape? := none } := by rw [hempty]; rfl
    rw [hshown, ← h hempty]
  · exact if_pos (bne_iff_ne.2 hempty)

/-- A workspace that shows a document of the first version shows the layout. -/
theorem Shows.showsLayout (h : w.Shows (ofFirst contents)) : w.ShowsLayout contents where
  nodup := h.nodup
  lookup := h.lookup_eq
  shape?_eq m hm := by
    have hname : m.1 ∈ layoutNames := List.mem_map_of_mem (f := Prod.fst) hm
    have hnodup : (layoutShapes contents.dimensions).names.Nodup := by
      rw [names_layoutShapes]
      decide
    rw [h.shape?_eq _ ((h.mem_baseMatrices_iff _).2 hname), ← lookup_layoutShapes contents hname]
    exact (Association.lookup_eq_some_iff hnodup).2 hm
  look name hname i j := by
    rw [h.look name ((h.mem_baseMatrices_iff name).2 hname), lookAt_ofFirst contents hname]

/-- **Evaluating a workspace that shows a document of the first version** gives a result with the
sizes of the document. -/
theorem Shows.recompute_layout (h : w.Shows (ofFirst contents)) (hg : w.graph.IsWellFormed)
    (hwhole : w.IsWhole) (houtput : w.output = .text output) (hnotMem : output ∉ layoutNames)
    (hsize : ∃ shape, Size.check w.rows w.cols w.sizeLimit = .ok shape)
    (hsizes : ∀ name, ((ofFirst contents).dimensionsOf name).IsWithin w.sizeLimit) :
    ∃ computed w', Workspace.recompute w = .ok ⟨some output,
        if output = "" then none else some contents.dimensions.shape, computed, [], none⟩ w' ∧
      w'.Shows (ofFirst contents) ∧ w'.last? = some ⟨some output,
        if output = "" then none else some contents.dimensions.shape, computed, [], none⟩ ∧
      w'.graph.shape? output = some contents.dimensions.shape := by
  have hobstacle : w.plan.obstacle? output = none := h.plan_eq ▸ obstacle?_layoutPlan hnotMem
  have hiterations : (ofFirst contents).iterations ≤ Size.defaultLimit := by
    change ((1 : Nat) : Int) ≤ Size.defaultLimit
    decide
  have hsource : output ∉ w.plan.baseMatrices := mt (h.mem_baseMatrices_iff output).1 hnotMem
  have horiginal : ∀ name ∈ w.plan.baseMatrices, Symbol.char '@' ∉ name.symbols := by
    have hat : ∀ name ∈ layoutNames, Symbol.char '@' ∉ name.symbols := by decide
    exact fun name hname => hat name ((h.mem_baseMatrices_iff name).1 hname)
  obtain ⟨config, names, hconfig, hfits, hnames⟩ :=
    h.exists_fits houtput hobstacle hiterations hsize hsizes
  obtain ⟨hshapes, -, hout⟩ := of_config hconfig
  rw [houtput, outputFor_text] at hout
  have hout : output = config.output := Except.ok.inj hout
  obtain ⟨computed, g, hrun, hshape⟩ := Graph.recompute_layout (h.plan_eq ▸ hfits) hg hwhole
    (fun name => hshapes ▸ h.lookup_eq name)
    fun name => (hnames name).trans ((h.mem_names name).trans (h.mem_baseMatrices_iff name))
  rw [← h.plan_eq, ← hout] at hrun
  rw [← hout] at hshape
  have hrecompute := recompute_eq_of_ok hconfig hrun
  rw [houtput, shown_text fun hempty => if_pos hempty] at hrecompute
  refine ⟨computed, _, hrecompute, ?_, rfl, hshape⟩
  rcases h.recompute hg hwhole houtput hobstacle hsource horiginal hiterations hsize hsizes with
    ⟨e, left, herror⟩ | ⟨o, w', hok, hshows, -⟩
  · cases hrecompute.symm.trans herror
  · cases hrecompute.symm.trans hok
    exact hshows

/-- **Documents of the first version are opened and evaluated.** Let such a document be loaded, with
whole numbers in the matrices of its layout, none of which is the output. Then it is opened; just
the three matrices are declared, in the shapes of the layout, and look as the last entries for their
cells say; and the evaluation has met no issue and has a result with the sizes of the document,
which the outcome tells unless the output is called by the empty text. Nothing else that a document
of the first version holds has an effect: any other one with the same sizes, configuration and
entries for the three matrices is opened as the same workspace. -/
theorem importDocument_layout {fields : Fields} {doc : Document} (hdistinct : source.NamesDistinct)
    (hfirst : source.IsFirst fields) (hload : Document.load source w.sizeLimit = .ok doc)
    (hwhole : ∀ m ∈ doc.matrices, ∀ e ∈ m.2, e.value.IsWhole) (houtput : w.output = .text output)
    (hnotMem : output ∉ layoutNames) :
    ∃ contents w' o, readContents fields = .valid contents ∧
      w.importDocument source = .ok (.ok w') ∧ w'.IsOpened (ofFirst contents) ∧
      w'.ShowsLayout contents ∧
      w'.last? = some o ∧ o.isOk = true ∧ o.output? = some output ∧
      w'.graph.shape? output = some contents.dimensions.shape ∧
      (output ≠ "" → o.shape? = some contents.dimensions.shape) ∧
      ∀ (source' : Document.Source) (fields' : Fields) (contents' : Document.Contents),
        source'.IsFirst fields' → readContents fields' = .valid contents' →
        contents.SameLayout contents' → w.importDocument source' = .ok (.ok w') := by
  obtain ⟨contents, hcontents, rfl, hsound⟩ := hfirst.load_eq_ok_iff.1 hload
  have hsizes : (ofFirst contents).dimensions.IsWithin w.sizeLimit :=
    isWithin_of_isSound_ofFirst hsound
  have hobstacle := obstacle?_layoutPlan hnotMem
  obtain ⟨staged, hshows, hg, hstaged, hsame, hdoc⟩ :=
    exists_shows hdistinct hload read_layoutFormula hobstacle hsizes hwhole
  have hout : staged.output = .text output := (congrArg Workspace.output hsame).trans rfl
  have hlimit : staged.sizeLimit = w.sizeLimit := (congrArg Workspace.sizeLimit hsame).trans rfl
  have hsize : Size.check staged.rows staged.cols staged.sizeLimit =
      .ok contents.dimensions.shape := by
    rw [hsame]
    exact hsizes.check_eq_ok
  obtain ⟨computed, w', hrun, hshows', hlast, hshape⟩ := hshows.recompute_layout hg hstaged hout
    hnotMem ⟨_, hsize⟩ (hlimit ▸ Document.isWithin_dimensionsOf hdistinct hload hsizes)
  rw [after_eq_ok hrun] at hdoc
  -- the time of a document is not looked at
  have himport {source' : Document.Source} {timestamp : Option Text}
      (hload' : Document.load source' w.sizeLimit = .ok { ofFirst contents with timestamp }) :
      w.importDocument source' = .ok (.ok w') := by
    rw [importDocument_of_load hload' (houtput ▸ conflict?_eq_none read_layoutFormula hobstacle),
      houtput]
    exact congrArg (Except.map Except.ok) hdoc
  refine ⟨contents, w', _, hcontents, himport hload, (isOpened_of_ofDocument hdoc).1,
    hshows'.showsLayout, hlast, rfl, rfl, hshape, fun hne => if_neg hne, ?others⟩
  case others =>
    intro source' fields' contents' hfirst' hcontents' hlayout
    refine himport (hfirst'.load_eq_ok_iff.2 ⟨contents', hcontents', hlayout.ofFirst_eq.symm, ?_⟩)
    rw [hlayout.ofFirst_eq]
    exact ⟨hsound.formula, hsound.iterations, hsound.sizes, hsound.inside⟩

/-- The fields of a document of the first version with one row and two columns. A cell of its left
matrix has two entries. It also holds a matrix outside of the layout, with one entry. -/
def layoutFields (timestamp outside : Datum) : Fields :=
  let entry (row col value : Datum) : Datum :=
    .object [("row", row), ("col", col), ("value", value)]
  [("version", .int 1), ("timestamp", timestamp),
    ("dimensions", .object [("rows", .int 1), ("cols", .int 2)]),
    ("matrices", .object [("S_left", .list [entry (.int 0) (.int 1) (.int 7),
      entry (.int 0) (.int 1) (.int 2)]), ("KS", .list [entry outside (.int 9) (.int 5)]),
      ("K", .list [entry (.int 1) (.int 0) (.int 3)])])]

/-- What these fields hold. -/
def layoutContents (timestamp : Option Text) (outside : Nat) : Document.Contents where
  timestamp := timestamp
  dimensions := ⟨1, 2, Nat.one_pos, Nat.two_pos⟩
  configuration := .standard
  matrices := [("S_left", [⟨0, 1, .int 7, none, false⟩, ⟨0, 1, .int 2, none, false⟩]),
    ("KS", [⟨outside, 9, .int 5, none, false⟩]), ("K", [⟨1, 0, .int 3, none, false⟩])]

theorem namesDistinct_layoutFields :
    Document.Source.NamesDistinct (.datum (.object (layoutFields .null (.int 9)))) := by
  simp only [layoutFields, Document.Source.NamesDistinct, Datum.NamesDistinct,
    Datum.FieldsNamesDistinct, Datum.ItemsNamesDistinct, Association.names, List.map,
    List.nodup_cons, List.not_mem_nil, not_false_eq_true, List.nodup_nil, and_true]
  decide

/-- The sample is loaded, and there are whole numbers in it. -/
theorem exists_load_layoutFields : ∃ doc,
    Document.load (.datum (.object (layoutFields .null (.int 9)))) (.int 50) = .ok doc ∧
      ∀ m ∈ doc.matrices, ∀ e ∈ m.2, e.value.IsWhole := by
  have h : (Document.load (.datum (.object (layoutFields .null (.int 9)))) (.int 50)).toOption.map
      (fun doc => decide (∀ m ∈ doc.matrices, ∀ e ∈ m.2, e.value.IsWhole)) = some true := by
    decide +kernel
  obtain ⟨doc, hload, hwhole⟩ := Document.exists_of_toOption_map h
  exact ⟨doc, hload, of_decide_eq_true hwhole⟩

/-- The sample is opened with a kernel of two rows, and with the last entry of the cell with two; at
another time, and with the cell of the matrix outside of the layout elsewhere, it is the same. -/
theorem importDocument_layout_sample : ∃ w' o,
    (blank sampleSettings).importDocument
      (.datum (.object (layoutFields .null (.int 9)))) = .ok (.ok w') ∧
    (blank sampleSettings).importDocument
      (.datum (.object (layoutFields (.text "noon") (.text "0")))) = .ok (.ok w') ∧
    w'.graph.shape? "K" = some (2, 1) ∧ w'.graph.lookAt "S_left" 0 1 = ⟨.int 2, none, false⟩ ∧
    w'.last? = some o ∧ o.isOk = true ∧ o.shape? = some (1, 2) := by
  have hread : readContents (layoutFields .null (.int 9)) = .valid (layoutContents none 9) := rfl
  have hread' : readContents (layoutFields (.text "noon") (.text "0")) =
      .valid (layoutContents (some ("noon" : Text)) 0) := rfl
  obtain ⟨doc, hload, hwhole⟩ := exists_load_layoutFields
  obtain ⟨contents, w', o, hcontents, himport, -, hshows, hlast, hok, -, -, hshape, hothers⟩ :=
    importDocument_layout (w := blank sampleSettings) namesDistinct_layoutFields ⟨rfl, rfl⟩ hload
      hwhole rfl (by decide)
  cases hread.symm.trans hcontents
  refine ⟨w', o, himport, hothers _ _ _ ⟨rfl, rfl⟩ hread' ⟨rfl, rfl, ?_⟩,
    hshows.shape?_eq (kernelName, (2, 1)) (by decide), hshows.look leftName (by decide) 0 1, hlast,
    hok, hshape (by decide)⟩
  simp only [layoutNames, List.forall_mem_cons]
  exact ⟨rfl, rfl, rfl, nofun⟩

/-- **Without a name the result has no shape.** If the output is called by the empty text, a
document of the first version is opened and evaluated as always, and the output is there, with the
sizes of the document; but the outcome tells no shape, though the prediction does. -/
theorem importDocument_unnamed : ∃ fresh doc w' o,
    make { output := .text "" } = .ok fresh ∧ ("" : Text) ∉ layoutNames ∧
    Document.Source.IsFirst (.datum (.object (layoutFields .null (.int 9))))
      (layoutFields .null (.int 9)) ∧
    Document.load (.datum (.object (layoutFields .null (.int 9)))) fresh.sizeLimit = .ok doc ∧
    (∀ m ∈ doc.matrices, ∀ e ∈ m.2, e.value.IsWhole) ∧
    fresh.importDocument (.datum (.object (layoutFields .null (.int 9)))) = .ok (.ok w') ∧
    w'.last? = some o ∧ o.isOk = true ∧ o.output? = some ("" : Text) ∧
    w'.graph.shape? "" = some (1, 2) ∧
    (∃ check, w'.shapeCheck = .ok check ∧ check.shape? = some (1, 2)) ∧ o.shape? = none := by
  let fresh := blank { output := .text "" }
  let o : Outcome := ⟨some ("" : Text), none, [""], [], none⟩
  obtain ⟨doc, hload, hwhole⟩ := exists_load_layoutFields
  have himport : (fresh.importDocument
      (.datum (.object (layoutFields .null (.int 9))))).toOption.map (fun answer =>
        answer.toOption.map fun w' => decide (w'.last? = some o ∧
          w'.graph.shape? "" = some (1, 2) ∧
          w'.shapeCheck.toOption.map (·.shape?) = some (some (1, 2)))) = some (some true) := by
    decide +kernel
  obtain ⟨answer, hanswer, hshown⟩ := Document.exists_of_toOption_map himport
  obtain ⟨w', rfl, hparts⟩ := Document.exists_of_toOption_map hshown
  obtain ⟨hlast, hshape, hcheck⟩ := of_decide_eq_true hparts
  exact ⟨fresh, doc, w', o, make_eq_blank rfl rfl rfl rfl, by decide, ⟨rfl, rfl⟩, hload, hwhole,
    hanswer, hlast, rfl, rfl, hshape, Document.exists_of_toOption_map hcheck, rfl⟩

end Workspace

end CellLineage
