import CellLineage.Proofs.Workspace.Tended

/-!
# The plan of the formula

A workspace keeps its formula twice: as it was given, for whoever looks at the workspace or writes
it to a document, and as the plan that was read from it, which is what is checked and evaluated. A
formula is noted before it is read. One that is wrong has a plan too, which says what is wrong with
it, but one that cannot be read at all has none, and then the plan of an earlier formula stays
beside it. All other operations change both or none: an import takes them over from a new workspace,
and the rest leave them alone.

So whenever the formula can be read, the plan is what is read from it. It cannot be read only if it
was given to the workspace as it is, and is no text or holds an index without a value.

## Main definitions

* `Workspace.IsPlanned`: the plan is what is read from the formula.
* `Workspace.Evaluates`: the plan that is checked and evaluated in a workspace.

## Main results

* `Workspace.sameFormula_apply`: the operations that take no formula leave most settings alone.
* `Workspace.formula_apply`: what an operation does to the formula and its plan.
* `Workspace.IsReachable.hasPlan`: the plan of a workspace was read from some formula.
* `Workspace.plan_of_formula`: the plan after any run of operations.
* `Workspace.plan_outlives_formula`: a formula beside the plan of another one.
-/

namespace CellLineage

open Formula

/-- A document has the formula of its draft. -/
theorem Document.Draft.formula_of_document {d : Draft} {doc : Document} (h : d.document = .ok doc) :
    d.formula = .text doc.formula := by
  obtain ⟨dimensions, -, h⟩ := exists_of_bind_eq_ok h
  obtain ⟨configuration, -, h⟩ := exists_of_bind_eq_ok h
  obtain ⟨sizes, -, h⟩ := exists_of_bind_eq_ok h
  have hvalid : ∀ {c : Checked Document}, c.toExcept = .ok doc → c = .valid doc := by
    rintro (_ | _) hc <;> cases hc
    rfl
  obtain ⟨f, n, hf, -, rfl⟩ := Checked.seq_eq_valid_iff.1 (hvalid h)
  obtain ⟨formula, hformula, rfl⟩ := Checked.map_eq_valid_iff.1 hf
  rw [Checked.behind_eq_valid_iff] at hformula
  cases hd : d.formula with
  | text t =>
    rw [hd] at hformula
    cases hformula
    rfl
  | _ =>
    rw [hd] at hformula
    cases hformula

namespace Workspace

variable {w w' new : Workspace} {doc : Document}

/-- The plan is what is read from the formula. -/
def IsPlanned (w : Workspace) : Prop :=
  readFormula w.formula = .ok w.plan

/-- The plan is what is checked in the workspace, and what is evaluated there. -/
structure Evaluates (w : Workspace) (plan : Plan) : Prop where
  shapeCheck : w.shapeCheck = do
    let config ← w.config
    (ShapeCheck.ofPlan plan config).mapError .graph
  recompute : ∀ config, w.config = .ok config →
    (left Workspace.recompute w).graph = Graph.after (Graph.recompute plan config) w.graph

theorem evaluates_plan (w : Workspace) : w.Evaluates w.plan where
  shapeCheck := rfl
  recompute config hconfig := by
    rcases recompute_cases w with ⟨e, he, -⟩ | ⟨config', last?, hconfig', hrun⟩
    · cases he.symm.trans hconfig
    · cases hconfig'.symm.trans hconfig
      rw [hrun]

/-- A document that is written has the formula of the workspace. -/
theorem formula_of_document {timestamp : Text} (h : w.document timestamp = .ok doc) :
    w.formula = .text doc.formula :=
  Document.Draft.formula_of_document (eq_ok_of_mapError h)

/-- What is written and evaluated is one formula if the plan is that of the formula. -/
theorem IsPlanned.evaluates (h : w.IsPlanned) {timestamp : Text}
    (hdoc : w.document timestamp = .ok doc) :
    ∃ plan, Plan.read doc.formula = .ok plan ∧ w.Evaluates plan := by
  rw [IsPlanned, formula_of_document hdoc] at h
  exact ⟨w.plan, eq_ok_of_mapError h, evaluates_plan w⟩

/-! ### What operations do to the formula -/

theorem SameSettings.formula (h : SameSettings w w') : w'.formula = w.formula :=
  (congrArg Workspace.formula h).trans rfl

theorem SameSettings.plan (h : SameSettings w w') : w'.plan = w.plan :=
  (congrArg Workspace.plan h).trans rfl

theorem IsPlanned.of_sameSettings (h : w.IsPlanned) (hsame : SameSettings w w') : w'.IsPlanned := by
  rw [IsPlanned, hsame.formula, hsame.plan]
  exact h

/-- A formula that is given is noted, and so is its plan if it can be read. -/
theorem formula_setFormula (formula : Datum) (w : Workspace) :
    (left (setFormula formula) w).formula = formula ∧
      ((left (setFormula formula) w).IsPlanned ∨
        ∃ e, readFormula formula = .error e ∧ (left (setFormula formula) w).plan = w.plan) := by
  rcases setFormula_cases formula w with
    ⟨e, he, h⟩ | ⟨plan, hread, ⟨h, -⟩ | ⟨output, -, -, h⟩⟩
  · rw [h]
    exact ⟨rfl, .inr ⟨e, he, rfl⟩⟩
  · rw [h]
    exact ⟨rfl, .inl hread⟩
  · have hsame := sameSettings_declareBases plan { w with formula, plan }
    have hplanned : ({ w with formula, plan } : Workspace).IsPlanned := hread
    rw [h]
    exact ⟨hsame.formula, .inl (hplanned.of_sameSettings hsame)⟩

/-- Taking a formula changes that, its plan, the declared matrices and the graph only. -/
theorem left_setFormula_eq (formula : Datum) (w : Workspace) :
    let w' := left (setFormula formula) w
    w' = { w with
      formula := w'.formula
      plan := w'.plan
      shapes := w'.shapes
      graph := w'.graph } := by
  rcases setFormula_cases formula w with
    ⟨e, -, h⟩ | ⟨plan, -, ⟨h, -⟩ | ⟨output, -, -, h⟩⟩
  · rw [h]
  · rw [h]
  · rw [h]
    dsimp only
    rw [(sameSettings_declareBases plan { w with formula, plan })]

/-- The formula of a new workspace could be read. -/
theorem isPlanned_of_make {s : Settings} (h : make s = .ok new) : new.IsPlanned := by
  obtain ⟨-, -, hset⟩ := exists_checks_of_make h
  obtain ⟨plan, hread, hsame⟩ := setFormula_eq_ok hset
  have hplanned : ({ blank s with formula := s.formula, plan } : Workspace).IsPlanned := hread
  exact hplanned.of_sameSettings hsame

/-- An import brings the formula of its document with the plan. -/
theorem isPlanned_of_importDocument {source : Document.Source}
    (h : w.importDocument source = .ok (.ok w')) : w'.IsPlanned := by
  obtain ⟨doc, -, hdoc⟩ := exists_ofDocument_of_importDocument h
  obtain ⟨hopened, -⟩ := isOpened_of_ofDocument hdoc
  rw [IsPlanned, hopened.formula]
  exact congrArg (Except.mapError _) hopened.plan

/-- Formula and plan are as they were. -/
def KeepsFormula (w w' : Workspace) : Prop :=
  w'.formula = w.formula ∧ w'.plan = w.plan

theorem SameFormula.keepsFormula (h : SameFormula w w') : KeepsFormula w w' :=
  ⟨(congrArg Workspace.formula h).trans rfl, h.plan⟩

theorem SameSettings.sameFormula (h : SameSettings w w') : SameFormula w w' := by
  rw [SameFormula, h]

theorem Paints.sameFormula (h : Paints w w') : SameFormula w w' := by
  rw [SameFormula, h.eq]

theorem sameFormula_resize (name : Text) (rows cols : Datum) (w : Workspace) :
    SameFormula w (left (resize name rows cols) w) := by
  rcases exists_of_resize name rows cols w with h | ⟨shape, g, -, h⟩
  · rw [h]
    exact .refl w
  · rw [h]
    exact rfl

/-- The operation takes another formula, by itself or with a document. -/
def Operation.TakesFormula : Operation → Prop
  | .setFormula _ | .importDocument _ => True
  | _ => False

/-- Other operations leave the formula and most settings as they are. -/
theorem sameFormula_apply {op : Operation} (hop : ¬op.TakesFormula) (w : Workspace) :
    SameFormula w (op.apply w) := by
  by_cases hpainting : op.IsPainting
  · exact (paints_apply hpainting w).sameFormula
  cases op with
  | declare name rows? cols? => exact (sameSettings_declare name rows? cols? w).sameFormula
  | resize name rows cols => exact sameFormula_resize name rows cols w
  | loadTable name values color =>
    rcases loadTable_cases name values color w with h | ⟨rows, cols, h⟩
    · rw [Operation.apply, h]
      exact .refl w
    · exact (sameFormula_resize name (.int rows) (.int cols) w).trans h.sameFormula
  | setMirror enabled =>
    have hset : SameFormula w { w with mirror := enabled } := rfl
    exact hset.trans (paints_setMirror enabled w).sameFormula
  | recompute =>
    rcases recompute_cases w with ⟨e, -, h⟩ | ⟨config, last?, -, h⟩
    · rw [Operation.apply, h]
      exact .refl w
    · rw [Operation.apply, h]
      exact rfl
  | setFormula formula => exact absurd trivial hop
  | importDocument source => exact absurd trivial hop
  | _ => exact absurd trivial hpainting

theorem keepsFormula_apply {op : Operation} (hop : ¬op.TakesFormula) (w : Workspace) :
    KeepsFormula w (op.apply w) :=
  (sameFormula_apply hop w).keepsFormula

/-- **An operation and the formula.** Formula and plan both stay, or both are of a formula that can
be read, or a formula that cannot be read is given and the plan stays. -/
theorem formula_apply (op : Operation) (w : Workspace) :
    KeepsFormula w (op.apply w) ∨ (op.apply w).IsPlanned ∨
      ∃ formula e, op = .setFormula formula ∧ readFormula formula = .error e ∧
        (op.apply w).formula = formula ∧ (op.apply w).plan = w.plan := by
  by_cases htakes : op.TakesFormula
  swap
  · exact .inl (keepsFormula_apply htakes w)
  cases op with
  | setFormula formula =>
    obtain ⟨hformula, hplanned | ⟨e, he, hplan⟩⟩ := formula_setFormula formula w
    · exact .inr (.inl hplanned)
    · exact .inr (.inr ⟨formula, e, rfl, he, hformula, hplan⟩)
  | importDocument source =>
    rw [Operation.apply]
    split
    · next w' h => exact .inr (.inl (isPlanned_of_importDocument h))
    · exact .inl ⟨rfl, rfl⟩
    · exact .inl ⟨rfl, rfl⟩
  | _ => exact htakes.elim

/-! ### Runs -/

/-- The plan is that of the formula, or the formula was given by one of the operations and cannot be
read. -/
def IsPlannedBy (ops : List Operation) (w : Workspace) : Prop :=
  w.IsPlanned ∨ ∃ e, readFormula w.formula = .error e ∧ .setFormula w.formula ∈ ops

theorem IsPlannedBy.apply {ops : List Operation} (h : w.IsPlannedBy ops) (op : Operation) :
    (op.apply w).IsPlannedBy (ops ++ [op]) := by
  rcases formula_apply op w with ⟨hformula, hplan⟩ | hplanned | ⟨formula, e, rfl, he, hformula, -⟩
  · rcases h with hplanned | ⟨e, he, hmem⟩
    · refine .inl ?_
      rw [IsPlanned, hformula, hplan]
      exact hplanned
    · rw [← hformula] at he hmem
      exact .inr ⟨e, he, List.mem_append_left _ hmem⟩
  · exact .inl hplanned
  · rw [← hformula] at he
    refine .inr ⟨e, he, ?_⟩
    rw [hformula]
    exact List.mem_append_right _ List.mem_cons_self

/-- The plan was read from a formula, which may be an earlier one. -/
def HasPlan (w : Workspace) : Prop :=
  ∃ formula, readFormula formula = .ok w.plan

theorem HasPlan.exists_read (h : w.HasPlan) : ∃ text, Plan.read text = .ok w.plan := by
  obtain ⟨formula, hread⟩ := h
  rw [readFormula] at hread
  split at hread
  · next text _ => exact ⟨text, eq_ok_of_mapError hread⟩
  · cases hread

theorem HasPlan.apply (h : w.HasPlan) (op : Operation) : (op.apply w).HasPlan := by
  rcases formula_apply op w with ⟨-, hplan⟩ | hplanned | ⟨formula, e, -, -, -, hplan⟩
  · rw [HasPlan, hplan]
    exact h
  · exact ⟨_, hplanned⟩
  · rw [HasPlan, hplan]
    exact h

/-- The plan of a workspace was read from a formula. -/
theorem IsReachable.hasPlan (h : w.IsReachable) : w.HasPlan := by
  obtain ⟨s, new, ops, hmake, rfl⟩ := h
  exact List.foldlRecOn ops _ (⟨_, isPlanned_of_make hmake⟩ : new.HasPlan) fun _ h op _ =>
    h.apply op

/-- **The plan belongs to the formula** after a run of operations, of any length and with any
arguments, whether they stop part-way or not, unless the formula cannot be read at all and was given
by one of them. In either case it was read from some formula. If the workspace can be written, and
the formula in the document can be read, then that formula is what is checked and evaluated. -/
theorem plan_of_formula {s : Settings} (hmake : make s = .ok new) (ops : List Operation) :
    ((runAll new ops).IsPlanned ∨ ∃ e, readFormula (runAll new ops).formula = .error e ∧
      .setFormula (runAll new ops).formula ∈ ops) ∧
    (∃ formula, readFormula formula = .ok (runAll new ops).plan) ∧
    ∀ timestamp doc, (runAll new ops).document timestamp = .ok doc →
      (runAll new ops).formula = .text doc.formula ∧
      ∀ plan, Plan.read doc.formula = .ok plan → (runAll new ops).Evaluates plan := by
  have hrun : (runAll new ops).IsPlannedBy ops := by
    induction ops using List.reverseRecOn with
    | nil => exact .inl (isPlanned_of_make hmake)
    | append_singleton ops op ih =>
      rw [runAll, List.foldl_concat]
      exact ih.apply op
  have hreachable : (runAll new ops).IsReachable := ⟨s, new, ops, hmake, rfl⟩
  refine ⟨hrun, hreachable.hasPlan, fun timestamp doc hdoc => ?_⟩
  have hformula := formula_of_document hdoc
  refine ⟨hformula, fun plan hread => ?_⟩
  rcases hrun with hplanned | ⟨e, he, -⟩
  · obtain ⟨plan', hread', hevaluates⟩ := hplanned.evaluates hdoc
    cases hread'.symm.trans hread
    exact hevaluates
  · have hread' : readFormula (.text doc.formula) = .ok plan := congrArg (Except.mapError _) hread
    rw [hformula, hread'] at he
    cases he

/-- A formula with an index that is no number. -/
def unreadable : Text :=
  "A_\x7b²\x7d"

theorem readFormula_unreadable : ¬∃ plan, readFormula (.text unreadable) = .ok plan := by
  rintro ⟨plan, hread⟩
  have hnone : (readFormula (.text unreadable)).toOption.isSome = false := by decide +kernel
  rw [hread] at hnone
  cases hnone

/-- Once a document is imported the plan of the sample is that of the formula again, and the formula
of the document is what is evaluated. -/
theorem plan_of_formula_sample : ∃ new, make sampleSettings = .ok new ∧
    let w := runAll new [.setFormula (.text unreadable),
      .importDocument (.datum (Document.sampleDocument 1 "B"))]
    w.IsPlanned ∧ ∃ plan, Plan.read "A" = .ok plan ∧ w.Evaluates plan := by
  let new := left (setFormula sampleSettings.formula) (blank sampleSettings)
  let ops : List Operation := [.setFormula (.text unreadable),
    .importDocument (.datum (Document.sampleDocument 1 "B"))]
  obtain ⟨hplanned, -, hwritten⟩ := plan_of_formula make_sampleSettings ops
  have hplanned : (runAll new ops).IsPlanned := by
    refine hplanned.resolve_right ?_
    rintro ⟨e, he, -⟩
    have hsome : (readFormula (runAll new ops).formula).toOption.isSome = true := by decide +kernel
    rw [he] at hsome
    cases hsome
  have hdoc : ((runAll new ops).document "").toOption.map Document.formula = some ("A" : Text) := by
    decide +kernel
  obtain ⟨doc, hdoc, hformula⟩ := Document.exists_of_toOption_map hdoc
  have hread : Plan.read "A" = .ok (runAll new ops).plan := by decide +kernel
  refine ⟨new, make_sampleSettings, hplanned, _, hread, (hwritten "" doc hdoc).2 _ ?_⟩
  rw [hformula, hread]

/-- **A formula beside the plan of another one.** A formula that cannot be read is noted and
written, but the one before it is evaluated. -/
theorem plan_outlives_formula : ∃ new doc, make sampleSettings = .ok new ∧
    let w := runAll new [.setFormula (.text unreadable)]
    w.document "" = .ok doc ∧ doc.formula = unreadable ∧
    (¬∃ plan, readFormula w.formula = .ok plan) ∧ Plan.read "A*B" = .ok w.plan := by
  let new := left (setFormula sampleSettings.formula) (blank sampleSettings)
  have hdoc : ((runAll new [.setFormula (.text unreadable)]).document "").toOption.map
      Document.formula = some unreadable := by decide +kernel
  obtain ⟨doc, hdoc, hformula⟩ := Document.exists_of_toOption_map hdoc
  refine ⟨new, doc, make_sampleSettings, hdoc, hformula, ?_, by decide +kernel⟩
  rw [formula_of_document hdoc, hformula]
  exact readFormula_unreadable

end Workspace

end CellLineage
