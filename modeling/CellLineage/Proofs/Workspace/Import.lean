import CellLineage.Proofs.Document.Limits
import CellLineage.Proofs.Workspace.Declared

/-!
# Imports are all or nothing

An import reads and checks a document, makes a new workspace from it beside the old one, and takes
that over when all of it has worked. `importInto` is this as a run in the old workspace: each stage
may stop, and only the last one, `adopt`, writes to the workspace. It does what `importDocument` says
(`importInto_eq`), since the new workspace is made with the output matrix and the size limit of the
old one and never changes them.

So an import that is refused or stops leaves the workspace as it was, and one that succeeds leaves
what the document describes; of the old workspace only those two settings matter
(`importInto_allOrNothing`).

## Main definitions

* `adopt`: a workspace takes over all of another one but its output matrix and its size limit.
* `importInto`: an import, stage by stage.
* `IsOpened`: a workspace has the content of a document and has been evaluated.

## Main results

* `isOpened_of_importDocument`: what an import that succeeds leaves.
* `importInto_allOrNothing`: what any import leaves.
-/

namespace CellLineage.Workspace

open Formula

variable {w w' w₁ : Workspace} {doc : Document} {source : Document.Source}

/-! ### Runs that do not stop -/

section

variable {α β : Type}

/-- A run of two parts that does not stop goes through both. -/
theorem exists_of_bind_eq {x : Run α} {f : α → Run β} {b : β} (h : (x >>= f) w = .ok b w') :
    ∃ a w₁, x w = .ok a w₁ ∧ f a w₁ = .ok b w' := by
  cases hx : x w with
  | ok a w₁ => exact ⟨a, w₁, rfl, by rwa [bind_eq_of_ok hx] at h⟩
  | error e w₁ => cases (bind_eq_of_error hx).symm.trans h

theorem eq_ok_of_after {run : Run Unit} (h : after run w = .ok w') : run w = .ok () w' := by
  rw [after] at h
  split at h
  · next hrun => rw [hrun, Except.ok.inj h]
  · cases h

end

/-! ### What a document leaves of a new workspace -/

theorem sameSettings_addMatrix (doc : Document) (name : Text) (entries : List Document.Entry)
    (w : Workspace) : SameSettings w (left (addMatrix doc name entries) w) := by
  refine left_bind_of (sameSettings_declare name _ _ w) fun _ w₁ _ h₁ => h₁.trans ?_
  have hpaints : Paints w₁ (entries.foldl (fun w e =>
      w.update name e.row e.col e.value e.color (some e.isIdentity)) w₁) :=
    Graph.steps_foldl fun e _ w₂ _ => .single (.update w₂ ..)
  have hleft : SameSettings w₁ (entries.foldl (fun w e =>
      w.update name e.row e.col e.value e.color (some e.isIdentity)) w₁) := by
    rw [SameSettings, hpaints.eq]
  exact hleft

/-- Declaring and painting what a document lists changes no settings. -/
theorem sameSettings_addMatrices (doc : Document) (w : Workspace) :
    SameSettings w (left (do
      doc.matrixDimensions.forM fun m => declareSized m.1 m.2
      doc.matrices.forM fun m => addMatrix doc m.1 m.2) w) := by
  refine left_bind_of ?_ fun _ w₁ _ h₁ => ?_
  · exact left_forM_of rfl fun m _ w₁ h₁ => h₁.trans (sameSettings_declare m.1 _ _ w₁)
  · exact left_forM_of h₁ fun m _ w₂ h₂ => h₂.trans (sameSettings_addMatrix doc m.1 m.2 w₂)

/-- A formula that is taken without a stop is noted with its plan, and changes no other setting. -/
theorem setFormula_eq_ok {formula : Datum} (h : setFormula formula w = .ok () w') :
    ∃ plan, readFormula formula = .ok plan ∧ SameSettings { w with formula, plan } w' := by
  obtain ⟨plan, hread⟩ := exists_readFormula_of_setFormula h
  refine ⟨plan, hread, ?_⟩
  rw [← left_of_ok h]
  rcases setFormula_cases formula w with
    ⟨e, he, -⟩ | ⟨plan', hread', ⟨hleft, -⟩ | ⟨output, -, -, hleft⟩⟩
  · cases hread.symm.trans he
  · cases hread.symm.trans hread'
    rw [hleft]
    exact rfl
  · cases hread.symm.trans hread'
    rw [hleft]
    exact sameSettings_declareBases plan _

theorem liftGraph_eq_ok {α : Type} {run : Graph.Run α} {a : α} (h : liftGraph run w = .ok a w') :
    run w.graph = .ok a w'.graph ∧ w' = { w with graph := w'.graph } := by
  rw [liftGraph] at h
  split at h
  · next b g hrun =>
    cases h
    exact ⟨hrun, rfl⟩
  · cases h

theorem rethrow_eq_ok {α : Type} {x : Except Fault α} {a : α} (h : rethrow x w = .ok a w') :
    x = .ok a ∧ w' = w := by
  cases x with
  | ok b =>
    cases h
    exact ⟨rfl, rfl⟩
  | error e => cases h

theorem liftSize_eq_ok {α : Type} {x : Except SizeFault α} {a : α} (h : liftSize x w = .ok a w') :
    x = .ok a ∧ w' = w := by
  cases x with
  | ok b =>
    cases h
    exact ⟨rfl, rfl⟩
  | error e => cases h

/-- An evaluation that does not stop recomputes the graph and notes its outcome. -/
theorem recompute_eq_ok {outcome : Outcome} (h : Workspace.recompute w = .ok outcome w') :
    ∃ config o, w.config = .ok config ∧
      Graph.recompute w.plan config w.graph = .ok o w'.graph ∧ outcome = shown w.output o ∧
      w' = { w with graph := w'.graph, last? := some outcome } := by
  rw [Workspace.recompute, get_bind_eq] at h
  obtain ⟨config, w₁, hconfig, h⟩ := exists_of_bind_eq h
  obtain ⟨hconfig, rfl⟩ := rethrow_eq_ok hconfig
  obtain ⟨o, w₂, hlift, h⟩ := exists_of_bind_eq h
  obtain ⟨hrun, hgraph⟩ := liftGraph_eq_ok hlift
  cases h
  exact ⟨config, o, hconfig, hrun, rfl, by rw [hgraph]⟩

/-- The workspace has the content of a document, and it has been evaluated. -/
structure IsOpened (w : Workspace) (doc : Document) : Prop where
  formula : w.formula = .text doc.formula
  plan : Plan.read doc.formula = .ok w.plan
  rows : w.rows = .int doc.dimensions.rows
  cols : w.cols = .int doc.dimensions.cols
  symmetric : w.symmetric = .bool doc.configuration.symmetric
  mirror : w.mirror = .bool doc.configuration.mirror
  iterations : w.iterations = .int doc.iterations
  evaluated : w.last?.isSome = true

/-- A new workspace has the settings that it is made with. -/
theorem exists_of_make {s : Settings} (h : make s = .ok w) :
    ∃ plan, SameSettings { blank s with formula := s.formula, plan } w := by
  rw [make] at h
  obtain ⟨_, w₁, hsize, hrest⟩ := exists_of_bind_eq (eq_ok_of_after h)
  obtain ⟨-, rfl⟩ := liftSize_eq_ok hsize
  obtain ⟨_, w₂, hcount, hformula⟩ := exists_of_bind_eq hrest
  obtain ⟨-, rfl⟩ := liftSize_eq_ok hcount
  obtain ⟨plan, -, hsame⟩ := setFormula_eq_ok hformula
  exact ⟨plan, hsame⟩

/-- A document can be entered in stages: its matrices, its formula, and the evaluation. -/
theorem exists_of_enter (h : enter doc w = .ok () w') : ∃ w₁ w₂ outcome, SameSettings w w₁ ∧
    setFormula (.text doc.formula) w₁ = .ok () w₂ ∧ Workspace.recompute w₂ = .ok outcome w' := by
  obtain ⟨_, w₀, hdeclare, h⟩ := exists_of_bind_eq h
  obtain ⟨_, w₁, hadd, h⟩ := exists_of_bind_eq h
  obtain ⟨_, w₂, hformula, h⟩ := exists_of_bind_eq h
  obtain ⟨outcome, _, hrun, h⟩ := exists_of_bind_eq h
  cases h
  refine ⟨w₁, w₂, outcome, ?_, hformula, hrun⟩
  have hsame := sameSettings_addMatrices doc w
  rwa [left_of_ok ((bind_eq_of_ok hdeclare).trans hadd)] at hsame

/-- Entering a document in a new workspace with its sizes and modes leaves its content there, and
neither the output matrix nor the size limit changes. -/
theorem isOpened_of_enter {output sizeLimit : Datum}
    (hw : make (settingsFor doc output sizeLimit) = .ok w) (h : enter doc w = .ok () w') :
    w'.IsOpened doc ∧ w'.output = output ∧ w'.sizeLimit = sizeLimit := by
  obtain ⟨plan₀, hnew⟩ := exists_of_make hw
  obtain ⟨w₁, w₂, outcome, hsame, hformula, hrun⟩ := exists_of_enter h
  obtain ⟨plan, hread, htaken⟩ := setFormula_eq_ok hformula
  obtain ⟨-, -, -, -, -, hlast⟩ := recompute_eq_ok hrun
  have hsettings := hnew.trans hsame
  rw [SameSettings] at hsettings htaken
  rw [hlast, htaken, hsettings]
  exact ⟨⟨rfl, eq_ok_of_mapError hread, rfl, rfl, rfl, rfl, rfl, rfl⟩, rfl, rfl⟩

/-! ### Imports -/

/-- The workspace that a document describes comes from entering it in a new one. -/
theorem exists_of_ofDocument {output sizeLimit : Datum}
    (h : ofDocument doc output sizeLimit = .ok w') :
    ∃ new, make (settingsFor doc output sizeLimit) = .ok new ∧ enter doc new = .ok () w' := by
  obtain ⟨new, hmake, hafter⟩ := exists_of_bind_eq_ok h
  exact ⟨new, hmake, eq_ok_of_after hafter⟩

/-- The workspace that a document describes has the document's content and the given settings. -/
theorem isOpened_of_ofDocument {output sizeLimit : Datum}
    (h : ofDocument doc output sizeLimit = .ok w') :
    w'.IsOpened doc ∧ w'.output = output ∧ w'.sizeLimit = sizeLimit := by
  obtain ⟨new, hmake, henter⟩ := exists_of_ofDocument h
  exact isOpened_of_enter hmake henter

/-- The workspace takes over all of another one but its output matrix and its size limit. -/
def adopt (staged : Workspace) : Run Unit :=
  modify fun w => { staged with output := w.output, sizeLimit := w.sizeLimit }

/-- An import, stage by stage: a document is loaded, a new workspace is made from it, and that is
taken over. A document may be refused before. -/
def importInto (source : Document.Source) : Run (Except Document.Refusal Unit) := do
  let w ← get
  match Document.load source w.sizeLimit with
  | .ok doc =>
    match ← rethrow (conflict? doc w.output) with
    | some why => return .error why
    | none =>
      adopt (← rethrow (ofDocument doc w.output w.sizeLimit))
      return .ok ()
  | .error (.refused why) => return .error why
  | .error .oversized => throw .oversized
  | .error (.index e) => throw (.graph (.index e))
  | .error (.limit e) => throw (.size e)

/-- A workspace with the same output matrix and the same size limit is taken over as it is. -/
theorem adopt_eq {staged : Workspace} (houtput : staged.output = w.output)
    (hlimit : staged.sizeLimit = w.sizeLimit) : adopt staged w = .ok () staged := by
  have heq : { staged with output := w.output, sizeLimit := w.sizeLimit } = staged := by
    rw [← houtput, ← hlimit]
  exact congrArg (EStateM.Result.ok ()) heq

/-- **An import stage by stage does what is said of it as a whole**: the workspace stays as it is
until there is a new one to take its place. -/
theorem importInto_eq (source : Document.Source) (w : Workspace) :
    importInto source w =
      match w.importDocument source with
      | .ok (.ok w') => .ok (.ok ()) w'
      | .ok (.error why) => .ok (.error why) w
      | .error e => .error e w := by
  rw [importInto, get_bind_eq, importDocument]
  cases Document.load source w.sizeLimit with
  | error stop => cases stop <;> rfl
  | ok doc =>
    cases hconflict : conflict? doc w.output with
    | error e => simp only [hconflict]; rfl
    | ok why? =>
      cases why? with
      | some why => simp only [hconflict]; rfl
      | none =>
        cases hdoc : ofDocument doc w.output w.sizeLimit with
        | error e => simp only [hconflict, hdoc]; rfl
        | ok staged =>
          obtain ⟨-, houtput, hlimit⟩ := isOpened_of_ofDocument hdoc
          have hadopt := adopt_eq houtput hlimit
          have hrun : (do adopt staged; return .ok () : Run (Except Document.Refusal Unit)) w =
              .ok (.ok ()) staged := bind_eq_of_ok hadopt
          simp only [hconflict, hdoc]
          exact hrun

/-- An import is the operation of that name, whatever comes of it. -/
theorem left_importInto (source : Document.Source) (w : Workspace) :
    left (importInto source) w = (Operation.importDocument source).apply w := by
  rw [left, importInto_eq, Operation.apply]
  cases w.importDocument source with
  | error e => rfl
  | ok result => cases result <;> rfl

/-- Only the output matrix and the size limit of a workspace matter to an import. -/
theorem importDocument_congr {v : Workspace} (houtput : v.output = w.output)
    (hlimit : v.sizeLimit = w.sizeLimit) (source : Document.Source) :
    v.importDocument source = w.importDocument source := by
  rw [importDocument, importDocument, houtput, hlimit]

/-- An import that succeeds has loaded a document and leaves the workspace that it describes. -/
theorem exists_ofDocument_of_importDocument (h : w.importDocument source = .ok (.ok w')) :
    ∃ doc, Document.load source w.sizeLimit = .ok doc ∧
      ofDocument doc w.output w.sizeLimit = .ok w' := by
  rw [importDocument] at h
  cases hload : Document.load source w.sizeLimit with
  | error stop =>
    rw [hload] at h
    cases stop <;> cases h
  | ok doc =>
    rw [hload] at h
    obtain ⟨conflict?, -, h⟩ := exists_of_bind_eq_ok h
    cases conflict? with
    | some why => cases h
    | none =>
      obtain ⟨staged, hdoc, h⟩ := exists_of_bind_eq_ok h
      cases h
      exact ⟨doc, rfl, hdoc⟩

/-- **An import is all or nothing.** If it stops or the document is refused, the workspace is as it
was. If it succeeds, the output matrix and the size limit are as they were and everything else is
the document's. Any other workspace with the same two settings fares the same, and after an import
that succeeds it is the very same workspace, in all settings and in its graph. -/
theorem importInto_allOrNothing (source : Document.Source) (w : Workspace) :
    left (importInto source) w = (Operation.importDocument source).apply w ∧
    match importInto source w with
    | .error e left => left = w ∧ ∀ v : Workspace, v.output = w.output →
        v.sizeLimit = w.sizeLimit → importInto source v = .error e v
    | .ok (.error why) left => left = w ∧ ∀ v : Workspace, v.output = w.output →
        v.sizeLimit = w.sizeLimit → importInto source v = .ok (.error why) v
    | .ok (.ok ()) left =>
      left.output = w.output ∧ left.sizeLimit = w.sizeLimit ∧
      (∃ doc new, Document.load source w.sizeLimit = .ok doc ∧ left.IsOpened doc ∧
        make (settingsFor doc w.output w.sizeLimit) = .ok new ∧ enter doc new = .ok () left) ∧
      ∀ v : Workspace, v.output = w.output → v.sizeLimit = w.sizeLimit →
        importInto source v = .ok (.ok ()) left := by
  refine ⟨left_importInto source w, ?_⟩
  have hother : ∀ v : Workspace, v.output = w.output → v.sizeLimit = w.sizeLimit →
      importInto source v = match w.importDocument source with
        | .ok (.ok w') => .ok (.ok ()) w'
        | .ok (.error why) => .ok (.error why) v
        | .error e => .error e v := fun v houtput hlimit => by
    rw [importInto_eq, importDocument_congr houtput hlimit]
  rw [importInto_eq]
  cases himport : w.importDocument source with
  | error e =>
    rw [himport] at hother
    exact ⟨rfl, hother⟩
  | ok result =>
    rw [himport] at hother
    cases result with
    | error why => exact ⟨rfl, hother⟩
    | ok left =>
      obtain ⟨doc, hload, hdoc⟩ := exists_ofDocument_of_importDocument himport
      obtain ⟨new, hmake, henter⟩ := exists_of_ofDocument hdoc
      obtain ⟨hopened, houtput, hlimit⟩ := isOpened_of_enter hmake henter
      exact ⟨houtput, hlimit, ⟨doc, new, hload, hopened, hmake, henter⟩, hother⟩

/-- In the sample a new workspace and one with other content become the same one. -/
theorem importInto_allOrNothing_sample :
    let source := Document.Source.datum (Document.sampleDocument 1 "B")
    let v := { blank sampleSettings with formula := .text "A*B", rows := .int 3 }
    ∃ left : Workspace, importInto source (blank sampleSettings) = .ok (.ok ()) left ∧
      importInto source v = .ok (.ok ()) left := by
  intro source v
  have hsucceeds : (match importInto source (blank sampleSettings) with
      | .ok (.ok ()) _ => true
      | _ => false) = true := by decide +kernel
  have hall := (importInto_allOrNothing source (blank sampleSettings)).2
  split at hsucceeds
  · next left himport =>
    rw [himport] at hall
    exact ⟨left, himport, hall.2.2.2 v rfl rfl⟩
  · cases hsucceeds

end CellLineage.Workspace
