import CellLineage.Proofs.Evaluation.Resembles
import CellLineage.Proofs.Recompute.Repeat

/-!
# Recomputes in step

Two graphs whose input matrices are painted the same, but for the paint of zeros, are rebuilt to
graphs that resemble each other. Running a plan then ends alike: with the same outcome, and graphs
that resemble each other, or at the same fault. The shape that the output had before matters only if
nothing is computed.

A graph of whole numbers is in step with itself, so a recompute of it leaves whole numbers.

## Main definitions

* `Graph.ResemblesOn`: graphs make the same of an input matrix, but for the paint of zeros.

## Main results

* `Graph.alike_rebuild`: rebuilding graphs with the same input.
* `Graph.InStep.evaluatePlan`, `Graph.InStep.runPlan`: running a plan in graphs in step.
* `Graph.isInt_after_recompute`: whole numbers stay whole numbers.
* `Graph.recompute_resembles`: recomputing graphs with the same input.
-/

namespace CellLineage

open Formula

/-- Unless the places hold zero they are painted the same, and if all values are whole numbers they
hold the same in any case. -/
structure PaintedCell.Resembles (whole : Prop) (p q : PaintedCell) : Prop where
  isNonzero : q.value.isNonzero = p.value.isNonzero
  value : p.value.isNonzero = true ∨ whole → q.value = p.value
  isInt : whole → ∃ n, p.value = .int n
  color : p.value.isNonzero = true → q.color = p.color
  isIdentity : p.value.isNonzero = true → q.isIdentity = p.isIdentity

theorem PaintedCell.Resembles.toCell {whole : Prop} {p q : PaintedCell} (h : p.Resembles whole q)
    (id : CellId) (matrix : Text) :
    (p.toCell id matrix).Resembles whole (q.toCell id matrix) where
  id := rfl
  isNonzero := h.isNonzero
  value := h.value
  isInt hw := Cell.isInt_iff.2 (h.isInt hw)
  color := h.color
  isIdentity := h.isIdentity
  dependencies := rfl
  dependents := rfl

namespace Cell.Resembles

variable {whole : Prop} {c d : Cell}

theorem core (h : c.Resembles whole d) : c.core.Resembles whole d.core :=
  { h with dependents := rfl }

theorem of_core (h : c.core.Resembles whole d.core) (hd : d.dependents = c.dependents) :
    c.Resembles whole d :=
  { h with dependents := hd }

end Cell.Resembles

namespace Graph

variable {whole : Prop} {before before' g g' g₁ g₁' : Graph} {config : Config} {plan : Plan}
  {name : Text}

/-! ### Rebuilding -/

/-- The graphs give an input matrix the same shape, and what is painted there resembles each
other. -/
def ResemblesOn (whole : Prop) (g g' : Graph) (config : Config) (name : Text) : Prop :=
  g'.inputShape config name = g.inputShape config name ∧
    ∀ i j, i < (g.inputShape config name).1 → j < (g.inputShape config name).2 →
      (g.paintAt name i j).Resembles whole (g'.paintAt name i j)

/-- What is painted at a position resembles itself. -/
theorem resembles_paintAt (hint : whole → ∀ id, (g.cell id).IsInt) (name : Text) (i j : Nat) :
    (g.paintAt name i j).Resembles whole (g.paintAt name i j) := by
  refine ⟨rfl, fun _ => rfl, fun hw => ?_, fun _ => rfl, fun _ => rfl⟩
  rw [paintAt, cellAt?]
  cases g.idAt? name i j with
  | none => exact ⟨0, rfl⟩
  | some id => exact Cell.isInt_iff.1 (hint hw id)

/-- What is painted on a matrix resembles itself. -/
theorem resemblesOn_self (hint : whole → ∀ id, (g.cell id).IsInt) (config : Config) (name : Text) :
    g.ResemblesOn whole g config name :=
  ⟨rfl, fun i j _ _ => resembles_paintAt hint name i j⟩

/-- Fresh matrices that are painted from what resembles each other. -/
theorem Resembles.of_restores (h : g.Resembles whole g') {b : Block}
    (hb : before.Restores g g₁ name b) (hb' : before'.Restores g' g₁' name b)
    (hpaint : ∀ i j, i < b.rows → j < b.cols →
      (before.paintAt name i j).Resembles whole (before'.paintAt name i j)) :
    g₁.Resembles whole g₁' := by
  have hadd := h.addMatrix name b.rows_pos b.cols_pos
  refine ⟨hb.toSameTables.symm.trans (hadd.toSameTables.trans hb'.toSameTables), fun id => ?_⟩
  refine Cell.Resembles.of_core ?_ ?_
  · change (g₁.core id).Resembles whole (g₁'.core id)
    by_cases hid : id ∈ g.idSet b
    · obtain ⟨i, j, hi, hj, rfl⟩ := hid
      have hcore := hb.coreAt hi hj
      have hcore' := hb'.coreAt hi hj
      rw [coreAt, hb.idAt_eq, idAt_addMatrix] at hcore
      rw [coreAt, hb'.idAt_eq, idAt_addMatrix, h.idAt_eq] at hcore'
      rw [hcore, hcore']
      exact (hpaint i j hi hj).toCell _ name
    · have hid' : id ∉ g'.idSet b := by rwa [h.idSet_eq]
      rw [hb.core_eq hid, hb'.core_eq hid']
      exact (hadd.cell id).core
  · rw [hb.dependents_eq, hb'.dependents_eq, (hadd.cell id).dependents]

/-- Graphs in which an input matrix resembles each other make the same of it. -/
theorem InStep.restoreInput (h : g.InStep whole g') (hconfig : config.HasCells)
    (hg : g.IsWellFormed) (hg' : g'.IsWellFormed)
    (hbefore : before.IsMinted) (hbefore' : before'.IsMinted)
    (hpaint : before.ResemblesOn whole before' config name) (hname : ∀ k, name ≠ temporaryName k) :
    Alike whole (fun g g' => g.InStep whole g' ∧ g.IsWellFormed ∧ g'.IsWellFormed)
      (restoreInput config name (before.snapshot? name) g)
      (restoreInput config name (before'.snapshot? name) g') := by
  obtain ⟨g₁, hrun, hmakes, hrestores⟩ := restoreInput_spec hconfig hbefore hg name
  obtain ⟨g₁', hrun', hmakes', hrestores'⟩ := restoreInput_spec hconfig hbefore' hg' name
  have hblock : g'.nextBlock _ _ (inputShape_pos hconfig before' name).1
      (inputShape_pos hconfig before' name).2 = g.nextBlock _ _
        (inputShape_pos hconfig before name).1 (inputShape_pos hconfig before name).2 := by
    simp only [nextBlock, hpaint.1, h.minted]
  rw [hblock] at hrestores'
  rw [hrun, hrun']
  exact .ok () ⟨⟨h.of_restores hrestores hrestores' hpaint.2, h.spares.of_makes hmakes fun k _ =>
    hname k⟩, (hmakes.writesOnly hg).isWellFormed, (hmakes'.writesOnly hg').isWellFormed⟩

/-- **Rebuilding graphs** in which the input matrices resemble each other ends alike. -/
theorem alike_rebuild (hconfig : config.HasCells) (hg : g.IsWellFormed) (hg' : g'.IsWellFormed)
    (hstem : g'.stem = g.stem) {names : List Text}
    (hpaint : ∀ name ∈ names, g.ResemblesOn whole g' config name)
    (hnames : ∀ name ∈ names, ∀ k, name ≠ temporaryName k) :
    Alike whole (fun g g' => g.InStep whole g' ∧ g.IsWellFormed ∧ g'.IsWellFormed)
      (rebuild config names g) (rebuild config names g') := by
  have hclear : g'.clear = g.clear := congrArg empty hstem
  have hstart : g.clear.InStep whole g'.clear := by
    rw [hclear]
    refine ⟨.of_isInt fun _ id => ?_, fun k _ hk => ?_⟩
    · rw [cell_of_notMem (g := g.clear) Std.ExtTreeMap.not_mem_empty]
      rfl
    · exact Std.ExtTreeMap.not_mem_empty hk
  simp only [rebuild, get_bind_eq, set_bind_eq]
  refine Alike.forM ⟨hstart, isWellFormed_empty _, isWellFormed_empty _⟩
    fun name hname g₁ g₁' h₁ => ?_
  exact h₁.1.restoreInput hconfig h₁.2.1 h₁.2.2 hg.toIsMinted hg'.toIsMinted (hpaint name hname)
    (hnames name hname)

/-! ### Running statements -/

namespace InStep

theorem resolve_eq (h : g.InStep whole g') (p : Product) (n : Int) :
    g'.resolve p n = g.resolve p n := by
  rw [resolve, h.matrices, resolve]

theorem nextIndex_eq (h : g.InStep whole g') (base : Text) :
    g'.nextIndex base = g.nextIndex base := by
  rw [nextIndex, h.matrices, nextIndex]

theorem evaluateStatement (h : g.InStep whole g') (p : Product) (n : Int) (progress : Progress) :
    Alike whole (InStep whole) (evaluateStatement p n progress g)
      (evaluateStatement p n progress g') := by
  simp only [Graph.evaluateStatement, get_bind_eq, h.resolve_eq]
  refine Alike.bind (.liftIndex h _) fun p g₁ g₁' h₁ => ?_
  exact Alike.bind (h₁.evaluate p progress.occurrence) fun e _ _ h₂ => .ok _ h₂

theorem record (h : g.InStep whole g') (result : Text) {target : Text} (progress : Progress)
    (htarget : ∀ k, target ≠ temporaryName k) :
    Alike whole (InStep whole) (record result target progress g)
      (record result target progress g') := by
  refine .ok _ ?_
  have hcopy := h.copy result target
  generalize hrun : g.copy result target = copied? at hcopy ⊢
  generalize g'.copy result target = copied?' at hcopy ⊢
  cases hcopy with
  | none => exact h
  | some h₁ =>
    exact ⟨h₁, h.spares.of_makes (makes_copy hrun fun s _ => g.supplies_univ false s) fun k _ =>
      htarget k⟩

theorem runBaseCases (h : g.InStep whole g') {ss : List Statement} (progress : Progress)
    (htargets : ∀ s ∈ ss, ∀ k, s.target.name ≠ temporaryName k) :
    Alike whole (InStep whole) (runBaseCases ss progress g) (runBaseCases ss progress g') := by
  induction ss generalizing progress g g' with
  | nil => exact .ok _ h
  | cons s ss ih =>
    obtain ⟨hs, hss⟩ := List.forall_mem_cons.1 htargets
    unfold Graph.runBaseCases
    cases s.product? with
    | none => exact ih h progress hss
    | some p =>
      refine Alike.bind (h.evaluateStatement p 0 progress) fun evaluated g₁ g₁' h₁ => ?_
      obtain ⟨result?, progress⟩ := evaluated
      cases result? with
      | none => exact ih h₁ progress hss
      | some result =>
        exact Alike.bind (h₁.record result progress hs) fun progress _ _ h₂ => ih h₂ progress hss

theorem runRecurrence (h : g.InStep whole g') {target : Reference} (p : Product) (count : Nat)
    (index : Int) (progress : Progress) (htarget : IsBase target.base) :
    Alike whole (InStep whole) (runRecurrence target p count index progress g)
      (runRecurrence target p count index progress g') := by
  induction count generalizing index progress g g' with
  | zero => exact .ok _ h
  | succ count ih =>
    unfold Graph.runRecurrence
    refine Alike.bind (h.evaluateStatement p _ progress) fun evaluated g₁ g₁' h₁ => ?_
    obtain ⟨result?, progress⟩ := evaluated
    cases result? with
    | none => exact .ok _ h₁
    | some result =>
      cases hname : memberName? target.base index with
      | error e => exact .error (Fault.mayStop_index whole e) h₁
      | ok name =>
        have hpublic := (isPublic_of_memberName? htarget hname).isOriginal.1
        simp only [Graph.liftIndex, pure_bind]
        exact Alike.bind (h₁.record result progress hpublic) fun progress _ _ h₂ =>
          ih h₂ (index + 1) progress

theorem applyRecurrence (h : g.InStep whole g') (p : IterativePlan) (progress : Progress)
    (hcount : config.iterations?.isSome)
    (hbase : ∀ s, p.recurrence? = some s → IsBase s.target.base) :
    Alike whole (InStep whole) (applyRecurrence p config progress g)
      (applyRecurrence p config progress g') := by
  obtain ⟨count, hcount⟩ := Option.isSome_iff_exists.1 hcount
  unfold Graph.applyRecurrence
  cases hs : p.recurrence? with
  | none => exact .ok _ h
  | some s =>
    dsimp only
    cases s.product? with
    | none => exact .ok _ h
    | some product =>
      simp only [get_bind_eq, h.nextIndex_eq, recurrenceCount, hcount, rethrow, pure_bind]
      exact Alike.bind (.liftIndex h _) fun index _ _ h₁ =>
        h₁.runRecurrence product count index progress (hbase s hs)

end InStep

/-- No name of a formula is that of an intermediate result. -/
theorem ne_temporaryName {r : Reference} (hr : IsBase r.base) (k : Nat) :
    r.name ≠ temporaryName k := by
  intro he
  have hat : .char '@' ∉ r.name.symbols := he ▸ at_notMem_temporaryName k
  exact (isPublic_name hr hat).isOriginal.1 k he

/-- **Evaluating a plan** in graphs in step ends alike. -/
theorem InStep.evaluatePlan (h : g.InStep whole g') {formula : Text}
    (hread : Plan.read formula = .ok plan) (hcount : config.iterations?.isSome) :
    Alike whole (InStep whole) (evaluatePlan config plan g) (evaluatePlan config plan g') := by
  cases plan with
  | simple p =>
    rw [Graph.evaluatePlan]
    cases p.product? with
    | none => exact .ok _ h
    | some product => exact Alike.bind (h.evaluate product 0) fun e _ _ h₁ => .ok _ h₁
  | iterative p =>
    have hbase : ∀ s ∈ p.statements, IsBase s.target.base := fun s hs =>
      (Plan.isWritten_of_read hread s hs).1
    rw [Graph.evaluatePlan]
    refine Alike.bind ?_ fun progress _ _ h₁ => .ok _ h₁
    rw [runStatements_eq]
    refine Alike.bind (h.runBaseCases _ fun s hs => ne_temporaryName (hbase s ?_))
      fun progress _ _ h₁ => h₁.applyRecurrence p progress hcount fun s hs => hbase s ?_
    · exact List.mem_append_left _ hs
    · exact List.mem_append_right _ (Option.mem_toList.2 hs)

/-! ### The output -/

/-- Making the output of the same result, with the same shape as before. -/
theorem Resembles.finish (h : g.Resembles whole g') (before : Graph) (config : Config)
    (result? : Option Text) :
    Alike whole (Resembles whole) (finish config (before.shape? config.output) result? g)
      (finish config (before.shape? config.output) result? g') := by
  cases result? with
  | some result =>
    have hcopy := h.copy result config.output
    refine .ok () ?_
    generalize g.copy result config.output = copied? at hcopy ⊢
    generalize g'.copy result config.output = copied?' at hcopy ⊢
    cases hcopy with
    | none => exact h
    | some h₁ => exact h₁
  | none =>
    cases hb : before.matrices[config.output]? with
    | none =>
      rw [shape?, hb, Option.map_none]
      exact .ok () h
    | some b =>
      rw [shape?, hb, Option.map_some, Block.shape]
      simp only [Graph.finish, get_bind_eq, h.hasMatrix_eq]
      split
      · exact .ok () h
      · rw [initMatrix_eq_ok b.rows_pos b.cols_pos, initMatrix_eq_ok b.rows_pos b.cols_pos]
        exact .ok () (h.addMatrix config.output b.rows_pos b.cols_pos)

theorem Resembles.outcome (h : g.Resembles whole g') (config : Config) (computed : List Text)
    (issues : List Issue) : Alike whole (Resembles whole) (outcome config computed issues g)
      (outcome config computed issues g') := by
  simp only [Graph.outcome, get_bind_eq, h.hasMatrix_eq, h.shape?_eq]
  split <;> exact .ok _ h

/-- **Running a plan** in graphs in step ends alike. -/
theorem InStep.runPlan (h : g.InStep whole g') (before : Graph) {formula : Text}
    (hread : Plan.read formula = .ok plan) (hcount : config.iterations?.isSome) :
    Alike whole (Resembles whole) (runPlan config (before.shape? config.output) plan g)
      (runPlan config (before.shape? config.output) plan g') := by
  simp only [runPlan_eq]
  refine Alike.bind_of_imp (h.evaluatePlan hread hcount) (fun _ _ h₁ => h₁.toResembles)
    fun results g₁ g₁' h₁ => ?_
  refine Alike.bind (h₁.toResembles.finish before config results.result?) fun _ _ _ h₂ => ?_
  exact h₂.outcome config results.computed results.issues

/-! ### The shape that the output had -/

/-- A plan has a result if and only if it computes something. -/
theorem result?_eq_none_iff {results : Results} (h : evaluatePlan config plan g = .ok results g₁) :
    results.result? = none ↔ results.computed = [] := by
  cases plan with
  | simple p =>
    rw [evaluatePlan] at h
    cases hproduct : p.product? with
    | none =>
      rw [hproduct] at h
      cases h
      simp
    | some product =>
      rw [hproduct] at h
      obtain ⟨e, g₂, -, h⟩ := exists_run_of_bind h
      cases h
      cases e.result? <;> simp
  | iterative p =>
    obtain ⟨progress, g₂, -, h⟩ := exists_run_of_bind h
    cases h
    exact List.getLast?_eq_none_iff

/-- **The shape that the output had** before a run matters only if nothing is computed. -/
theorem runPlan_of_previous (hg : g.IsWellFormed) (before before' : Graph) (plan : Plan)
    (config : Config) :
    (∃ e g₁, runPlan config (before.shape? config.output) plan g = .error e g₁ ∧
      runPlan config (before'.shape? config.output) plan g = .error e g₁) ∨
    ∃ o o' g₁ g₁', runPlan config (before.shape? config.output) plan g = .ok o g₁ ∧
      runPlan config (before'.shape? config.output) plan g = .ok o' g₁' ∧
      o'.computed = o.computed ∧ o'.issues = o.issues ∧
      (o.computed ≠ [] → o' = o ∧ g₁' = g₁) := by
  simp only [runPlan_eq]
  cases heval : evaluatePlan config plan g with
  | error e g₁ => exact .inl ⟨e, g₁, bind_eq_of_error heval, bind_eq_of_error heval⟩
  | ok results g₁ =>
    have hg₁ := (writes_evaluatePlan plan config g).edits.isWellFormed hg
    rw [after_of_ok heval] at hg₁
    right
    simp only [bind_eq_of_ok heval]
    cases hresult : results.result? with
    | some result =>
      obtain ⟨o, houtcome, hcomputed, hissues, -⟩ := outcome_spec config results.computed
        results.issues ((g₁.copy result config.output).getD g₁)
      exact ⟨o, o, _, _, houtcome, houtcome, rfl, rfl, fun _ => ⟨rfl, rfl⟩⟩
    | none =>
      obtain ⟨g₂, hfinish, -⟩ := finish_none_spec hg₁ before config
      obtain ⟨g₂', hfinish', -⟩ := finish_none_spec hg₁ before' config
      obtain ⟨o, houtcome, hcomputed, hissues, -⟩ :=
        outcome_spec config results.computed results.issues g₂
      obtain ⟨o', houtcome', hcomputed', hissues', -⟩ :=
        outcome_spec config results.computed results.issues g₂'
      refine ⟨o, o', g₂, g₂', (bind_eq_of_ok hfinish).trans houtcome,
        (bind_eq_of_ok hfinish').trans houtcome', hcomputed'.trans hcomputed.symm,
        hissues'.trans hissues.symm, fun hne => absurd ?_ hne⟩
      rw [hcomputed]
      exact (result?_eq_none_iff heval).1 hresult

/-! ### Recomputing -/

/-- The settings and the formula of an evaluation fit: the input matrices are known, none of them
has the name of an intermediate result, and a recurrence is applied a whole number of times. -/
structure Fits (plan : Plan) (config : Config) (names : List Text) : Prop where
  hasCells : config.HasCells
  obstacle? : plan.obstacle? config.output = none
  iterations? : config.iterations?.isSome
  read : ∃ formula, Plan.read formula = .ok plan
  inputs : inputNames plan config = .ok names
  inputs_ne : ∀ name ∈ names, ∀ k, name ≠ temporaryName k

namespace Fits

variable {names : List Text}

/-- Rebuilding the input and running the plan, with the same shape of the output before. -/
theorem alike (h : Fits plan config names) (hg : g.IsWellFormed) (hg' : g'.IsWellFormed)
    (hstem : g'.stem = g.stem) (hpaint : ∀ name ∈ names, g.ResemblesOn whole g' config name)
    (before : Graph) :
    Alike whole (Resembles whole)
      ((rebuild config names >>= fun _ => runPlan config (before.shape? config.output) plan) g)
      ((rebuild config names >>= fun _ =>
        runPlan config (before.shape? config.output) plan) g') := by
  obtain ⟨formula, hread⟩ := h.read
  have hrebuild := alike_rebuild h.hasCells hg hg' hstem hpaint h.inputs_ne
  exact hrebuild.bind_of_imp (fun _ _ h₁ => h₁.1.toResembles) fun _ _ _ h₁ =>
    h₁.1.runPlan before hread h.iterations?

/-- **Whole numbers stay whole numbers** when a graph is recomputed, also if that stops
part-way. -/
theorem isInt_after_recompute (h : Fits plan config names) (hg : g.IsWellFormed)
    (hint : ∀ id, (g.cell id).IsInt) (id : CellId) :
    ((after (recompute plan config) g).cell id).IsInt := by
  have hself : ∀ name ∈ names, g.ResemblesOn True g config name :=
    fun name _ => resemblesOn_self (fun _ => hint) config name
  have halike := h.alike hg hg rfl hself g
  have hrun := recompute_of_inputNames (g := g) h.obstacle? h.inputs
  rw [after, hrun]
  cases hend : (rebuild config names >>= fun _ =>
      runPlan config (g.shape? config.output) plan) g with
  | ok o g₁ =>
    rw [hend] at halike
    cases halike with
    | ok _ h₁ => exact (h₁.cell id).isInt trivial
  | error e g₁ =>
    rw [hend] at halike
    cases halike with
    | error _ h₁ => exact (h₁.cell id).isInt trivial

/-- **Recomputing graphs** in which the input matrices resemble each other. Both stop at the same
fault, or the same matrices are computed with the same issues; and if there are any, the outcome is
the same and the graphs resemble each other. -/
theorem recompute_resembles (h : Fits plan config names) (hg : g.IsWellFormed)
    (hg' : g'.IsWellFormed) (hstem : g'.stem = g.stem)
    (hpaint : ∀ name ∈ names, g.ResemblesOn whole g' config name) :
    (∃ e g₁ g₁', recompute plan config g = .error e g₁ ∧
      recompute plan config g' = .error e g₁' ∧ e.MayStop whole) ∨
    ∃ o o' g₁ g₁', recompute plan config g = .ok o g₁ ∧ recompute plan config g' = .ok o' g₁' ∧
      o'.computed = o.computed ∧ o'.issues = o.issues ∧
      (o.computed ≠ [] → o' = o ∧ g₁.Resembles whole g₁') := by
  have halike := h.alike hg hg' hstem hpaint g
  obtain ⟨g₀', hrebuild, hg₀', -⟩ :=
    rebuild_spec h.hasCells hg'.toIsMinted (nodup_of_inputNames h.inputs)
  rw [recompute_of_inputNames h.obstacle? h.inputs, recompute_eq h.obstacle? h.inputs hrebuild]
  rw [bind_eq_of_ok hrebuild] at halike
  generalize (rebuild config names >>= fun _ =>
    runPlan config (g.shape? config.output) plan) g = result at halike ⊢
  rcases runPlan_of_previous hg₀' g g' plan config with
    ⟨e, g₂, hrun, hrun'⟩ | ⟨o, o', g₂, g₂', hrun, hrun', hcomputed, hissues, hsame⟩
  · rw [hrun] at halike
    cases halike with
    | error he h₁ => exact .inl ⟨e, _, _, rfl, hrun', he⟩
  · rw [hrun] at halike
    cases halike with
    | ok _ h₁ =>
      refine .inr ⟨o, o', _, g₂', rfl, hrun', hcomputed, hissues, fun hne => ?_⟩
      obtain ⟨rfl, rfl⟩ := hsame hne
      exact ⟨rfl, h₁⟩

end Fits

end Graph

end CellLineage
