import CellLineage.Proofs.Recompute.Input

/-!
# Evaluating and the output

The last matrix that a plan computes is copied into the output matrix, when all has been evaluated.
To say that nothing of what was computed is disturbed one has to look back at what each matrix held
when it was written. So the run is repeated here with a log: `Graph.evaluateLogged` does what
`Graph.evaluatePlan` does, and notes for each matrix that it computes the graph right after the
matrix was last written. Without the log it is the original run (`Graph.evaluateLogged_fst`).

After a matrix was written only others are written, until the output is made. Evaluating writes
generated names, which no matrix that is assigned has. If the last result is the output itself,
which may be called like an intermediate matrix or like a member of the family of the recurrence, it
is copied onto itself, and then its cells forget what they were derived from.

## Main definitions

* `Graph.Log`, `Graph.evaluateLogged`: runs that keep a log.
* `Graph.Shows`: a matrix holds what a matrix of another graph held.
* `Graph.Remembers`: the graph still holds what the log says.

## Main results

* `Graph.evaluateLogged_fst`: logging changes nothing.
* `Graph.evaluateLogged_remembers`: evaluating a plan disturbs nothing that it has computed.
* `Graph.recompute_shows`: what the output holds, and what the other matrices still hold.
-/

namespace CellLineage

open Formula

namespace Formula

/-- The base cases of a plan that was read assign numbered matrices. -/
theorem IterativePlan.isPreserved_isNumber :
    IsPreserved fun plan => ∀ s ∈ plan.baseCases, s.target.subscript.isNumber = true where
  refuse _ h := h
  constant _ h _ := h
  assign {plan target factors} left text h _ _ := by
    unfold IterativePlan.assign
    dsimp only
    split
    · exact h
    · exact h
    · next hnumber =>
      refine List.forall_mem_append.2 ⟨h, List.forall_mem_singleton.2 ?_⟩
      rw [hnumber, Subscript.isNumber]
    · exact h

/-- Evaluating writes none of the matrices that base cases assign. -/
theorem notMem_generatedNames_of_baseCase {formula : Text} {plan : IterativePlan}
    (hread : Plan.read formula = .ok (.iterative plan)) {s : Statement} (hs : s ∈ plan.baseCases) :
    s.target.name ∉ generatedNames := by
  have hbase := (Plan.isWritten_of_read hread s (List.mem_append_left _ hs)).1
  have hnumber := IterativePlan.isPreserved_isNumber.of_read
    (fun _ hs => absurd hs List.not_mem_nil) (Plan.iterative_of_read hread) s hs
  rw [Reference.name]
  cases hsub : s.target.subscript with
  | number k => exact (isPublic_memberName hbase k).notMem_generatedNames
  | absent | current | next | label _ =>
    rw [hsub] at hnumber
    cases hnumber

end Formula

namespace Graph

variable {g g' g₁ : Graph} {config : Config} {name : Text}

/-! ### Runs with a log -/

/-- By name, the graphs that there were right after a matrix was last written. -/
abbrev Log := Association Graph

/-- Copies a result into a matrix, counts it as computed and notes the graph. -/
def recordLogged (result target : Text) (s : Progress × Log) : Run (Progress × Log) := do
  let progress ← record result target s.1
  return (progress, s.2.put target (← get))

/-- Evaluates base cases in order and keeps the log. -/
def runBaseCasesLogged : List Statement → Progress × Log → Run (Progress × Log)
  | [], s => pure s
  | statement :: statements, s =>
    match statement.product? with
    | none => runBaseCasesLogged statements s
    | some p => do
      let (result?, progress) ← evaluateStatement p 0 s.1
      match result? with
      | none => runBaseCasesLogged statements (progress, s.2)
      | some result =>
        runBaseCasesLogged statements
          (← recordLogged result statement.target.name (progress, s.2))

/-- Applies the recurrence and keeps the log. -/
def runRecurrenceLogged (target : Reference) (p : Product) :
    (count : Nat) → (index : Int) → Progress × Log → Run (Progress × Log)
  | 0, _, s => pure s
  | count + 1, index, s => do
    let (result?, progress) ← evaluateStatement p (index - targetOffset target) s.1
    match result? with
    | none => pure (progress, s.2)
    | some result =>
      let name ← liftIndex (memberName? target.base index)
      runRecurrenceLogged target p count (index + 1) (← recordLogged result name (progress, s.2))

/-- Applies the recurrence of a plan, if there is one, and keeps the log. -/
def applyRecurrenceLogged (plan : IterativePlan) (config : Config) (s : Progress × Log) :
    Run (Progress × Log) := do
  match plan.recurrence? with
  | none => return s
  | some statement =>
    match statement.product? with
    | none => return s
    | some p =>
      let index ← liftIndex ((← get).nextIndex statement.target.base)
      runRecurrenceLogged statement.target p (← rethrow (recurrenceCount config)) index s

/-- Evaluates a plan up to its output and keeps the log. A simple plan writes its result only. -/
def evaluateLogged (config : Config) : Plan → Run (Results × Log)
  | .simple p => do
    let results ← evaluatePlan config (.simple p)
    let g ← get
    return (results, results.result?.toList.map fun result => (result, g))
  | .iterative p => do
    let s ← runBaseCasesLogged p.baseCases (⟨0, [], []⟩, [])
    let (progress, log) ← applyRecurrenceLogged p config s
    return (⟨progress.computed.getLast?, progress.computed, progress.issues⟩, log)

theorem recordLogged_fst (result target : Text) (progress : Progress) (log : Log) :
    Prod.fst <$> recordLogged result target (progress, log) = record result target progress := by
  rw [recordLogged, map_bind]
  exact bind_pure _

theorem runBaseCasesLogged_fst (ss : List Statement) (s : Progress × Log) :
    Prod.fst <$> runBaseCasesLogged ss s = runBaseCases ss s.1 := by
  induction ss generalizing s with
  | nil => rfl
  | cons statement ss ih =>
    rw [runBaseCasesLogged, runBaseCases]
    cases statement.product? with
    | none => exact ih s
    | some p =>
      dsimp only
      rw [map_bind]
      refine congrArg (evaluateStatement p 0 s.1 >>= ·) (funext fun a => ?_)
      obtain ⟨result?, progress⟩ := a
      cases result? with
      | none => exact ih (progress, s.2)
      | some result =>
        dsimp only
        rw [map_bind, ← recordLogged_fst result _ progress s.2, bind_map_left]
        exact congrArg (recordLogged result _ (progress, s.2) >>= ·) (funext ih)

theorem runRecurrenceLogged_fst (target : Reference) (p : Product) (count : Nat) (index : Int)
    (s : Progress × Log) : Prod.fst <$> runRecurrenceLogged target p count index s =
      runRecurrence target p count index s.1 := by
  induction count generalizing index s with
  | zero => rfl
  | succ count ih =>
    rw [runRecurrenceLogged, runRecurrence, map_bind]
    refine congrArg (evaluateStatement p _ s.1 >>= ·) (funext fun a => ?_)
    obtain ⟨result?, progress⟩ := a
    cases result? with
    | none => rfl
    | some result =>
      dsimp only
      -- whether an index may be shown is not to be computed: the bound is a number of 4301 digits
      generalize memberName? target.base index = name?
      rw [map_bind]
      refine congrArg (liftIndex name? >>= ·) (funext fun name => ?_)
      rw [map_bind, ← recordLogged_fst result name progress s.2, bind_map_left]
      exact congrArg (recordLogged result name (progress, s.2) >>= ·) (funext (ih (index + 1)))

theorem applyRecurrenceLogged_fst (plan : IterativePlan) (config : Config) (s : Progress × Log) :
    Prod.fst <$> applyRecurrenceLogged plan config s = applyRecurrence plan config s.1 := by
  rw [applyRecurrenceLogged, applyRecurrence]
  cases plan.recurrence? with
  | none => rfl
  | some statement =>
    dsimp only
    cases statement.product? with
    | none => rfl
    | some p =>
      simp only [map_bind, runRecurrenceLogged_fst]

/-- **Logging changes nothing**: without the log, the run is the original one. -/
theorem evaluateLogged_fst (config : Config) (plan : Plan) :
    Prod.fst <$> evaluateLogged config plan = evaluatePlan config plan := by
  cases plan with
  | simple p =>
    rw [evaluateLogged, map_bind]
    exact bind_pure _
  | iterative p =>
    rw [evaluateLogged, evaluatePlan, runStatements_eq, map_bind, bind_assoc,
      ← runBaseCasesLogged_fst p.baseCases (⟨0, [], []⟩, []), bind_map_left]
    refine congrArg (runBaseCasesLogged _ _ >>= ·) (funext fun s => ?_)
    rw [map_bind, ← applyRecurrenceLogged_fst, bind_map_left]
    rfl

/-! ### What the log remembers -/

variable {s s' : Progress × Log}

/-- All that was computed is noted, and each matrix noted is still as it was then. It has no name
that evaluating writes. -/
structure IsLogged (s : Progress × Log) (g : Graph) : Prop where
  isWellFormed : g.IsWellFormed
  isSome : ∀ name ∈ s.1.computed, (s.2.lookup name).isSome = true
  keeps : ∀ {name before}, s.2.lookup name = some before →
    name ∉ generatedNames ∧ name ∈ before.matrices ∧ before.Keeps g name

/-- **Evaluating a statement** disturbs nothing that was noted, and a result is there. -/
theorem IsLogged.of_evaluateStatement {progress : Progress} {log : Log}
    (h : IsLogged (progress, log) g) {p : Product} {n : Int} {result? : Option Text}
    {progress' : Progress} (hrun : evaluateStatement p n progress g = .ok (result?, progress') g') :
    IsLogged (progress', log) g' ∧ ∀ result, result? = some result → result ∈ g'.matrices := by
  have hwrites := writes_evaluateStatement p n progress g
  rw [after_of_ok hrun] at hwrites
  rw [evaluateStatement, get_bind_eq] at hrun
  obtain ⟨q, g₁, -, hrun⟩ := exists_run_of_bind hrun
  obtain ⟨e, g₂, hevaluate, hrun⟩ := exists_run_of_bind hrun
  cases hrun
  refine ⟨⟨hwrites.edits.isWellFormed h.isWellFormed, h.isSome, fun {name before} hname => ?_⟩,
    fun result => mem_matrices_of_evaluate hevaluate⟩
  obtain ⟨hgenerated, hmem, hkeeps⟩ := h.keeps hname
  exact ⟨hgenerated, hmem, hkeeps.trans (hwrites.keeps h.isWellFormed hgenerated)⟩

/-- **Recording a result** disturbs nothing else that was noted. -/
theorem IsLogged.of_record (h : IsLogged s g) {result target : Text}
    (hresult : result ∈ g.matrices) (htarget : target ∉ generatedNames)
    (hrun : recordLogged result target s g = .ok s' g') : IsLogged s' g' := by
  obtain ⟨b, hb⟩ := Option.isSome_iff_exists.1 (Std.ExtTreeMap.mem_iff_isSome_getElem?.1 hresult)
  obtain ⟨shape, hstore⟩ : ∃ shape, g.shape? result = some shape := ⟨_, by rw [shape?, hb]; rfl⟩
  obtain ⟨g₁, hstore, hw, hshape⟩ := store_shape h.isWellFormed hstore target
  have hrecord : recordLogged result target s g =
      .ok ({ s.1 with computed := s.1.computed ++ [target] }, s.2.put target g₁) g₁ := by
    rw [recordLogged, record]
    exact bind_eq_of_ok (bind_eq_of_ok hstore)
  cases hrecord.symm.trans hrun
  have hmem : target ∈ g'.matrices := by
    rw [Std.ExtTreeMap.mem_iff_isSome_getElem?, ← Option.isSome_map (f := Block.shape)]
    exact Option.isSome_of_eq_some hshape
  refine ⟨hw.isWellFormed, fun name hname => ?_, fun {name before} hname => ?_⟩
  · rw [Association.lookup_put]
    split
    · rfl
    · next hne =>
      refine h.isSome name ((List.mem_append.1 hname).resolve_right fun hlast => hne ?_)
      exact List.mem_singleton.1 hlast
  · rw [Association.lookup_put] at hname
    split at hname
    · next he =>
      cases hname
      subst he
      exact ⟨htarget, hmem, .refl _ _⟩
    · next hne =>
      obtain ⟨hgenerated, hmem, hkeeps⟩ := h.keeps hname
      exact ⟨hgenerated, hmem, hkeeps.trans (hw.keeps name hne)⟩

theorem IsLogged.of_runBaseCases {ss : List Statement} (h : IsLogged s g)
    (hss : ∀ statement ∈ ss, statement.target.name ∉ generatedNames)
    (hrun : runBaseCasesLogged ss s g = .ok s' g') : IsLogged s' g' := by
  induction ss generalizing s g with
  | nil =>
    cases hrun
    exact h
  | cons statement ss ih =>
    obtain ⟨htarget, hss⟩ := List.forall_mem_cons.1 hss
    rw [runBaseCasesLogged] at hrun
    cases hp : statement.product? with
    | none =>
      rw [hp] at hrun
      exact ih h hss hrun
    | some p =>
      rw [hp] at hrun
      obtain ⟨⟨result?, progress⟩, g₁, hevaluate, hrun⟩ := exists_run_of_bind hrun
      obtain ⟨h₁, hresult⟩ := h.of_evaluateStatement hevaluate
      cases result? with
      | none => exact ih h₁ hss hrun
      | some result =>
        obtain ⟨s₂, g₂, hrecord, hrun⟩ := exists_run_of_bind hrun
        exact ih (h₁.of_record (hresult result rfl) htarget hrecord) hss hrun

theorem IsLogged.of_runRecurrence {target : Reference} {p : Product} {count : Nat} {index : Int}
    (h : IsLogged s g) (htarget : IsBase target.base)
    (hrun : runRecurrenceLogged target p count index s g = .ok s' g') : IsLogged s' g' := by
  induction count generalizing index s g with
  | zero =>
    cases hrun
    exact h
  | succ count ih =>
    obtain ⟨⟨result?, progress⟩, g₁, hevaluate, hrun⟩ := exists_run_of_bind hrun
    obtain ⟨h₁, hresult⟩ := h.of_evaluateStatement hevaluate
    cases result? with
    | none =>
      cases hrun
      exact h₁
    | some result =>
      have hpublic : ∀ name, memberName? target.base index = .ok name → IsPublic name :=
        fun _ => isPublic_of_memberName? htarget
      dsimp only at hrun
      -- whether an index may be shown is not to be computed: the bound is a number of 4301 digits
      generalize memberName? target.base index = name? at hpublic hrun
      obtain ⟨name, g₂, hname, hrest⟩ := exists_run_of_bind hrun
      have hpublic := hpublic name (eq_ok_of_liftIndex hname)
      rw [graph_eq_of_liftIndex hname] at hrest
      obtain ⟨s₂, g₃, hrecord, hrest⟩ := exists_run_of_bind hrest
      exact ih (h₁.of_record (hresult result rfl) hpublic.notMem_generatedNames hrecord) hrest

theorem IsLogged.of_applyRecurrence {plan : IterativePlan} (h : IsLogged s g)
    (hplan : ∀ statement ∈ plan.statements, IsBase statement.target.base)
    (hrun : applyRecurrenceLogged plan config s g = .ok s' g') : IsLogged s' g' := by
  rw [applyRecurrenceLogged] at hrun
  cases hs : plan.recurrence? with
  | none =>
    rw [hs] at hrun
    cases hrun
    exact h
  | some statement =>
    have hbase := hplan statement (List.mem_append_right _ (by simp [hs]))
    rw [hs] at hrun
    dsimp only at hrun
    cases hp : statement.product? with
    | none =>
      rw [hp] at hrun
      cases hrun
      exact h
    | some p =>
      rw [hp] at hrun
      dsimp only at hrun
      rw [get_bind_eq] at hrun
      generalize g.nextIndex statement.target.base = index? at hrun
      generalize recurrenceCount config = count? at hrun
      cases index? with
      | error e => cases hrun
      | ok index =>
        cases count? with
        | error e => cases hrun
        | ok count => exact h.of_runRecurrence hbase hrun

/-- What the log says of the last result and of all that was computed, the output apart, the graph
still holds. -/
structure Remembers (config : Config) (results : Results) (log : Log) (g : Graph) : Prop where
  isWellFormed : g.IsWellFormed
  keeps : ∀ name, results.result? = some name ∨ name ∈ results.computed ∧ name ≠ config.output →
    ∃ before, log.lookup name = some before ∧ name ∈ before.matrices ∧ before.Keeps g name
  result : results.computed ≠ [] → ∃ result, results.result? = some result

/-- Where nothing was computed there is nothing to remember. -/
theorem remembers_nil (hg : g.IsWellFormed) (issues : List Issue) (log : Log) :
    Remembers config ⟨none, [], issues⟩ log g := by
  refine ⟨hg, fun name hname => ?_, fun hcomputed => absurd rfl hcomputed⟩
  rcases hname with hname | ⟨hname, -⟩
  · cases hname
  · exact absurd hname List.not_mem_nil

/-- A simple plan computes the output only, and its result was noted at the end. -/
theorem evaluateLogged_simple_remembers {p : SimplePlan} {results : Results} {log : Log}
    (hg : g'.IsWellFormed) (hrun : evaluateLogged config (.simple p) g = .ok (results, log) g') :
    Remembers config results log g' := by
  obtain ⟨results', g₁, hevaluate, hrun⟩ := exists_run_of_bind hrun
  cases hrun
  rw [evaluatePlan] at hevaluate
  cases hp : p.product? with
  | none =>
    rw [hp] at hevaluate
    cases hevaluate
    exact remembers_nil hg _ _
  | some q =>
    rw [hp] at hevaluate
    obtain ⟨e, g₂, hproduct, hresults⟩ := exists_run_of_bind hevaluate
    cases hresults
    have hresult : ∀ name, e.result? = some name → name ∈ g'.matrices := fun name =>
      mem_matrices_of_evaluate hproduct
    generalize e.result? = result? at hresult ⊢
    cases result? with
    | none => exact remembers_nil hg _ _
    | some result =>
      refine ⟨hg, fun name hname => ?_, fun _ => ⟨result, rfl⟩⟩
      rcases hname with hname | ⟨hname, hne⟩
      · obtain rfl := Option.some.inj hname
        exact ⟨g', List.lookup_cons_self, hresult result rfl, .refl g' result⟩
      · exact absurd (List.mem_singleton.1 hname) hne

/-- **Evaluating a plan** disturbs nothing that it has computed. -/
theorem evaluateLogged_remembers {formula : Text} {plan : Plan} {results : Results} {log : Log}
    (hread : Plan.read formula = .ok plan) (hg : g.IsWellFormed)
    (hrun : evaluateLogged config plan g = .ok (results, log) g') :
    Remembers config results log g' := by
  have hwrites := writes_evaluatePlan plan config g
  rw [← evaluateLogged_fst] at hwrites
  have hafter : after (Prod.fst <$> evaluateLogged config plan) g = g' :=
    after_of_ok (bind_eq_of_ok hrun)
  rw [hafter] at hwrites
  have hwf := hwrites.edits.isWellFormed hg
  cases plan with
  | simple p => exact evaluateLogged_simple_remembers hwf hrun
  | iterative p =>
    obtain ⟨s₁, g₁, hbase, hrun⟩ := exists_run_of_bind hrun
    obtain ⟨s₂, g₂, hrecurrence, hrun⟩ := exists_run_of_bind hrun
    cases hrun
    have hstart : IsLogged (⟨0, [], []⟩, []) g :=
      ⟨hg, fun _ hname => absurd hname List.not_mem_nil, fun hname => nomatch hname⟩
    have h₁ := hstart.of_runBaseCases (fun _ => notMem_generatedNames_of_baseCase hread) hbase
    have h₂ := h₁.of_applyRecurrence
      (fun s hs => (Plan.isWritten_of_read hread s hs).1) hrecurrence
    refine ⟨hwf, fun name hname => ?_, fun hcomputed => ?_⟩
    · have hmem : name ∈ s₂.1.computed := hname.elim List.mem_of_getLast? And.left
      obtain ⟨before, hbefore⟩ := Option.isSome_iff_exists.1 (h₂.isSome name hmem)
      obtain ⟨-, hmatrix, hkeeps⟩ := h₂.keeps hbefore
      exact ⟨before, hbefore, hmatrix, hkeeps⟩
    · exact ⟨_, List.getLast?_eq_some_getLast hcomputed⟩

/-! ### What the output shows -/

/-- The matrix `target` holds what `source` held in an earlier graph: the same values, and the same
dependencies in the same order if the lineage is asked for. Otherwise it has none. -/
def Shows (withLineage : Bool) (before : Graph) (source : Text) (g : Graph) (target : Text) :
    Prop :=
  ∃ s t, before.matrices[source]? = some s ∧ g.matrices[target]? = some t ∧
    t.rows = s.rows ∧ t.cols = s.cols ∧ ∀ i j, i < s.rows → j < s.cols →
      (g.coreAt t i j).value = (before.coreAt s i j).value ∧
      (g.coreAt t i j).dependencies =
        if withLineage then (before.coreAt s i j).dependencies else []

theorem Shows.dependencies_eq {withLineage : Bool} {before : Graph} {source target : Text}
    {i j : Nat} {id id' : CellId} (h : Shows withLineage before source g target)
    (hid : before.idAt? source i j = some id) (hid' : g.idAt? target i j = some id') :
    (g.cell id').dependencies = if withLineage then (before.cell id).dependencies else [] := by
  obtain ⟨s, t, hs, ht, -, -, hcells⟩ := h
  obtain ⟨b, hb, hi, hj, rfl⟩ := idAt?_eq_some_iff.1 hid
  obtain ⟨c, hc, -, -, rfl⟩ := idAt?_eq_some_iff.1 hid'
  obtain rfl := Option.some.inj (hs.symm.trans hb)
  obtain rfl := Option.some.inj (ht.symm.trans hc)
  exact (hcells i j hi hj).2

theorem Keeps.shows {before : Graph} (h : before.Keeps g name) (hname : name ∈ before.matrices) :
    Shows true before name g name := by
  obtain ⟨b, hb⟩ := Option.isSome_iff_exists.1 (Std.ExtTreeMap.mem_iff_isSome_getElem?.1 hname)
  refine ⟨b, b, hb, h.matrices.trans hb, rfl, rfl, fun i j hi hj => ?_⟩
  rw [h.coreAt hb hi hj]
  exact ⟨rfl, rfl⟩

/-- Storing a result that is still as it was shows that result. Onto itself it is shown without its
lineage. -/
theorem Keeps.shows_store {before : Graph} {result : Text} (h : before.Keeps g result)
    (hresult : result ∈ before.matrices) (hg : g.IsWellFormed) (target : Text) :
    ∃ g', store result target g = .ok () g' ∧ g.WritesOnly g' target ∧
      Shows (result != target) before result g' target := by
  obtain ⟨s, hs⟩ := Option.isSome_iff_exists.1 (Std.ExtTreeMap.mem_iff_isSome_getElem?.1 hresult)
  have hs' : g.matrices[result]? = some s := h.matrices.trans hs
  have hrun : store result target g = .ok () ((g.copy result target).getD g) := rfl
  by_cases hne : result = target
  · subst hne
    obtain ⟨g', hcopy, hw, hb, hcells⟩ := copy_self_spec hg hs'
    refine ⟨g', by rw [hrun, hcopy, Option.getD_some], hw, s, s, hs, hb, rfl, rfl,
      fun i j hi hj => ?_⟩
    rw [hcells i j hi hj, h.coreAt hs hi hj, bne_self_eq_false]
    exact ⟨rfl, rfl⟩
  · obtain ⟨g', hcopy, hw, s', t, hb, ht, hrow, hcol, hcells⟩ := copy_spec hg hs' hne
    have hkeeps := hw.keeps result hne
    obtain rfl : s = s' := Option.some.inj ((hkeeps.matrices.trans hs').symm.trans hb)
    refine ⟨g', by rw [hrun, hcopy, Option.getD_some], hw, s, t, hs, ht, hrow, hcol,
      fun i j hi hj => ?_⟩
    have hpasses := hcells i j hi hj
    rw [hkeeps.coreAt hs' hi hj, h.coreAt hs hi hj] at hpasses
    rw [bne_iff_ne.2 hne, if_pos rfl]
    exact ⟨hpasses.value, hpasses.dependencies⟩

/-- **What the output holds.** After a recompute that has computed something, the output shows the
last result as it was when it was evaluated: its values and, in order, what they derive from. Only
if the result is itself the output, its cells derive from nothing any more. Every other matrix that
was computed still holds what it was given then. -/
theorem recompute_shows {formula : Text} {plan : Plan} (hread : Plan.read formula = .ok plan)
    (hobstacle : plan.obstacle? config.output = none) {o : Outcome}
    (hrun : recompute plan config g = .ok o g') (hcomputed : o.computed ≠ []) :
    ∃ names g₀ results log g₁ result, inputNames plan config = .ok names ∧
      rebuild config names g = .ok () g₀ ∧
      evaluateLogged config plan g₀ = .ok (results, log) g₁ ∧ o.computed = results.computed ∧
      results.result? = some result ∧
      (∃ before, log.lookup result = some before ∧
        Shows (result != config.output) before result g' config.output) ∧
      ∀ name ∈ o.computed, name ≠ config.output →
        ∃ before, log.lookup name = some before ∧ Shows true before name g' name := by
  cases hnames : inputNames plan config with
  | error e =>
    rw [recompute_of_inputNames_error hobstacle hnames] at hrun
    cases hrun
  | ok names =>
    rw [recompute_of_inputNames hobstacle hnames] at hrun
    obtain ⟨_, g₀, hrebuild, hrun⟩ := exists_run_of_bind hrun
    have hwrites : Writes {name | name ∈ names} g.clear (after (rebuild config names) g) :=
      writes_rebuild g fun _ hname => hname
    rw [after_of_ok hrebuild] at hwrites
    rw [runPlan_eq, ← evaluateLogged_fst, bind_map_left] at hrun
    obtain ⟨⟨results, log⟩, g₁, hevaluate, hrun⟩ := exists_run_of_bind hrun
    obtain ⟨_, g₂, hfinish, houtcome⟩ := exists_run_of_bind hrun
    obtain ⟨o', hreport, ho, -⟩ := outcome_spec config results.computed results.issues g₂
    cases hreport.symm.trans houtcome
    have h := evaluateLogged_remembers hread
      (hwrites.edits.isWellFormed (isWellFormed_empty g.stem)) hevaluate
    obtain ⟨result, hresult⟩ := h.result (ho ▸ hcomputed)
    obtain ⟨before, hbefore, hmem, hkeeps⟩ := h.keeps result (.inl hresult)
    obtain ⟨g₃, hstore, hw, hshows⟩ := hkeeps.shows_store hmem h.isWellFormed config.output
    rw [hresult] at hfinish
    cases hstore.symm.trans hfinish
    refine ⟨names, g₀, results, log, g₁, result, rfl, hrebuild, hevaluate, ho, hresult,
      ⟨before, hbefore, hshows⟩, fun name hname hne => ?_⟩
    obtain ⟨before, hbefore, hmem, hkeeps⟩ := h.keeps name (.inr ⟨ho ▸ hname, hne⟩)
    exact ⟨before, hbefore, (hkeeps.trans (hw.keeps name hne)).shows hmem⟩

/-- In the sample the output shows the last product, which is a matrix of its own. -/
theorem recompute_shows_sample : ∃ o g' before,
    recompute (.simple samplePlan) sampleConfig sampleGraph = .ok o g' ∧ o.computed = ["O"] ∧
      Shows true before "_TEMP_2" g' "O" := by
  have hread : Plan.read "A*B^T*A" = .ok (.simple samplePlan) := by decide +kernel
  have hcomputed : (match recompute (.simple samplePlan) sampleConfig sampleGraph with
      | .ok o _ => o.computed
      | .error _ _ => []) = (["O"] : List Text) := by decide +kernel
  have hlast : (match evaluateLogged sampleConfig (.simple samplePlan)
        (after (rebuild sampleConfig ["A", "B"]) sampleGraph) with
      | .ok (results, _) _ => results.result?
      | .error _ _ => none) = some ("_TEMP_2" : Text) := by decide +kernel
  have hinput : inputNames (.simple samplePlan) sampleConfig = .ok ["A", "B"] := by decide +kernel
  cases hrun : recompute (.simple samplePlan) sampleConfig sampleGraph with
  | error e g' =>
    rw [hrun] at hcomputed
    cases hcomputed
  | ok o g' =>
    rw [hrun] at hcomputed
    have hne : o.computed ≠ [] := fun he => nomatch he.symm.trans hcomputed
    obtain ⟨names, g₀, results, log, g₁, result, hnames, hrebuild, hevaluate, -, hresult,
      ⟨before, -, hshows⟩, -⟩ := recompute_shows hread (by decide +kernel) hrun hne
    cases hinput.symm.trans hnames
    rw [after_of_ok hrebuild, hevaluate] at hlast
    cases hresult.symm.trans hlast
    have hdistinct : (("_TEMP_2" : Text) != sampleConfig.output) = true := by decide +kernel
    rw [hdistinct] at hshows
    exact ⟨o, g', before, rfl, hcomputed, hshows⟩

/-! ### A result that is the output -/

/-- Settings with an output that is called like the first intermediate matrix. -/
def temporaryConfig : Config :=
  ⟨"_TEMP_1", some 1, [], (1, 1)⟩

def productGraph : Graph :=
  runAll "elem" [.initMatrix "A" 1 1, .update "A" 0 0 (.int 1) none none none,
    .initMatrix "B" 1 1, .update "B" 0 0 (.int 2) none none none]

/-- **The output may forget its lineage.** An output that is called like an intermediate matrix is
not reported. If that matrix is the result, it is copied onto itself, and its cells derive from
nothing any more. -/
theorem output_forgets : Plan.read "A*B" = .ok (.simple productPlan) ∧
    Config.make "_TEMP_1" (.int 1) [] (.int 1) (.int 1) (.int 50) (.int 50) = .ok temporaryConfig ∧
    (Plan.simple productPlan).obstacle? temporaryConfig.output = none ∧ productGraph.IsReachable ∧
    ∃ results g₁, (do
        rebuild temporaryConfig ["A", "B"]
        evaluatePlan temporaryConfig (.simple productPlan)) productGraph = .ok results g₁ ∧
      results.result? = some ("_TEMP_1" : Text) ∧ results.computed = (["_TEMP_1"] : List Text) ∧
      ¬Shows true g₁ "_TEMP_1"
        (after (recompute (.simple productPlan) temporaryConfig) productGraph)
        temporaryConfig.output := by
  refine ⟨by decide +kernel, rfl, by decide +kernel, ⟨"elem", _, rfl⟩, ?_⟩
  refine ⟨_, _, rfl, by decide +kernel, by decide +kernel, fun h => ?_⟩
  have hderived : ((after (rebuild temporaryConfig ["A", "B"] >>= fun _ =>
      evaluatePlan temporaryConfig (.simple productPlan)) productGraph).cell
        "elem_4").dependencies ≠ [] := by decide +kernel
  have hforgotten : ((after (recompute (.simple productPlan) temporaryConfig)
      productGraph).cell "elem_4").dependencies = [] := by decide +kernel
  refine hderived (Eq.trans (Eq.symm ?_) hforgotten)
  exact h.dependencies_eq (i := 0) (j := 0) (by decide +kernel) (by decide +kernel)

end Graph

end CellLineage
