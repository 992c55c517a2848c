import CellLineage.Evaluation.Shape
import CellLineage.Proofs.Recompute.Input
import CellLineage.Proofs.Recompute.Iterative

/-!
# What is predicted comes true

A prediction goes through a plan with a table of shapes, a recompute with a graph. Between the two
stands the environment that gives matrices of whole numbers to names: the table holds the shapes of
these matrices and the graph the matrices themselves. A product has a shape in the table exactly if
it has a value in the environment, and the same stands in the way of both. So each step of the
prediction agrees with a step of the course of the plan, which the recompute follows. The names of
the output and of its predecessors do not matter: a result keeps its shape wherever it is copied to.

## Main definitions

* `ShapeCheck.Describes`: the table holds the shapes of an environment.
* `ShapeCheck.Agree`: two computations end alike.
* `ShapeCheck.Predicts`: how far a prediction and a course have come.
* `Graph.Bears`: a graph bears a prediction out.

## Main results

* `ShapeCheck.Describes.shapeOf_eq`: shapes of products are those of values.
* `ShapeCheck.runBaseCases_agree`, `ShapeCheck.runRecurrence_agree`: predictions follow courses.
* `Graph.recompute_predicted`: a recompute does what is predicted.
-/

namespace CellLineage

open Formula

namespace Formula

/-- The references that a plan evaluates or assigns. -/
def Plan.mentions : Plan → List Reference
  | .simple p => p.factors
  | .iterative p => p.statements.flatMap fun s => s.target :: s.factors

end Formula

namespace ShapeCheck

variable {shapes : Shapes} {env : Environment}

/-! ### Shapes of an environment -/

/-- The table gives to each name the shape of its matrix in the environment. -/
def Describes (shapes : Shapes) (env : Environment) : Prop :=
  ∀ name, shapes.lookup name = (env.lookup name).map IntMatrix.shape

theorem Describes.mem_names_iff (h : Describes shapes env) (name : Text) :
    name ∈ shapes.names ↔ name ∈ env.names := by
  rw [← Association.lookup_isSome_iff, ← Association.lookup_isSome_iff, h, Option.isSome_map]

theorem Describes.put (h : Describes shapes env) (name : Text) (M : IntMatrix) :
    Describes (shapes.put name M.shape) (env.put name M) := by
  intro other
  rw [Association.lookup_put, Association.lookup_put]
  split
  · rfl
  · exact h other

theorem Describes.lastIndex?_eq (h : Describes shapes env) (base : Text) :
    lastIndex? shapes.names base = lastIndex? env.names base :=
  lastIndex?_congr fun name _ => h.mem_names_iff name

theorem Describes.resolve_eq (h : Describes shapes env) (p : Product) (n : Int) :
    p.resolve n shapes.names = p.resolve n env.names :=
  Product.resolve_congr fun r _ => h.lastIndex?_eq r.base

/-- **The shape of a product** is that of its value, and what stands in the way of the one stands in
the way of the other. -/
theorem Describes.shapeOf_eq (h : Describes shapes env) (p : Product) :
    (shapeOf shapes p).1 = (p.value env).1.map IntMatrix.shape ∧
      (shapeOf shapes p).2.map Issue.obstruction = (p.value env).2 := by
  induction p with
  | single r =>
    rw [shapeOf, Product.value, Reference.value, h r.name]
    cases env.lookup r.name with
    | none => exact ⟨rfl, rfl⟩
    | some M => cases ht : r.transposed <;> exact ⟨rfl, rfl⟩
  | times p q ihp ihq =>
    obtain ⟨hp, hpi⟩ := ihp
    obtain ⟨hq, hqi⟩ := ihq
    rw [shapeOf, Product.value]
    generalize shapeOf shapes p = sp at hp hpi ⊢
    generalize shapeOf shapes q = sq at hq hqi ⊢
    generalize p.value env = vp at hp hpi ⊢
    generalize q.value env = vq at hq hqi ⊢
    obtain ⟨s?, is⟩ := sp
    obtain ⟨t?, js⟩ := sq
    obtain ⟨M?, ms⟩ := vp
    obtain ⟨N?, ns⟩ := vq
    dsimp only at hp hpi hq hqi
    subst hp hpi hq hqi
    rcases M? with _ | M
    · exact ⟨rfl, List.map_append⟩
    rcases N? with _ | N
    · exact ⟨rfl, List.map_append⟩
    by_cases hfits : M.Fits N
    · obtain ⟨P, hP⟩ := IntMatrix.exists_mul?_iff.2 hfits
      obtain ⟨-, hrows, hcols, -⟩ := IntMatrix.mul?_eq_some hP
      have hif : M.shape.2 = N.shape.1 := hfits
      simp only [Option.map_some, Product.timesValue, hP, hif, if_true]
      refine ⟨?_, List.map_append⟩
      exact congrArg some (Prod.ext hrows.symm hcols.symm)
    · have hif : ¬M.shape.2 = N.shape.1 := hfits
      simp only [Option.map_some, Product.timesValue, IntMatrix.mul?_eq_none_iff.2 hfits, hif,
        if_false]
      refine ⟨rfl, ?_⟩
      rw [List.map_append, List.map_append]
      rfl

/-- The prediction for a simple plan is that for its product. -/
theorem ofPlan_simple {p : SimplePlan} {config : Config}
    (hobstacle : (Plan.simple p).obstacle? config.output = none) :
    ofPlan (.simple p) config = .ok (match p.product? with
      | none => ⟨none, [], none⟩
      | some q => ⟨(shapeOf (inputShapes (.simple p) config) q).1,
          (shapeOf (inputShapes (.simple p) config) q).2, none⟩) := by
  simp only [ofPlan, hobstacle]
  cases p.product? <;> rfl

theorem ofPlan_iterative {p : IterativePlan} {config : Config}
    (hobstacle : (Plan.iterative p).obstacle? config.output = none) :
    ofPlan (.iterative p) config = runIterative p config (inputShapes (.iterative p) config) := by
  simp only [ofPlan, hobstacle]

/-! ### Predictions and courses -/

section Agree

variable {ε α β γ δ : Type} {R : α → β → Prop} {S : γ → δ → Prop}

/-- Both computations end with the same fault, or with results that are related. -/
inductive Agree (R : α → β → Prop) : Except ε α → Except ε β → Prop where
  | error (e : ε) : Agree R (.error e) (.error e)
  | ok {a : α} {b : β} (h : R a b) : Agree R (.ok a) (.ok b)

theorem Agree.bind {x : Except ε α} {y : Except ε β} {f : α → Except ε γ} {k : β → Except ε δ}
    (h : Agree R x y) (hk : ∀ a b, R a b → Agree S (f a) (k b)) : Agree S (x >>= f) (y >>= k) := by
  cases h with
  | error e => exact .error e
  | ok h => exact hk _ _ h

theorem mapError_bind {ε' : Type} {g : ε → ε'} (x : Except ε α) (f : α → Except ε β) :
    (x >>= f).mapError g = x.mapError g >>= fun a => (f a).mapError g := by
  cases x <;> rfl

end Agree

/-- The prediction has the shapes of what the course has bound, and has met what that met. -/
structure Predicts (progress : Progress) (c : Course) : Prop where
  describes : Describes progress.shapes c.env
  last : progress.last? =
    (c.computed.getLast?.bind fun name => c.env.lookup name).map IntMatrix.shape
  issues : progress.issues.map Issue.obstruction = c.obstructions

variable {progress : Progress} {c : Course}

theorem Predicts.record (h : Predicts progress c) (name : Text) (M : IntMatrix) :
    Predicts (record name M.shape progress) (c.bind name M) where
  describes := h.describes.put name M
  last := by
    rw [Course.bind, List.getLast?_concat, Option.bind_some, Association.lookup_put, if_pos rfl]
    rfl
  issues := h.issues

/-- **A statement** has a shape exactly if it has a value in the course. -/
theorem shapeOfStatement_agree (h : Predicts progress c) (p : Product) (n : Int) :
    Agree (fun a b => a.1 = b.1.map IntMatrix.shape ∧ Predicts a.2 b.2)
      ((shapeOfStatement p n progress).mapError Graph.Fault.index) (c.evaluate p n) := by
  rw [shapeOfStatement, Course.evaluate, Product.valueAt_eq, h.describes.resolve_eq]
  cases p.resolve n c.env.names with
  | error e => exact .error _
  | ok p =>
    obtain ⟨hshape, hissues⟩ := h.describes.shapeOf_eq p
    refine .ok ⟨hshape, h.describes, h.last, ?_⟩
    rw [List.map_append, h.issues, hissues]

/-- **Base cases** are predicted as in the course. -/
theorem runBaseCases_agree (ss : List Statement) (h : Predicts progress c) :
    Agree Predicts ((runBaseCases ss progress).mapError Graph.Fault.index)
      (Course.runBaseCases ss c) := by
  induction ss generalizing progress c with
  | nil => exact .ok h
  | cons s ss ih =>
    rw [runBaseCases, Course.runBaseCases]
    cases s.product? with
    | none => exact ih h
    | some p =>
      dsimp only
      rw [mapError_bind]
      refine (shapeOfStatement_agree h p 0).bind ?_
      rintro ⟨shape?, progress'⟩ ⟨M?, c'⟩ ⟨hshape, h'⟩
      dsimp only at hshape h'
      subst hshape
      cases M? with
      | none => exact ih h'
      | some M => exact ih (h'.record _ M)

/-- **A recurrence** is predicted as in the course. -/
theorem runRecurrence_agree (target : Reference) (p : Product) (count : Nat) (index : Int)
    (h : Predicts progress c) :
    Agree Predicts ((runRecurrence target p count index progress).mapError Graph.Fault.index)
      (Course.runRecurrence target p count index c) := by
  induction count generalizing index progress c with
  | zero => exact .ok h
  | succ count ih =>
    rw [runRecurrence, Course.runRecurrence, mapError_bind, ← Course.sub_targetOffset]
    refine (shapeOfStatement_agree h p _).bind ?_
    rintro ⟨shape?, progress'⟩ ⟨M?, c'⟩ ⟨hshape, h'⟩
    dsimp only at hshape h'
    subst hshape
    cases M? with
    | none => exact .ok h'
    | some M =>
      dsimp only [Option.map_some]
      rw [mapError_bind]
      generalize memberName? target.base index = name?
      cases name? with
      | error e => exact .error _
      | ok name => exact ih (index + 1) (h'.record name M)

theorem recurrenceStart_agree (h : Predicts progress c) (base : Text) :
    (nextIndex progress.shapes base).mapError Graph.Fault.index =
      (lastIndex? c.env.names base).mapError Graph.Fault.index >>= fun last? =>
        .ok (match last? with
          | some last => (last : Int) + 1
          | none => 0) := by
  rw [nextIndex, ← h.describes.lastIndex?_eq, ← getLast?_memberIndices]
  cases memberIndices progress.shapes.names base with
  | error e => rfl
  | ok indices =>
    simp only [bind, Except.bind, Except.map, Except.mapError]
    cases indices.getLast? <;> rfl

/-- What a prediction says about a course: the shape of what was bound last, and the issues. -/
structure Foretells (check : ShapeCheck) (c : Course) : Prop where
  obstacle : check.obstacle? = none
  shape : check.shape? =
    (c.computed.getLast?.bind fun name => c.env.lookup name).map IntMatrix.shape
  issues : check.issues.map Issue.obstruction = c.obstructions

/-- **The course of a plan** is as predicted. -/
theorem runIterative_agree (plan : IterativePlan) (config : Config) (h : Describes shapes env) :
    Agree Foretells (runIterative plan config shapes) (Course.run plan config env) := by
  have hbase := runBaseCases_agree plan.baseCases (⟨h, rfl, rfl⟩ :
    Predicts ⟨shapes, none, []⟩ ⟨env, [], []⟩)
  have hreport {progress : Progress} {c : Course} (h : Predicts progress c) :
      Agree Foretells
        (pure ⟨progress.last?, progress.issues, none⟩ : Except Graph.Fault ShapeCheck) (pure c) :=
    .ok ⟨rfl, h.last, h.issues⟩
  refine hbase.bind fun progress c h => ?_
  cases plan.recurrence? with
  | none => exact hreport h
  | some s =>
    dsimp only
    cases s.product? with
    | none => exact hreport h
    | some p =>
      dsimp only
      rw [recurrenceStart_agree h]
      cases lastIndex? c.env.names s.target.base with
      | error e => exact .error _
      | ok last? =>
        cases Graph.recurrenceCount config with
        | error e => exact .error _
        | ok count =>
          have hrun (index : Int) :=
            (runRecurrence_agree s.target p count index h).bind (k := pure) fun _ _ => hreport
          simp only [bind_pure] at hrun
          exact hrun _

end ShapeCheck

namespace Graph

open ShapeCheck

variable {g g' : Graph} {config : Config} {shapes : Shapes} {env : Environment}

/-! ### Predictions and runs -/

/-- What a plan has come to bears a prediction out: there is a result exactly if there is a shape,
and the graph then holds the result in this shape. -/
structure Bears (results : Results) (g : Graph) (check : ShapeCheck) : Prop where
  isWellFormed : g.IsWellFormed
  obstacle : check.obstacle? = none
  issues : check.issues.map Issue.obstruction = results.issues.map Issue.obstruction
  result :
    Option.Rel (fun result shape => g.shape? result = some shape) results.result? check.shape?
  computed : results.computed = [] ↔ results.result? = none

/-- A simple plan bears out what is predicted. -/
theorem evaluatePlan_simple_bears (config : Config) {p : SimplePlan}
    (hnames : ∀ r ∈ p.factors, IsPublic r.name) (hg : g.IsWellFormed)
    (henv : ∀ {name}, IsPublic name → g.Represents name (env.lookup name))
    (hshapes : Describes shapes env) :
    ∃ results g', evaluatePlan config (.simple p) g = .ok results g' ∧
      Bears results g' (match p.product? with
        | none => ⟨none, [], none⟩
        | some p => ⟨(shapeOf shapes p).1, (shapeOf shapes p).2, none⟩) := by
  cases hp : p.product? with
  | none =>
    refine ⟨⟨none, [], []⟩, g, ?_, hg, rfl, rfl, .none, iff_of_true rfl rfl⟩
    simp only [evaluatePlan, hp]
    rfl
  | some q =>
    have hrefs : q.references = p.factors := by
      have h := Product.references_ofFactors? p.factors
      rw [SimplePlan.product?] at hp
      rwa [hp] at h
    have hread : ∀ r ∈ q.references,
        IsPublic r.name ∧ g.Represents r.name (env.lookup r.name) := fun r hr =>
      ⟨hnames r (hrefs ▸ hr), henv (hnames r (hrefs ▸ hr))⟩
    obtain ⟨e, g', hrun, heval⟩ := evaluate_spec (o := 0) hg hread
    obtain ⟨hshape, hissues⟩ := hshapes.shapeOf_eq q
    refine ⟨⟨e.result?, if e.result?.isSome then [config.output] else [], e.issues⟩, g', ?_,
      heval.isWellFormed, rfl, hissues.trans heval.obstructions.symm, ?_, ?_⟩
    · simp only [evaluatePlan, hp]
      exact bind_eq_of_ok hrun
    · dsimp only
      rw [hshape]
      cases hM : (q.value env).1 with
      | none =>
        rw [heval.of_value_eq_none hM]
        exact .none
      | some M =>
        obtain ⟨hresult, -, hholds, -⟩ := heval.of_value_eq_some hM
        rw [hresult]
        exact .some hholds.1
    · dsimp only
      cases e.result? with
      | none => exact iff_of_true rfl rfl
      | some result => exact iff_of_false (List.cons_ne_nil _ _) (Option.some_ne_none _)

/-- An iterative plan bears out what is predicted. -/
theorem evaluatePlan_iterative_bears (config : Config) {p : IterativePlan}
    (hplan : ∀ s ∈ p.statements, s.IsNamed) (hg : g.IsWellFormed)
    (henv : ∀ {name}, IsPublic name → g.Represents name (env.lookup name))
    (hshapes : Describes shapes env) :
    Refines Bears (evaluatePlan config (.iterative p) g)
      (ShapeCheck.runIterative p config shapes) := by
  have hrun := runStatements_refines hplan config hg henv
  have hagree := runIterative_agree p config hshapes
  generalize Course.run p config env = course at hrun hagree
  generalize ShapeCheck.runIterative p config shapes = prediction at hagree ⊢
  cases hagree with
  | error e =>
    obtain ⟨g', hrun⟩ := hrun
    exact ⟨g', bind_eq_of_error hrun⟩
  | @ok check c hcheck =>
    obtain ⟨progress, g', hrun, hsim⟩ := hrun
    refine ⟨_, g', bind_eq_of_ok hrun, hsim.isWellFormed, hcheck.obstacle, ?_, ?_, ?_⟩
    · rw [hcheck.issues, hsim.obstructions]
    · dsimp only
      rw [hcheck.shape, hsim.computed]
      cases hlast : c.computed.getLast? with
      | none => exact .none
      | some last =>
        obtain ⟨hpublic, hsome⟩ := hsim.isBound last (List.mem_of_getLast? hlast)
        obtain ⟨M, hM⟩ := Option.isSome_iff_exists.1 hsome
        have hholds := hsim.represents hpublic
        rw [hM] at hholds
        rw [Option.bind_some, hM]
        exact .some hholds.1
    · exact List.getLast?_eq_none_iff.symm

/-! ### Predictions and recomputes -/

/-- A recompute confirms a prediction: the same matrices are missing and the same shapes do not fit,
in the same order, nothing is computed exactly if no shape is predicted, and otherwise the output
has the predicted shape. -/
structure Confirms (config : Config) (o : Outcome) (g : Graph) (check : ShapeCheck) : Prop where
  isRun : check.obstacle? = none ∧ o.obstacle? = none
  issues : check.issues.map Issue.obstruction = o.issues.map Issue.obstruction
  computed : check.shape? = none ↔ o.computed = []
  shape : ∀ shape, check.shape? = some shape → g.shape? config.output = some shape ∧
    o.shape? = if config.output = "" then none else some shape

theorem outcome_of_shape {shape : Nat × Nat} (h : g.shape? config.output = some shape)
    (computed : List Text) (issues : List Issue) :
    outcome config computed issues g = .ok ⟨some config.output,
      if config.output = "" then none else some shape, computed, issues, none⟩ g := by
  have hmem : g.hasMatrix config.output = true := by
    rw [Graph.hasMatrix, Std.ExtTreeMap.contains_eq_isSome_getElem?,
      ← Option.isSome_map (f := Block.shape)]
    exact Option.isSome_of_eq_some h
  simp only [outcome, get_bind_eq, hmem, if_true, h]
  rfl

/-- The end of a run that has come to a shape copies its result to the output and shows it there. -/
theorem Bears.exists_outcome {results : Results} {check : ShapeCheck} {shape : Nat × Nat}
    (h : Bears results g check) (hshape : check.shape? = some shape) (config : Config)
    (previous : Option (Nat × Nat)) :
    ∃ g', (do
        finish config previous results.result?
        outcome config results.computed results.issues) g =
          .ok ⟨some config.output, if config.output = "" then none else some shape,
            results.computed, results.issues, none⟩ g' ∧
      g'.shape? config.output = some shape := by
  have hresult := h.result
  rw [hshape] at hresult
  cases hr : results.result? with
  | none =>
    rw [hr] at hresult
    cases hresult
  | some result =>
    rw [hr] at hresult
    obtain ⟨hheld⟩ := hresult
    obtain ⟨g', hstore, -, hout⟩ := store_shape h.isWellFormed hheld config.output
    exact ⟨g', (bind_eq_of_ok hstore).trans (outcome_of_shape hout _ _), hout⟩

/-- Whatever the output is called, the end of a run confirms what the run bears out. -/
theorem Bears.exists_confirms {results : Results} {check : ShapeCheck} (h : Bears results g check)
    (config : Config) (before : Graph) :
    ∃ o g', (do
        finish config (before.shape? config.output) results.result?
        outcome config results.computed results.issues) g = .ok o g' ∧
      Confirms config o g' check := by
  have hresult := h.result
  have hcomputed := h.computed
  cases hshape : check.shape? with
  | none =>
    rw [hshape] at hresult
    have hnone : results.result? = none := by
      generalize results.result? = result? at hresult
      cases hresult
      rfl
    obtain ⟨g', hfinish, -, -⟩ := finish_none_spec h.isWellFormed before config
    obtain ⟨o, houtcome, ho, hissues, hobstacle, -⟩ :=
      outcome_spec config results.computed results.issues g'
    rw [hnone]
    refine ⟨o, g', (bind_eq_of_ok hfinish).trans houtcome, ⟨h.obstacle, hobstacle⟩, ?_, ?_, ?_⟩
    · rw [h.issues, hissues]
    · rw [ho, hshape]
      exact iff_of_true rfl (hcomputed.2 hnone)
    · intro shape hsome
      rw [hshape] at hsome
      cases hsome
  | some shape =>
    obtain ⟨g', hrun, hout⟩ := h.exists_outcome hshape config (before.shape? config.output)
    refine ⟨_, g', hrun, ⟨h.obstacle, rfl⟩, h.issues, ?_, fun other hother => ?_⟩
    · rw [hshape]
      refine iff_of_false (Option.some_ne_none _) fun hnil => ?_
      rw [hshape, hcomputed.1 hnil] at hresult
      cases hresult
    · obtain rfl : shape = other := Option.some.inj (hshape.symm.trans hother)
      exact ⟨hout, rfl⟩

/-- The table that a prediction starts from describes the input of the recompute, if just the
matrices that the plan reads are declared. -/
theorem describes_inputShapes {plan : Plan} {names : List Text}
    (hkeys : ∀ name, name ∈ config.shapes.names ↔ name ∈ plan.baseMatrices)
    (hnames : ∀ name, name ∈ names ↔ name ∈ plan.baseMatrices) (g : Graph) :
    Describes (inputShapes plan config) (g.inputs config names) := by
  intro name
  rw [inputShapes, Association.lookup_map, lookup_inputs]
  by_cases h : name ∈ plan.baseMatrices
  · obtain ⟨shape, hshape⟩ := Option.isSome_iff_exists.1
      ((Association.lookup_isSome_iff _ _).2 ((hkeys name).2 h))
    rw [if_pos h, if_pos ((hnames name).2 h), Config.declaredShape, hshape]
    refine congrArg some ?_
    rw [IntMatrix.shape, inputMatrix, IntMatrix.ofFn, inputShape, hshape]
    rfl
  · rw [if_neg h, if_neg fun hmem => h ((hnames name).1 hmem)]
    rfl

/-- **A recompute does what is predicted**, if just the matrices that the plan reads are declared
and no name of the plan holds an at sign: both end with the same fault, or the recompute confirms
the prediction. -/
theorem recompute_predicted {formula output : Text} {plan : Plan}
    {iterations rows cols sizeLimit iterationLimit : Datum} {sizes : Association (Datum × Datum)}
    (hread : Plan.read formula = .ok plan)
    (hnames : ∀ r ∈ plan.mentions, .char '@' ∉ r.name.symbols)
    (hconfig : Config.make output iterations sizes rows cols sizeLimit iterationLimit = .ok config)
    (hobstacle : plan.obstacle? config.output = none)
    (hkeys : ∀ name, name ∈ config.shapes.names ↔ name ∈ plan.baseMatrices)
    (hg : g.IsReachable) (hint : ∀ id ∈ g.nodes, (g.cell id).IsInt) :
    Refines (Confirms config) (recompute plan config g) (ShapeCheck.ofPlan plan config) := by
  obtain ⟨names, hinput, hmem⟩ := exists_inputNames hread fun name => (hkeys name).1
  have hminted := hg.isWellFormed.toIsMinted
  obtain ⟨g₀, hrebuild, hwf, -, hrep, -, -⟩ :=
    rebuild_inputs (Config.hasCells_of_make hconfig).2 hminted (nodup_of_inputNames hinput)
  have henv {name : Text} (_ : IsPublic name) :
      g₀.Represents name ((g.inputs config names).lookup name) :=
    hrep name (isIntegral_of_forall_isInt hminted hint config name)
  have hshapes := describes_inputShapes hkeys hmem g
  have hrecompute : recompute plan config g = (do
      let results ← evaluatePlan config plan
      finish config (g.shape? config.output) results.result?
      outcome config results.computed results.issues) g₀ := by
    rw [recompute_eq hobstacle hinput hrebuild, runPlan_eq]
  rw [hrecompute]
  cases plan with
  | simple p =>
    have hpublic : ∀ r ∈ p.factors, IsPublic r.name := fun r hr =>
      isPublic_name (Plan.isBase_of_read hread r hr) (hnames r hr)
    obtain ⟨results, g₁, hrun, hbears⟩ :=
      evaluatePlan_simple_bears config hpublic hwf henv hshapes
    obtain ⟨o, g₂, hend, hconfirms⟩ := hbears.exists_confirms config g
    rw [ofPlan_simple hobstacle]
    exact ⟨o, g₂, (bind_eq_of_ok hrun).trans hend, hconfirms⟩
  | iterative p =>
    have hplan : ∀ s ∈ p.statements, s.IsNamed := by
      intro s hs r hr
      obtain ⟨htarget, hfactors⟩ := Plan.isWritten_of_read hread s hs
      have hbase : ∀ r ∈ s.target :: s.factors, IsBase r.base :=
        List.forall_mem_cons.2 ⟨htarget, hfactors⟩
      exact ⟨hbase r hr, isPublic_name (hbase r hr) (hnames r (List.mem_flatMap.2 ⟨s, hs, hr⟩))⟩
    have hrun := evaluatePlan_iterative_bears config hplan hwf henv hshapes
    rw [ofPlan_iterative hobstacle]
    generalize ShapeCheck.runIterative p config _ = prediction at hrun ⊢
    cases prediction with
    | error e =>
      obtain ⟨g', hrun⟩ := hrun
      exact ⟨g', bind_eq_of_error hrun⟩
    | ok check =>
      obtain ⟨results, g₁, hrun, hbears⟩ := hrun
      obtain ⟨o, g₂, hend, hconfirms⟩ := hbears.exists_confirms config g
      exact ⟨o, g₂, (bind_eq_of_ok hrun).trans hend, hconfirms⟩

/-- The plan of `K_0=A,K_{n+1}=K_n*B`. -/
def stoppingPlan : IterativePlan where
  baseCases := [⟨⟨"K", .number 0, false, 0⟩, [⟨"A", .absent, false, 0⟩], "K_0=A"⟩]
  recurrence? := some ⟨⟨"K", .next, false, 0⟩,
    [⟨"K", .current, false, 0⟩, ⟨"B", .absent, false, 4⟩], "K_\x7bn+1\x7d=K_n*B"⟩
  constants := []
  explicit := ["K_0"]
  replaced := []
  fault? := none
  text := "K_0=A,K_\x7bn+1\x7d=K_n*B"

/-- Settings in which the recurrence of the plan can be applied only once. -/
def stoppingConfig : Config :=
  ⟨"O", some 3, [("A", 2, 3), ("B", 3, 2)], (1, 1)⟩

/-- With `A` of two rows and `B` of two columns it is foreseen that the recurrence stops after
`K_1`. -/
theorem recompute_predicted_sample : ∃ o g',
    recompute (.iterative stoppingPlan) stoppingConfig sampleGraph = .ok o g' ∧
      o.computed ≠ [] ∧ o.issues.map Issue.obstruction = [.mismatch (2, 2) (3, 2)] ∧
      g'.shape? "O" = some (2, 2) := by
  have hread : Plan.read "K_0=A,K_\x7bn+1\x7d=K_n*B" = .ok (.iterative stoppingPlan) := by
    decide +kernel
  have hconfig : Config.make "O" (.int 3) [("A", .int 2, .int 3), ("B", .int 3, .int 2)] (.int 1)
      (.int 1) (.int 50) (.int 50) = .ok stoppingConfig := rfl
  have hbases : (Plan.iterative stoppingPlan).baseMatrices = (["A", "B"] : List Text) := by
    decide +kernel
  have hkeys (name : Text) : name ∈ stoppingConfig.shapes.names ↔
      name ∈ (Plan.iterative stoppingPlan).baseMatrices := by
    rw [hbases]
    rfl
  have hobstacle : (Plan.iterative stoppingPlan).obstacle? stoppingConfig.output = none := by
    decide +kernel
  have hpredicted := recompute_predicted hread (by decide) hconfig hobstacle hkeys
    isReachable_sampleGraph isInt_sampleGraph
  have hagree := runIterative_agree stoppingPlan stoppingConfig
    (describes_inputShapes hkeys (fun _ => Iff.rfl) sampleGraph)
  have hcourse : (Course.run stoppingPlan stoppingConfig (sampleGraph.inputs stoppingConfig
      (Plan.iterative stoppingPlan).baseMatrices)).toOption.map (fun c =>
        ((c.computed.getLast?.bind fun name => c.env.lookup name).map IntMatrix.shape,
          c.obstructions)) = some (some (2, 2), [.mismatch (2, 2) (3, 2)]) := by
    rw [hbases]
    decide +kernel
  rw [ofPlan_iterative hobstacle] at hpredicted
  generalize ShapeCheck.runIterative stoppingPlan _ _ = prediction at hpredicted hagree
  generalize Course.run stoppingPlan stoppingConfig (sampleGraph.inputs stoppingConfig
    (Plan.iterative stoppingPlan).baseMatrices) = course at hagree hcourse
  cases hagree with
  | error e => cases hcourse
  | ok hforetold =>
    simp only [Except.toOption, Option.map_some, Option.some.injEq, Prod.mk.injEq] at hcourse
    obtain ⟨o, g', hrun, hconfirms⟩ := hpredicted
    have hshape := hforetold.shape.trans hcourse.1
    have hissues := hforetold.issues.trans hcourse.2
    refine ⟨o, g', hrun, fun hnil => ?_, hconfirms.issues.symm.trans hissues,
      (hconfirms.shape _ hshape).1⟩
    rw [hconfirms.computed.2 hnil] at hshape
    cases hshape

end Graph

end CellLineage
