import CellLineage.Proofs.Evaluation.Names
import CellLineage.Proofs.Graph.Edit

/-!
# What evaluations and recomputes write

Evaluating a product makes matrices of generated names, and nothing else. A recompute
drops what is there, makes its input matrices, evaluates, and makes the matrices that results are
copied to. `Graph.Writes` says of any number of such steps that they only make matrices of given
names; no step drops anything. It holds of a run that stopped part-way too.

## Main definitions

* `generatedNames`: the names that evaluating gives to matrices.
* `Graph.Write`, `Graph.Writes`: making matrices of given names, and describing them.
* `Graph.runStatements`, `Graph.evaluatePlan`, `Graph.runPlan`: the parts of a recompute.

## Main results

* `Graph.writes_evaluate`: an evaluation writes generated names only.
* `Graph.writes_runBaseCases`, `Graph.writes_runRecurrence`: what the statements of a plan write.
* `Graph.writes_recompute`: a recompute leaves the graph as it is, or drops all and then writes.
-/

namespace CellLineage

open Formula

/-- The names that evaluating gives to matrices: those of instances, of their transposes and of
intermediate results. -/
def generatedNames : Set Text :=
  {name | (∃ other k, name = instanceName other k ∨
    name = Graph.transposeName (instanceName other k)) ∨ ∃ k, name = temporaryName k}

theorem IsPublic.notMem_generatedNames {name : Text} (h : IsPublic name) :
    name ∉ generatedNames := by
  rintro (⟨other, k, he | he⟩ | ⟨k, he⟩)
  · exact (h.isSettled k 0).ne_instanceName other k (Int.le_refl k) he
  · exact (h.isSettled k 0).ne_transposeName other k (Int.le_refl k) he
  · exact h.isOriginal.1 k he

namespace Graph

/-- A matrix of one of the names is made, or intermediate results are counted and described. -/
inductive Write (names : Set Text) : Graph → Graph → Prop where
  | make {g g' : Graph} {name : Text} {sources : Set CellId} (hname : name ∈ names)
      (h : Makes sources name g g') : Write names g g'
  | describe (g : Graph) (temporaries : Nat) (descriptions : Std.ExtTreeMap Text Text) :
      Write names g { g with temporaries, descriptions }

/-- Any number of such steps. -/
abbrev Writes (names : Set Text) : Graph → Graph → Prop :=
  Relation.ReflTransGen (Write names)

variable {g g' : Graph} {names names' : Set Text} {config : Config}

theorem Makes.writes {sources : Set CellId} {name : Text} (h : Makes sources name g g')
    (hname : name ∈ names) : Writes names g g' :=
  .single (.make hname h)

theorem Writes.mono (h : Writes names g g') (hnames : names ⊆ names') : Writes names' g g' := by
  refine Relation.ReflTransGen.mono (fun g g' hw => ?_) _ _ h
  cases hw with
  | make hname h => exact .make (hnames hname) h
  | describe temporaries descriptions => exact .describe g temporaries descriptions

theorem Writes.edits (h : Writes names g g') : Edits g g' := by
  induction h with
  | refl => exact .refl
  | @tail g₁ g₂ _ hw ih =>
    cases hw with
    | make _ h => exact ih.trans h.edits
    | describe temporaries descriptions => exact ih.tail (.describe g₁ temporaries descriptions)

/-! ### Evaluating products -/

theorem instanceName_mem_generatedNames (name : Text) (occurrence : Int) :
    instanceName name occurrence ∈ generatedNames :=
  .inl ⟨name, occurrence, .inl rfl⟩

theorem transposeName_mem_generatedNames (name : Text) (occurrence : Int) :
    transposeName (instanceName name occurrence) ∈ generatedNames :=
  .inl ⟨name, occurrence, .inr rfl⟩

theorem temporaryName_mem_generatedNames (k : Nat) : temporaryName k ∈ generatedNames :=
  .inr ⟨k, rfl⟩

theorem writes_evaluateReference (r : Reference) (occurrence : Int) (g : Graph) :
    Writes generatedNames g (after (evaluateReference r occurrence) g) := by
  refine steps_get_bind ?_
  dsimp only
  split
  · exact steps_pure _
  · next g₁ hinst =>
    have h₁ : Writes generatedNames g g₁ :=
      (makes_instantiate hinst fun s _ => g.supplies_univ true s).writes
        (instanceName_mem_generatedNames r.name occurrence)
    split
    · split
      · next target g₂ htrans =>
        obtain ⟨rfl, hmakes⟩ := makes_transpose htrans fun s _ => g₁.supplies_univ true s
        exact steps_set_bind
          (h₁.trans (hmakes.writes (transposeName_mem_generatedNames r.name occurrence)))
          (steps_pure _)
      · exact steps_set_bind h₁ (steps_pure _)
    · exact steps_set_bind h₁ (steps_pure _)

theorem writes_multiply (left right : Text) {result : Text} (leafOnly : Bool) (g : Graph)
    (hresult : result ∈ names) : Writes names g (after (multiply left right result leafOnly) g) := by
  rcases makes_multiply left right result leafOnly (fun l _ => g.supplies_univ true l)
    (fun r _ => g.supplies_univ true r) with h | h
  · rw [h]
  · exact h.writes hresult

theorem writes_evaluateTimes (left right expression : Text) (g : Graph) :
    Writes generatedNames g (after (evaluateTimes left right expression) g) := by
  refine steps_get_bind ?_
  refine steps_set_bind (.single (.describe g (g.temporaries + 1) g.descriptions)) ?_
  refine steps_bind (writes_multiply _ _ _ _ (temporaryName_mem_generatedNames _)) fun issue? g₂ _ => ?_
  cases issue? with
  | some issue => exact steps_pure _
  | none => exact .single (.describe g₂ g₂.temporaries (g₂.descriptions.insert _ expression))

/-- **An evaluation writes generated names only.** -/
theorem writes_evaluate (p : Product) (occurrence : Int) (g : Graph) :
    Writes generatedNames g (after (evaluate p occurrence) g) := by
  induction p generalizing occurrence g with
  | single r => exact writes_evaluateReference r occurrence g
  | times p q ihp ihq =>
    refine steps_bind (ihp occurrence g) fun l g₁ _ => ?_
    refine steps_bind (ihq l.occurrence g₁) fun r g₂ _ => ?_
    dsimp only
    split
    · exact steps_bind (writes_evaluateTimes ..) fun _ g₃ _ => steps_pure _
    · exact steps_pure _

/-! ### Results -/

theorem mem_matrices_of_evaluateReference {r : Reference} {o : Int} {e : Evaluated} {result : Text}
    (h : evaluateReference r o g = .ok e g') (hresult : e.result? = some result) :
    result ∈ g'.matrices := by
  rw [evaluateReference, get_bind_eq] at h
  cases hinst : g.instantiate r.name (instanceName r.name o) with
  | none =>
    simp only [hinst] at h
    cases h
    cases hresult
  | some g₁ =>
    have h₁ := (makes_instantiate hinst fun s _ => g.supplies_univ true s).mem_matrices
    cases ht : r.transposed with
    | false =>
      simp only [hinst, ht, Bool.false_eq_true, if_false] at h
      cases h
      cases hresult
      exact h₁
    | true =>
      cases htrans : g₁.transpose (instanceName r.name o) with
      | none =>
        simp only [hinst, ht, if_true, htrans] at h
        cases h
        cases hresult
      | some p =>
        obtain ⟨-, hmakes⟩ := makes_transpose htrans fun s _ => g₁.supplies_univ true s
        simp only [hinst, ht, if_true, htrans] at h
        cases h
        cases hresult
        exact hmakes.mem_matrices

theorem mem_matrices_of_evaluateTimes {left right expression result : Text} {issues : List Issue}
    (h : evaluateTimes left right expression g = .ok (some result, issues) g') :
    result ∈ g'.matrices := by
  rw [evaluateTimes, get_bind_eq] at h
  obtain ⟨u, g₁, -, h⟩ := exists_run_of_bind h
  obtain ⟨issue?, g₂, hmultiply, h⟩ := exists_run_of_bind h
  cases issue? with
  | some issue => cases h
  | none =>
    have hmem := mem_matrices_of_multiply hmultiply
    cases h
    exact hmem

/-- **The result of an evaluation** is there at its end. -/
theorem mem_matrices_of_evaluate {p : Product} {o : Int} {e : Evaluated} {result : Text}
    (h : evaluate p o g = .ok e g') (hresult : e.result? = some result) : result ∈ g'.matrices := by
  cases p with
  | single r => exact mem_matrices_of_evaluateReference h hresult
  | times p q =>
    obtain ⟨l, g₁, -, h⟩ := exists_run_of_bind h
    obtain ⟨r, g₂, -, h⟩ := exists_run_of_bind h
    cases hl : l.result? with
    | none =>
      simp only [hl] at h
      cases h
      cases hresult
    | some left =>
      cases hr : r.result? with
      | none =>
        simp only [hl, hr] at h
        cases h
        cases hresult
      | some right =>
        simp only [hl, hr] at h
        obtain ⟨⟨result?, issues⟩, g₃, htimes, h⟩ := exists_run_of_bind h
        cases h
        cases hresult
        exact mem_matrices_of_evaluateTimes htimes

/-! ### Running statements -/

/-- The index after the last member of a family, as the last index tells it. -/
theorem nextIndex_eq (g : Graph) (base : Text) :
    g.nextIndex base = (lastIndex? g.matrices.keys base).map fun last? =>
      match last? with
      | some last => (last : Int) + 1
      | none => 0 := by
  rw [← getLast?_memberIndices, nextIndex]
  cases memberIndices g.matrices.keys base with
  | error e => rfl
  | ok indices =>
    simp only [bind, Except.bind, Except.map]
    cases indices.getLast? <;> rfl

/-- The names of the members of a family from an index on. -/
def membersFrom (base : Text) (index : Int) : Set Text :=
  {name | ∃ k, index ≤ k ∧ name = memberName base k}

theorem membersFrom_succ_subset (base : Text) (index : Int) :
    membersFrom base (index + 1) ⊆ membersFrom base index \ {memberName base index} := by
  rintro name ⟨k, hk, rfl⟩
  refine ⟨⟨k, by omega, rfl⟩, fun he => ?_⟩
  obtain rfl := memberName_inj.1 he
  omega

/-- There is no member of a family from the next index on. -/
theorem notMem_matrices_of_nextIndex {base name : Text} {index : Int}
    (h : g.nextIndex base = .ok index) (hname : name ∈ membersFrom base index) :
    name ∉ g.matrices := by
  obtain ⟨k, hk, rfl⟩ := hname
  intro hmem
  rw [nextIndex_eq] at h
  cases hlast : lastIndex? g.matrices.keys base with
  | error e =>
    rw [hlast] at h
    cases h
  | ok last? =>
    rw [hlast] at h
    have hindex : 0 ≤ index := by
      cases h
      dsimp only
      split <;> omega
    obtain ⟨n, rfl⟩ := Int.eq_ofNat_of_zero_le (Int.le_trans hindex hk)
    obtain ⟨last, rfl, hle⟩ := exists_le_of_lastIndex? hlast
      (Std.ExtTreeMap.mem_keys.2 hmem : memberName base n ∈ g.matrices.keys)
    cases h
    dsimp only at hk
    omega

/-- The first part of a run: the base cases and the recurrence. -/
def runStatements (plan : IterativePlan) (config : Config) : Run Progress := do
  let progress ← runBaseCases plan.baseCases ⟨0, [], []⟩
  match plan.recurrence? with
  | none => return progress
  | some s =>
    match s.product? with
    | none => return progress
    | some p =>
      let index ← liftIndex ((← get).nextIndex s.target.base)
      runRecurrence s.target p (← rethrow (recurrenceCount config)) index progress

/-- The second part of that: the recurrence, if there is one. -/
def applyRecurrence (plan : IterativePlan) (config : Config) (progress : Progress) :
    Run Progress := do
  match plan.recurrence? with
  | none => return progress
  | some s =>
    match s.product? with
    | none => return progress
    | some p =>
      let index ← liftIndex ((← get).nextIndex s.target.base)
      runRecurrence s.target p (← rethrow (recurrenceCount config)) index progress

theorem runStatements_eq (plan : IterativePlan) (config : Config) :
    runStatements plan config =
      runBaseCases plan.baseCases ⟨0, [], []⟩ >>= applyRecurrence plan config :=
  rfl

/-- There is nothing to apply, or a fault keeps the recurrence from being applied, or it is applied
from the next index of its family on. -/
theorem applyRecurrence_cases (plan : IterativePlan) (config : Config) (progress : Progress)
    (g : Graph) :
    applyRecurrence plan config progress g = .ok progress g ∨
    (∃ e, applyRecurrence plan config progress g = .error e g) ∨
    ∃ s p index count, plan.recurrence? = some s ∧ s.product? = some p ∧
      g.nextIndex s.target.base = .ok index ∧
      applyRecurrence plan config progress g =
        runRecurrence s.target p count index progress g := by
  rw [applyRecurrence]
  cases hs : plan.recurrence? with
  | none => exact .inl rfl
  | some s =>
    dsimp only
    cases hp : s.product? with
    | none => exact .inl rfl
    | some p =>
      simp only [get_bind_eq]
      cases hindex : g.nextIndex s.target.base with
      | error e => exact .inr (.inl ⟨_, rfl⟩)
      | ok index =>
        cases recurrenceCount config with
        | error e => exact .inr (.inl ⟨_, rfl⟩)
        | ok count => exact .inr (.inr ⟨s, p, index, count, rfl, hp, hindex, rfl⟩)

theorem runIterative_eq (plan : IterativePlan) (config : Config) (previous : Option (Nat × Nat)) :
    runIterative plan config previous = (do
      let progress ← runStatements plan config
      finish config previous progress.computed.getLast?
      outcome config progress.computed progress.issues) := by
  rw [runStatements, bind_assoc]
  refine congrArg (runBaseCases plan.baseCases ⟨0, [], []⟩ >>= ·) (funext fun progress => ?_)
  cases plan.recurrence? with
  | none => rfl
  | some s =>
    cases hp : s.product? with
    | none => simp only [hp, pure_bind]
    | some p =>
      simp only [hp, bind_assoc]

theorem writes_store (source : Text) {target : Text} (g : Graph) (htarget : target ∈ names) :
    Writes names g (after (store source target) g) := by
  have h : after (store source target) g = (g.copy source target).getD g := rfl
  rw [h]
  cases hc : g.copy source target with
  | none => exact .refl
  | some g' => exact (makes_copy hc fun s _ => g.supplies_univ false s).writes htarget

theorem writes_evaluateStatement (p : Product) (n : Int) (progress : Progress) (g : Graph) :
    Writes generatedNames g (after (evaluateStatement p n progress) g) := by
  refine steps_get_bind (steps_bind (steps_liftIndex _) fun p g₁ _ => ?_)
  exact steps_bind (writes_evaluate ..) fun e g₂ _ => steps_pure _

theorem writes_record (result : Text) {target : Text} (progress : Progress) (g : Graph)
    (htarget : target ∈ names) : Writes names g (after (record result target progress) g) :=
  steps_bind (writes_store _ _ htarget) fun _ _ _ => steps_pure _

theorem writes_runBaseCases {ss : List Statement} (progress : Progress) (g : Graph)
    (hgenerated : generatedNames ⊆ names) (hss : ∀ s ∈ ss, s.target.name ∈ names) :
    Writes names g (after (runBaseCases ss progress) g) := by
  induction ss generalizing progress g with
  | nil => exact steps_pure _
  | cons s ss ih =>
    obtain ⟨hs, hss⟩ := List.forall_mem_cons.1 hss
    unfold runBaseCases
    split
    · exact ih progress g hss
    · refine steps_bind ((writes_evaluateStatement ..).mono hgenerated) fun r g₁ _ => ?_
      dsimp only
      split
      · exact ih _ g₁ hss
      · exact steps_bind (writes_record _ _ _ hs) fun _ g₂ _ => ih _ g₂ hss

theorem writes_runRecurrence {target : Reference} (p : Product) {count : Nat} {index : Int}
    (progress : Progress) (g : Graph) (hgenerated : generatedNames ⊆ names)
    (htarget : membersFrom target.base index ⊆ names) :
    Writes names g (after (runRecurrence target p count index progress) g) := by
  induction count generalizing index progress g with
  | zero => exact steps_pure _
  | succ count ih =>
    refine steps_bind ((writes_evaluateStatement ..).mono hgenerated) fun r g₁ _ => ?_
    dsimp only
    split
    · exact steps_pure _
    · refine steps_bind (steps_liftIndex _) fun name g₂ hname => ?_
      have hmember := eq_memberName_of_memberName? (eq_ok_of_liftIndex hname)
      refine steps_bind (writes_record _ _ _ (htarget ⟨index, Int.le_refl index, hmember⟩))
        fun _ g₃ _ => ?_
      exact ih _ _ fun other hother => htarget (membersFrom_succ_subset _ _ hother).1

theorem writes_applyRecurrence {plan : IterativePlan} (config : Config) (progress : Progress)
    (hgenerated : generatedNames ⊆ names) (htarget : ∀ s, plan.recurrence? = some s → ∀ index,
      g.nextIndex s.target.base = .ok index → membersFrom s.target.base index ⊆ names) :
    Writes names g (after (applyRecurrence plan config progress) g) := by
  rcases applyRecurrence_cases plan config progress g with h | ⟨e, h⟩ |
    ⟨s, p, index, count, hs, -, hindex, h⟩
  · rw [after_of_ok h]
  · rw [after_of_error h]
  · have hafter : after (applyRecurrence plan config progress) g =
        after (runRecurrence s.target p count index progress) g := by simp only [after, h]
    rw [hafter]
    exact writes_runRecurrence p progress g hgenerated (htarget s hs index hindex)

theorem writes_runStatements (plan : IterativePlan) (config : Config) (g : Graph) :
    Writes Set.univ g (after (runStatements plan config) g) := by
  rw [runStatements_eq]
  refine steps_bind (writes_runBaseCases _ _ (Set.subset_univ _) fun _ _ => Set.mem_univ _)
    fun progress g₁ _ => ?_
  exact writes_applyRecurrence config progress (Set.subset_univ _)
    fun _ _ _ _ => Set.subset_univ _

/-! ### Recomputing -/

/-- What a plan comes to before its output is made: the matrix that goes to the output, the matrices
computed, and the issues. -/
structure Results where
  result? : Option Text
  computed : List Text
  issues : List Issue

/-- Evaluates a plan up to its output. -/
def evaluatePlan (config : Config) : Plan → Run Results
  | .simple p => do
    let evaluated ← match p.product? with
      | none => pure ⟨none, 0, []⟩
      | some p => evaluate p 0
    return ⟨evaluated.result?, if evaluated.result?.isSome then [config.output] else [],
      evaluated.issues⟩
  | .iterative p => do
    let progress ← runStatements p config
    return ⟨progress.computed.getLast?, progress.computed, progress.issues⟩

/-- Evaluates a plan in a graph that holds its input. -/
def runPlan (config : Config) (previous : Option (Nat × Nat)) : Plan → Run Outcome
  | .simple p => runSimple p config previous
  | .iterative p => runIterative p config previous

/-- A plan is evaluated, then its output is made, and then the outcome is reported. -/
theorem runPlan_eq (config : Config) (previous : Option (Nat × Nat)) (plan : Plan) :
    runPlan config previous plan = (do
      let results ← evaluatePlan config plan
      finish config previous results.result?
      outcome config results.computed results.issues) := by
  cases plan with
  | simple p =>
    rw [runPlan, evaluatePlan, runSimple]
    cases p.product? <;> simp only [pure_bind, bind_assoc]
  | iterative p => simp only [runPlan, evaluatePlan, runIterative_eq, bind_assoc, pure_bind]

/-- A recompute that may run rebuilds its input and then runs the plan. -/
theorem recompute_of_inputNames {plan : Plan} {names : List Text}
    (hobstacle : plan.obstacle? config.output = none)
    (hnames : inputNames plan config = .ok names) : recompute plan config g = (do
      rebuild config names
      runPlan config (g.shape? config.output) plan) g := by
  simp only [recompute, hobstacle, get_bind_eq, hnames]
  cases plan <;> rfl

/-- A recompute whose input matrices cannot be told ends with this fault. -/
theorem recompute_of_inputNames_error {plan : Plan} {e : IndexFault}
    (hobstacle : plan.obstacle? config.output = none) (hnames : inputNames plan config = .error e) :
    recompute plan config g = .error (.index e) g := by
  simp only [recompute, hobstacle, get_bind_eq, hnames]
  rfl

/-- A recompute that may not run, or whose input is not known, leaves the graph as it is. -/
theorem after_recompute_of_not {plan : Plan} (h : ¬(plan.obstacle? config.output = none ∧
    ∃ names, inputNames plan config = .ok names)) : after (recompute plan config) g = g := by
  unfold recompute
  split
  · rfl
  · next hobstacle =>
    cases hnames : inputNames plan config with
    | error e => rfl
    | ok names => exact absurd ⟨hobstacle, names, hnames⟩ h

theorem writes_restoreInput (config : Config) {name : Text} {before : Option Snapshot} (g : Graph)
    (hname : name ∈ names) (hbefore : ∀ s, before = some s → s.name = name) :
    Writes names g (after (restoreInput config name before) g) := by
  refine steps_get_bind ?_
  cases before with
  | none => exact steps_liftGraph fun g' h => (makes_initMatrix h).writes hname
  | some s =>
    obtain rfl := hbefore s rfl
    exact steps_liftGraph fun g' h => (makes_restore h).writes hname

theorem name_of_snapshot? {name : Text} {s : Snapshot} (h : g.snapshot? name = some s) :
    s.name = name := by
  obtain ⟨b, -, rfl⟩ := Option.map_eq_some_iff.1 h
  rfl

theorem writes_rebuild {inputs : List Text} (g : Graph) (hnames : ∀ name ∈ inputs, name ∈ names) :
    Writes names g.clear (after (rebuild config inputs) g) := by
  have h : after (rebuild config inputs) g = after (inputs.forM fun name =>
      restoreInput config name (g.snapshot? name)) g.clear := rfl
  rw [h]
  exact steps_forM fun name hname g₁ _ =>
    writes_restoreInput config g₁ (hnames name hname) fun s => name_of_snapshot?

theorem writes_finish {previous : Option (Nat × Nat)} {result? : Option Text} (g : Graph)
    (houtput : config.output ∈ names) :
    Writes names g (after (finish config previous result?) g) := by
  unfold finish
  split
  · exact writes_store _ _ houtput
  · refine steps_get_bind ?_
    split
    · exact steps_pure _
    · exact steps_liftGraph fun g' h => (makes_initMatrix h).writes houtput
  · exact steps_pure _

/-- The report of a run changes nothing. -/
theorem after_outcome (config : Config) (computed : List Text) (issues : List Issue) (g : Graph) :
    after (outcome config computed issues) g = g := by
  have hget : after (outcome config computed issues) g = after (if g.hasMatrix config.output then
      pure ⟨some config.output, if config.output = "" then none else g.shape? config.output,
        computed, issues, none⟩
      else pure ⟨none, none, computed, issues, none⟩ : Run Outcome) g := rfl
  rw [hget]
  split <;> rfl

theorem writes_evaluatePlan (plan : Plan) (config : Config) (g : Graph) :
    Writes Set.univ g (after (evaluatePlan config plan) g) := by
  cases plan with
  | simple p =>
    rw [evaluatePlan]
    cases p.product? with
    | none => exact steps_bind (steps_pure _) fun _ _ _ => steps_pure _
    | some p =>
      exact steps_bind ((writes_evaluate p 0 g).mono (Set.subset_univ _)) fun _ _ _ => steps_pure _
  | iterative p => exact steps_bind (writes_runStatements p config g) fun _ _ _ => steps_pure _

/-- What a run of a plan writes is what evaluating the plan writes and the output. -/
theorem writes_runPlan {previous : Option (Nat × Nat)} {plan : Plan}
    (heval : Writes names g (after (evaluatePlan config plan) g)) (houtput : config.output ∈ names) :
    Writes names g (after (runPlan config previous plan) g) := by
  rw [runPlan_eq]
  refine steps_bind heval fun results g₁ _ => ?_
  refine steps_bind (writes_finish g₁ houtput) fun _ g₂ _ => ?_
  rw [after_outcome]

/-- **A recompute** leaves the graph as it is, or drops all and then writes. -/
theorem writes_recompute (plan : Plan) (config : Config) (g : Graph) :
    after (recompute plan config) g = g ∨
      Writes Set.univ g.clear (after (recompute plan config) g) := by
  by_cases h : plan.obstacle? config.output = none ∧ ∃ names, inputNames plan config = .ok names
  · obtain ⟨hobstacle, names, hnames⟩ := h
    have hrun : after (recompute plan config) g = after (do
        rebuild config names
        runPlan config (g.shape? config.output) plan) g := by
      simp only [after, recompute_of_inputNames hobstacle hnames]
    have hrebuild : Writes Set.univ g.clear (after (rebuild config names) g) :=
      writes_rebuild g fun _ _ => Set.mem_univ _
    refine .inr ?_
    rw [hrun]
    cases hr : rebuild config names g with
    | error e g₁ =>
      rw [after_of_error hr] at hrebuild
      rwa [after_of_error (bind_eq_of_error hr)]
    | ok u g₁ =>
      rw [after_of_ok hr] at hrebuild
      rw [after_bind_of_ok hr]
      exact hrebuild.trans (writes_runPlan (writes_evaluatePlan plan config g₁) (Set.mem_univ _))
  · exact .inl (after_recompute_of_not h)

theorem edits_recompute (plan : Plan) (config : Config) (g : Graph) :
    Edits g (after (recompute plan config) g) := by
  rcases writes_recompute plan config g with h | h
  · rw [h]
  · exact .head (.clear g) h.edits

end Graph

end CellLineage
