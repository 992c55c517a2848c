import CellLineage.Proofs.Recompute.Course
import CellLineage.Proofs.Recompute.Stages

/-!
# Recomputing an iterative plan

A run of an iterative plan writes instances and intermediate results all over the graph, but these
never have public names. So what the public names stand for is all that a later step can see of the
earlier ones, and the run follows the course of the plan step by step. The relation that every step
keeps is that the graph holds at each public name what the environment of the course gives to it.

## Main definitions

* `Graph.Refines`: a run and its reference end alike.
* `Graph.Simulates`: a graph and the progress of a run stand for a course.
* `Graph.course`: the course of a plan from the input matrices on.

## Main results

* `Graph.runBaseCases_refines`, `Graph.runRecurrence_refines`: runs follow courses.
* `Graph.recompute_iterative`: a recompute follows the course of the plan.
-/

namespace CellLineage

namespace Formula

/-- A reference has a base as the grammar wants it and a public name. -/
def Reference.IsNamed (r : Reference) : Prop :=
  IsBase r.base ∧ IsPublic r.name

/-- All references of a product are named so. -/
def Product.IsNamed (p : Product) : Prop :=
  ∀ r ∈ p.references, r.IsNamed

/-- The names of a resolved product are public. -/
theorem Product.IsNamed.isPublic_of_resolve {p p' : Product} {n : Int} {names : List Text}
    (hp : p.IsNamed) (h : p.resolve n names = .ok p') : ∀ r ∈ p'.references, IsPublic r.name := by
  intro r' hr'
  obtain ⟨r, hr, hname | ⟨index, hname⟩⟩ := Product.name_of_resolve h r' hr'
  · rw [hname]
    exact (hp r hr).2
  · rw [hname]
    exact isPublic_memberName (hp r hr).1 index

/-- The target and the factors of a statement are named so. -/
def Statement.IsNamed (s : Statement) : Prop :=
  ∀ r ∈ s.target :: s.factors, r.IsNamed

theorem Product.isNamed_of_ofFactors? {rs : List Reference} {p : Product}
    (hp : Product.ofFactors? rs = some p) (hrs : ∀ r ∈ rs, r.IsNamed) : p.IsNamed := by
  have hfactors := Product.references_ofFactors? rs
  rw [hp] at hfactors
  intro r hr
  exact hrs r (hfactors ▸ hr)

theorem Statement.IsNamed.product {s : Statement} {p : Product} (hs : s.IsNamed)
    (hp : s.product? = some p) : p.IsNamed :=
  Product.isNamed_of_ofFactors? hp fun r hr => hs r (List.mem_cons_of_mem _ hr)

end Formula

open Formula

namespace Graph

variable {g g' : Graph} {config : Config}

/-! ### Runs and references -/

section Refines

variable {α β γ δ : Type} {R : α → Graph → β → Prop} {S : γ → Graph → δ → Prop}

/-- A run ends as its reference says: with the same fault, or with a result and a graph that are
related to the result of the reference. -/
def Refines (R : α → Graph → β → Prop) (r : EStateM.Result Fault Graph α) :
    Except Fault β → Prop
  | .error e => ∃ g', r = .error e g'
  | .ok b => ∃ a g', r = .ok a g' ∧ R a g' b

theorem Refines.bind {x : Run α} {f : α → Run γ} {y : Except Fault β} {k : β → Except Fault δ}
    (h : Refines R (x g) y) (hk : ∀ a g' b, R a g' b → Refines S (f a g') (k b)) :
    Refines S ((x >>= f) g) (y >>= k) := by
  cases y with
  | error e =>
    obtain ⟨g', hx⟩ := h
    exact ⟨g', bind_eq_of_error hx⟩
  | ok b =>
    obtain ⟨a, g', hx, hR⟩ := h
    rw [bind_eq_of_ok hx]
    exact hk a g' b hR

end Refines

/-! ### Simulation -/

/-- The graph holds at each public name what the course gives to it, and the run has computed and
met what the course says. The names that were computed are public and still have a matrix. -/
structure Simulates (progress : Progress) (g : Graph) (c : Course) : Prop where
  isWellFormed : g.IsWellFormed
  represents : ∀ {name}, IsPublic name → g.Represents name (c.env.lookup name)
  computed : progress.computed = c.computed
  obstructions : progress.issues.map Issue.obstruction = c.obstructions
  isBound : ∀ name ∈ c.computed, IsPublic name ∧ (c.env.lookup name).isSome

/-- The matrix of a result holds the value; there is a result exactly if there is a value. The name
of a result is not public. -/
def Delivers (g : Graph) : Option Text → Option IntMatrix → Prop :=
  Option.Rel fun result M => ¬IsPublic result ∧ g.Holds result M

variable {progress : Progress} {c : Course}

theorem Simulates.mem_keys_iff (h : Simulates progress g c) {name : Text} (hname : IsPublic name) :
    name ∈ g.matrices.keys ↔ name ∈ c.env.names := by
  rw [Std.ExtTreeMap.mem_keys, Std.ExtTreeMap.mem_iff_contains, ← Association.lookup_isSome_iff]
  exact Bool.eq_iff_iff.1 (h.represents hname).hasMatrix

/-- Both have the same last member of a family. -/
theorem Simulates.lastIndex?_eq (h : Simulates progress g c) {base : Text} (hbase : IsBase base) :
    lastIndex? g.matrices.keys base = lastIndex? c.env.names base :=
  lastIndex?_congr fun _ hdigits => h.mem_keys_iff (isPublic_of_memberDigits? hbase hdigits)

theorem Simulates.resolve_eq (h : Simulates progress g c) {p : Product} (hp : p.IsNamed)
    (n : Int) : g.resolve p n = p.resolve n c.env.names :=
  Product.resolve_congr fun r hr => h.lastIndex?_eq (hp r hr).1

/-! ### Steps -/

/-- **A statement is evaluated** as in the course. -/
theorem evaluateStatement_refines (h : Simulates progress g c) {p : Product} (hp : p.IsNamed)
    (n : Int) :
    Refines (fun a g' b => Simulates a.2 g' b.2 ∧ Delivers g' a.1 b.1)
      (evaluateStatement p n progress g) (c.evaluate p n) := by
  have hrun : evaluateStatement p n progress g = (do
      let p ← liftIndex (p.resolve n c.env.names)
      let e ← evaluate p progress.occurrence
      return (e.result?, { progress with
        occurrence := e.occurrence, issues := progress.issues ++ e.issues })) g := by
    rw [← h.resolve_eq hp n]
    rfl
  rw [hrun, Course.evaluate, Product.valueAt_eq]
  cases hresolve : p.resolve n c.env.names with
  | error e => exact ⟨g, rfl⟩
  | ok p' =>
    have hpublic := hp.isPublic_of_resolve hresolve
    obtain ⟨e, g', hevaluate, heval⟩ := evaluate_spec (o := progress.occurrence) h.isWellFormed
      fun r hr => ⟨hpublic r hr, h.represents (hpublic r hr)⟩
    refine ⟨_, g', bind_eq_of_ok hevaluate, ⟨heval.isWellFormed, fun hname => ?_, h.computed, ?_,
      h.isBound⟩, ?_⟩
    · exact (h.represents hname).of_keeps (heval.keeps (hname.isSettled _ _))
    · rw [List.map_append, h.obstructions, heval.obstructions]
    · cases hM : (p'.value c.env).1 with
      | none =>
        rw [Delivers, heval.of_value_eq_none hM]
        exact .none
      | some M =>
        obtain ⟨hresult, -, hholds, -⟩ := heval.of_value_eq_some hM
        rw [Delivers, hresult]
        exact .some ⟨p'.not_isPublic_resultName _ _, hholds⟩

/-- **A result is recorded** as in the course. -/
theorem record_refines (h : Simulates progress g c) {result target : Text} {M : IntMatrix}
    (hresult : ¬IsPublic result) (hM : g.Holds result M) (htarget : IsPublic target) :
    ∃ progress' g', record result target progress g = .ok progress' g' ∧
      Simulates progress' g' (c.bind target M) := by
  have hne : result ≠ target := fun he => hresult (he ▸ htarget)
  obtain ⟨g', hstore, hw, -, hholds⟩ := store_spec h.isWellFormed hM hne
  refine ⟨_, g', bind_eq_of_ok hstore, hw.isWellFormed, fun {name} hname => ?_, ?_,
    h.obstructions, fun name hname => ?_⟩
  · rw [Course.bind, Association.lookup_put]
    split
    · next he => exact he ▸ hholds
    · next he => exact (h.represents hname).of_keeps (hw.keeps name he)
  · exact congrArg (· ++ [target]) h.computed
  · rw [Course.bind, Association.lookup_put]
    rcases List.mem_append.1 hname with hname | hname
    · refine ⟨(h.isBound name hname).1, ?_⟩
      split
      · rfl
      · exact (h.isBound name hname).2
    · obtain rfl := List.mem_singleton.1 hname
      exact ⟨htarget, by rw [if_pos rfl]; rfl⟩

/-! ### Base cases and recurrences -/

/-- **Base cases** are taken as in the course. -/
theorem runBaseCases_refines {ss : List Statement} (hss : ∀ s ∈ ss, s.IsNamed)
    (h : Simulates progress g c) :
    Refines Simulates (runBaseCases ss progress g) (Course.runBaseCases ss c) := by
  induction ss generalizing progress g c with
  | nil => exact ⟨progress, g, rfl, h⟩
  | cons s ss ih =>
    have hnamed := hss s List.mem_cons_self
    have ih {progress g c} := @ih progress g c fun t ht => hss t (List.mem_cons_of_mem s ht)
    rw [runBaseCases, Course.runBaseCases]
    cases hp : s.product? with
    | none => exact ih h
    | some p =>
      refine (evaluateStatement_refines h (hnamed.product hp) 0).bind ?_
      rintro ⟨result?, progress'⟩ g' ⟨M?, c'⟩ ⟨hsim, hdelivers⟩
      cases hdelivers with
      | none => exact ih hsim
      | some hresult =>
        obtain ⟨progress'', g'', hrecord, hsim'⟩ := record_refines hsim hresult.1 hresult.2
          (hnamed s.target List.mem_cons_self).2
        dsimp only
        rw [bind_eq_of_ok hrecord]
        exact ih hsim'

/-- **A recurrence** is applied as in the course. -/
theorem runRecurrence_refines {target : Reference} {p : Product} (htarget : IsBase target.base)
    (hp : p.IsNamed) {count : Nat} {index : Int} (h : Simulates progress g c) :
    Refines Simulates (runRecurrence target p count index progress g)
      (Course.runRecurrence target p count index c) := by
  induction count generalizing index progress g c with
  | zero => exact ⟨progress, g, rfl, h⟩
  | succ count ih =>
    rw [runRecurrence, Course.runRecurrence, Course.sub_targetOffset]
    refine (evaluateStatement_refines h hp _).bind ?_
    rintro ⟨result?, progress'⟩ g' ⟨M?, c'⟩ ⟨hsim, hdelivers⟩
    cases hdelivers with
    | none => exact ⟨progress', g', rfl, hsim⟩
    | some hresult =>
      have hpublic : ∀ name, memberName? target.base index = .ok name → IsPublic name :=
        fun _ => isPublic_of_memberName? htarget
      dsimp only
      -- whether an index may be shown is not to be computed: the bound is a number of 4301 digits
      generalize memberName? target.base index = name? at hpublic ⊢
      cases name? with
      | error e => exact ⟨g', rfl⟩
      | ok name =>
        obtain ⟨progress'', g'', hrecord, hsim'⟩ := record_refines hsim hresult.1 hresult.2
          (hpublic name rfl)
        have hlift : liftIndex (.ok name) g' = .ok name g' := rfl
        rw [bind_eq_of_ok hlift, bind_eq_of_ok hrecord]
        exact ih hsim'

/-! ### Runs -/

theorem Simulates.nextIndex_eq (h : Simulates progress g c) {base : Text} (hbase : IsBase base) :
    g.nextIndex base = (lastIndex? c.env.names base).map fun last? =>
      match last? with
      | some last => (last : Int) + 1
      | none => 0 := by
  rw [← h.lastIndex?_eq hbase]
  exact Graph.nextIndex_eq g base

/-- **The statements of a plan** are run as in its course. -/
theorem runStatements_refines {plan : IterativePlan} (hplan : ∀ s ∈ plan.statements, s.IsNamed)
    (config : Config) {env : Environment} (hg : g.IsWellFormed)
    (henv : ∀ {name}, IsPublic name → g.Represents name (env.lookup name)) :
    Refines Simulates (runStatements plan config g) (Course.run plan config env) := by
  have hstart : Simulates ⟨0, [], []⟩ g ⟨env, [], []⟩ :=
    ⟨hg, henv, rfl, rfl, fun name hname => absurd hname List.not_mem_nil⟩
  have hbase := runBaseCases_refines (fun s hs => hplan s (List.mem_append_left _ hs)) hstart
  refine hbase.bind ?_
  intro progress g c h
  cases hs : plan.recurrence? with
  | none => exact ⟨progress, g, rfl, h⟩
  | some s =>
    have hmem : s ∈ plan.recurrence?.toList := by
      rw [hs]
      exact List.mem_cons_self
    have hnamed : s.IsNamed := hplan s (List.mem_append_right _ hmem)
    dsimp only
    cases hp : s.product? with
    | none => exact ⟨progress, g, rfl, h⟩
    | some p =>
      have htarget := (hnamed s.target List.mem_cons_self).1
      have hrun : (do
          let index ← liftIndex ((← get).nextIndex s.target.base)
          runRecurrence s.target p (← rethrow (recurrenceCount config)) index progress) g = (do
          let index ← liftIndex (g.nextIndex s.target.base)
          runRecurrence s.target p (← rethrow (recurrenceCount config)) index progress) g := rfl
      dsimp only
      rw [hrun, h.nextIndex_eq htarget]
      cases lastIndex? c.env.names s.target.base with
      | error e => exact ⟨g, rfl⟩
      | ok last? =>
        cases recurrenceCount config with
        | error e => exact ⟨g, rfl⟩
        | ok count => exact runRecurrence_refines htarget (hnamed.product hp) h

/-! ### Recomputing -/

/-- The course of a plan from the input matrices of a graph on. -/
def course (g : Graph) (plan : IterativePlan) (config : Config) : Except Fault Course := do
  let names ← (inputNames (.iterative plan) config).mapError .index
  Course.run plan config (g.inputs config names)

/-- A recompute has followed a course: `o` tells what the course computed and met, the graph holds
at the public names what the environment of the course gives to them, and at the output what the
course leaves there. `previous` is the shape that the output had before. -/
structure Follows (config : Config) (previous : Option (Nat × Nat)) (o : Outcome) (g : Graph)
    (c : Course) : Prop where
  obstacle : o.obstacle? = none
  computed : o.computed = c.computed
  obstructions : o.issues.map Issue.obstruction = c.obstructions
  holds : ∀ name ∈ c.computed, ∃ M, c.env.lookup name = some M ∧ g.Holds name M
  represents : ∀ {name}, IsPublic name → name ≠ config.output →
    g.Represents name (c.env.lookup name)
  represents_output : g.Represents config.output (c.output? config previous)
  output : o.output? = (c.output? config previous).map fun _ => config.output
  shape : o.shape? = if config.output = "" then none
    else (c.output? config previous).map IntMatrix.shape

/-- What the end of a run writes into the output matrix. -/
theorem Simulates.finish_spec (h : Simulates progress g c) (hout : IsPublic config.output)
    (hnotMem : config.output ∉ c.computed) (before : Graph) :
    ∃ g', finish config (before.shape? config.output) progress.computed.getLast? g = .ok () g' ∧
      g.WritesOnly g' config.output ∧
      g'.Represents config.output (c.output? config (before.shape? config.output)) := by
  rw [h.computed, Course.output?]
  cases hlast : c.computed.getLast? with
  | none =>
    obtain ⟨g', hfinish, hw, hrep⟩ := finish_none_spec h.isWellFormed before config
    exact ⟨g', hfinish, hw, hrep _ (h.represents hout)⟩
  | some last =>
    have hmem : last ∈ c.computed := List.mem_of_getLast? hlast
    obtain ⟨hpublic, hsome⟩ := h.isBound last hmem
    obtain ⟨M, hM⟩ := Option.isSome_iff_exists.1 hsome
    have hholds : g.Holds last M := by
      have hrep := h.represents hpublic
      rwa [hM] at hrep
    have hne : last ≠ config.output := fun he => hnotMem (he ▸ hmem)
    obtain ⟨g', hstore, hw, -, hholds'⟩ := store_spec h.isWellFormed hholds hne
    refine ⟨g', hstore, hw, ?_⟩
    dsimp only
    rw [hM]
    exact hholds'

/-- A run that has come as far as its course ends as the course says. -/
theorem Simulates.exists_follows (h : Simulates progress g c) (hout : IsPublic config.output)
    (hnotMem : config.output ∉ c.computed) (before : Graph) :
    ∃ o g', (do
        finish config (before.shape? config.output) progress.computed.getLast?
        outcome config progress.computed progress.issues) g = .ok o g' ∧
      Follows config (before.shape? config.output) o g' c := by
  obtain ⟨g', hfinish, hw, hrep⟩ := h.finish_spec hout hnotMem before
  obtain ⟨o, houtcome, hcomputed, hissues, hobstacle, hreport⟩ :=
    outcome_spec config progress.computed progress.issues g'
  have hkeeps : ∀ {name}, IsPublic name → name ≠ config.output →
      g'.Represents name (c.env.lookup name) := fun hname hne =>
    (h.represents hname).of_keeps (hw.keeps _ hne)
  refine ⟨o, g', (bind_eq_of_ok hfinish).trans houtcome, hobstacle, hcomputed.trans h.computed, ?_,
    fun name hname => ?_, hkeeps, hrep, (hreport _ hrep).1, (hreport _ hrep).2⟩
  · rw [hissues, h.obstructions]
  · obtain ⟨hpublic, hsome⟩ := h.isBound name hname
    obtain ⟨M, hM⟩ := Option.isSome_iff_exists.1 hsome
    have hrep := hkeeps hpublic fun he => hnotMem (he ▸ hname)
    rw [hM] at hrep
    exact ⟨M, hM, hrep⟩

/-- **Recomputing an iterative plan** follows the course of the plan from the input matrices on. If
an index makes no number or the number of iterations is none the recompute ends with this fault.
Otherwise it returns, and what it computes, the issues it meets and the matrices it leaves are those
of the course, as long as the output is none of the names that the course computes. -/
theorem recompute_iterative {formula output : Text} {plan : IterativePlan}
    {iterations rows cols sizeLimit iterationLimit : Datum} {sizes : Association (Datum × Datum)}
    (hread : Plan.read formula = .ok (.iterative plan))
    (hnames : ∀ s ∈ plan.statements, ∀ r ∈ s.target :: s.factors, .char '@' ∉ r.name.symbols)
    (hconfig : Config.make output iterations sizes rows cols sizeLimit iterationLimit = .ok config)
    (hobstacle : (Plan.iterative plan).obstacle? config.output = none)
    (hout : IsPublic config.output) (hg : g.IsReachable)
    (hint : ∀ id ∈ g.nodes, (g.cell id).IsInt) :
    (∀ e, g.course plan config = .error e →
      (e = .index .unreadable ∨ e = .iterations ∧ config.iterations? = none) ∧
        ∃ g', recompute (.iterative plan) config g = .error e g') ∧
    ∀ c, g.course plan config = .ok c → config.output ∉ c.computed →
      ∃ o g', recompute (.iterative plan) config g = .ok o g' ∧
        Follows config (g.shape? config.output) o g' c := by
  have hplan : ∀ s ∈ plan.statements, s.IsNamed := by
    intro s hs r hr
    obtain ⟨htarget, hfactors⟩ := Plan.isWritten_of_read hread s hs
    have hbase : ∀ r ∈ s.target :: s.factors, IsBase r.base :=
      List.forall_mem_cons.2 ⟨htarget, hfactors⟩
    exact ⟨hbase r hr, isPublic_name (hbase r hr) (hnames s hs r hr)⟩
  cases hinput : inputNames (.iterative plan) config with
  | error i =>
    have hcourse : g.course plan config = .error (.index i) := by
      rw [course, hinput]
      rfl
    refine ⟨fun e he => ?_, fun c hc => ?_⟩
    · rw [hcourse] at he
      cases he
      refine ⟨.inl (congrArg Fault.index (by cases i; rfl)), g, ?_⟩
      exact recompute_of_inputNames_error hobstacle hinput
    · rw [hcourse] at hc
      cases hc
  | ok names =>
    have hcourse : g.course plan config = Course.run plan config (g.inputs config names) := by
      rw [course, hinput]
      rfl
    have hminted := hg.isWellFormed.toIsMinted
    obtain ⟨g₀, hrebuild, hwf, -, hrep, -, -⟩ :=
      rebuild_inputs (Config.hasCells_of_make hconfig).2 hminted (nodup_of_inputNames hinput)
    have hrun := runStatements_refines hplan config hwf fun {name} _ =>
      hrep name (isIntegral_of_forall_isInt hminted hint config name)
    have hrecompute : recompute (.iterative plan) config g = (do
        let progress ← runStatements plan config
        finish config (g.shape? config.output) progress.computed.getLast?
        outcome config progress.computed progress.issues) g₀ := by
      rw [recompute_eq hobstacle hinput hrebuild, runPlan, runIterative_eq]
    rw [hcourse, hrecompute]
    refine ⟨fun e he => ?_, fun c hc hnotMem => ?_⟩
    · rw [he] at hrun
      obtain ⟨g', hrun⟩ := hrun
      exact ⟨Course.fault_of_run he, g', bind_eq_of_error hrun⟩
    · rw [hc] at hrun
      obtain ⟨progress, g₁, hrun, h⟩ := hrun
      rw [bind_eq_of_ok hrun]
      exact h.exists_follows hout hnotMem g

/-- The plan of `K_0=A,K_{n+1}=A*K_n`. -/
def powerPlan : IterativePlan where
  baseCases := [⟨⟨"K", .number 0, false, 0⟩, [⟨"A", .absent, false, 0⟩], "K_0=A"⟩]
  recurrence? := some ⟨⟨"K", .next, false, 0⟩,
    [⟨"A", .absent, false, 0⟩, ⟨"K", .current, false, 2⟩], "K_\x7bn+1\x7d=A*K_n"⟩
  constants := []
  explicit := ["K_0"]
  replaced := []
  fault? := none
  text := "K_0=A,K_\x7bn+1\x7d=A*K_n"

/-- Settings that ask for three iterations. -/
def powerConfig : Config :=
  ⟨"O", some 3, [], (2, 2)⟩

/-- A graph in which `A` is `1 1` over `0 1`. -/
def powerGraph : Graph :=
  runAll "elem" [.initMatrix "A" 2 2, .update "A" 0 0 (.int 1) none none none,
    .update "A" 0 1 (.int 1) none none none, .update "A" 1 1 (.int 1) none none none]

theorem isReachable_powerGraph : powerGraph.IsReachable :=
  ⟨"elem", _, rfl⟩

theorem isInt_powerGraph : ∀ id ∈ powerGraph.nodes, (powerGraph.cell id).IsInt :=
  isReachable_powerGraph.isWellFormed.toIsMinted.forall_cell_iff.2 (by decide +kernel)

/-- Three iterations of `A*K_n` from `A` on make the fourth power of `A`. -/
theorem recompute_iterative_sample : ∃ o g' P,
    recompute (.iterative powerPlan) powerConfig powerGraph = .ok o g' ∧
      o.computed = ["K_0", "K_1", "K_2", "K_3"] ∧ o.issues = [] ∧ P.shape = (2, 2) ∧
      P.get 0 1 = 4 ∧ g'.Holds "O" P := by
  have hread : Plan.read "K_0=A,K_\x7bn+1\x7d=A*K_n" = .ok (.iterative powerPlan) := by
    decide +kernel
  have hconfig : Config.make "O" (.int 3) [] (.int 2) (.int 2) (.int 50) (.int 50) =
      .ok powerConfig := rfl
  obtain ⟨-, hfollows⟩ := recompute_iterative hread (by decide) hconfig (by decide +kernel)
    (by decide) isReachable_powerGraph isInt_powerGraph
  have hcourse : (powerGraph.course powerPlan powerConfig).toOption.map (fun c =>
      (c.computed, c.obstructions, (c.output? powerConfig none).map fun P =>
        (P.shape, P.get 0 1))) =
      some ((["K_0", "K_1", "K_2", "K_3"] : List Text), [], some ((2, 2), 4)) := by
    decide +kernel
  have hprevious : powerGraph.shape? powerConfig.output = none := by decide +kernel
  cases hc : powerGraph.course powerPlan powerConfig with
  | error e =>
    rw [hc] at hcourse
    cases hcourse
  | ok c =>
    rw [hc] at hcourse
    simp only [Except.toOption, Option.map_some, Option.some.injEq, Prod.mk.injEq] at hcourse
    obtain ⟨hcomputed, hobstructions, hentries⟩ := hcourse
    have hnotMem : powerConfig.output ∉ c.computed := by
      rw [hcomputed]
      decide
    obtain ⟨o, g', hrun, h⟩ := hfollows c hc hnotMem
    obtain ⟨P, hP, hentries⟩ := Option.map_eq_some_iff.1 hentries
    have hholds := h.represents_output
    rw [hprevious, hP] at hholds
    refine ⟨o, g', P, hrun, h.computed.trans hcomputed, ?_, (Prod.mk.inj hentries).1,
      (Prod.mk.inj hentries).2, hholds⟩
    exact List.map_eq_nil_iff.1 (h.obstructions.trans hobstructions)

end Graph

end CellLineage
