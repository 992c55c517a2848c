import CellLineage.Proofs.Formula.Inputs
import CellLineage.Proofs.Recompute.Acyclic

/-!
# The members that a recompute starts from

The members of the sequences that a plan computes are not restored: a declared matrix is left out of
the input if it has the name of a member. That name is printed from the index that was read off the
declared one, so a declared matrix is left out only if it is *spelled* as its index is printed. One
that is spelled otherwise, with leading zeros for instance, is restored, and then counts as a member
(`Graph.members_restored`). All other members that the rebuilt graph has are matrices that the
formula reads.

If no declared matrix is misspelt, the indices known after the input was rebuilt are just those that
the formula reads, and those known after the base cases were run are these and the ones computed.
So what was declared or computed before has no say in where the recurrence goes on.

## Main definitions

* `Formula.IsCounted`, `Formula.IsSpelled`: names that count as members, and those that members
  have.
* `Graph.HasAdded`: the matrices that are there part-way through a run.

## Main results

* `memberIndices_eq_of_sorted`: known indices depend only on which names count.
* `not_isSpelled_of_withoutMembers`: what is left of declared names.
* `Graph.HasAdded.runBaseCases`: the matrices that are there after the base cases.
* `Graph.rebuild_members`: the members that a recompute starts from.
-/

namespace CellLineage

open Formula

namespace Formula

variable {base name : Text} {names names' : List Text}

/-- The name counts as that of a member of the family. -/
def IsCounted (base name : Text) : Prop :=
  (memberDigits? base name).isSome = true

instance (base name : Text) : Decidable (IsCounted base name) :=
  inferInstanceAs (Decidable (_ = true))

/-- The name is that which a member of the family is given. -/
def IsSpelled (base name : Text) : Prop :=
  ∃ n : Nat, name = memberName base n

/-- The indices of a family are read off the names that count. -/
theorem memberIndices_filter (names : List Text) (base : Text) :
    memberIndices (names.filter (IsCounted base ·)) base = memberIndices names base := by
  have hdigits : (names.filter (IsCounted base ·)).filterMap (memberDigits? base) =
      names.filterMap (memberDigits? base) := by
    rw [List.filterMap_filter]
    refine List.filterMap_congr fun name _ => ?_
    cases hname : memberDigits? base name <;> simp [IsCounted, hname]
  rw [memberIndices, hdigits, memberIndices]

/-- **The indices of a family** depend only on which of the names count, as long as the names are
listed in order. -/
theorem memberIndices_eq_of_sorted (hnames : names.Pairwise fun a b => compare a b = .lt)
    (hnames' : names'.Pairwise fun a b => compare a b = .lt)
    (h : ∀ name, IsCounted base name → (name ∈ names ↔ name ∈ names')) :
    memberIndices names base = memberIndices names' base := by
  have hfilter : names.filter (IsCounted base ·) = names'.filter (IsCounted base ·) := by
    rw [eq_sortedNames (hnames'.filter _) fun name => Iff.rfl]
    refine eq_sortedNames (hnames.filter _) fun name => ?_
    rw [List.mem_filter, List.mem_filter, decide_eq_true_eq]
    exact and_congr_left (h name)
  rw [← memberIndices_filter, hfilter, memberIndices_filter]

/-- The index of a member that is there is known. -/
theorem mem_memberIndices {indices : List Nat} {n : Nat}
    (h : memberIndices names base = .ok indices) (hn : memberName base n ∈ names) : n ∈ indices := by
  have hdigits : Nat.toDigits 10 n ∈ names.filterMap (memberDigits? base) :=
    List.mem_filterMap.2 ⟨_, hn, memberDigits?_memberName base n⟩
  rw [memberIndices, mapM_readIndex] at h
  split at h
  · next hall =>
    cases h
    obtain ⟨m, hm⟩ := Option.isSome_iff_exists.1 (hall _ hdigits)
    obtain rfl := eq_of_readNat?_toDigits hm
    rw [List.mem_mergeSort]
    exact List.mem_filterMap.2 ⟨_, hdigits, hm⟩
  · cases h

end Formula

/-! ### What is left of declared names -/

/-- A name that is left has not the spelling of a member of one of the families. -/
theorem not_isSpelled_of_withoutMembers {names kept families : List Text} {family name : Text}
    (h : withoutMembers names families = .ok kept) (hfamily : family ∈ families)
    (hname : name ∈ kept) : ¬IsSpelled family name := by
  induction families generalizing names with
  | nil => exact absurd hfamily List.not_mem_nil
  | cons first families ih =>
    obtain ⟨indices, hindices, h⟩ := exists_of_bind_eq_ok h
    rcases List.mem_cons.1 hfamily with rfl | hfamily
    · rintro ⟨n, rfl⟩
      obtain ⟨hmem, hleft⟩ := List.mem_filter.1 (subset_of_withoutMembers h hname)
      exact of_decide_eq_true hleft
        (List.mem_map.2 ⟨n, mem_memberIndices hindices hmem, rfl⟩)
    · exact ih h hfamily

/-- The input of an iterative plan is what it reads, and declared matrices of which none has the
spelling of a member that the plan computes. -/
theorem mem_inputNames_cases {p : IterativePlan} {config : Config} {names : List Text} {name : Text}
    (h : inputNames (.iterative p) config = .ok names) (hname : name ∈ names) :
    name ∈ (Plan.iterative p).baseMatrices ∨
      name ∈ config.shapes.names ∧ ∀ family ∈ p.families, ¬IsSpelled family name := by
  obtain ⟨kept, hkept, h⟩ := exists_of_bind_eq_ok h
  cases h
  rcases List.mem_append.1 (mem_sortedNames.1 hname) with hname | hname
  · have hdeclared := List.mem_filter.1 (List.mem_filter.1 (subset_of_withoutMembers hkept hname)).1
    exact .inr ⟨hdeclared.1, fun family hfamily =>
      not_isSpelled_of_withoutMembers hkept hfamily hname⟩
  · exact .inl hname

namespace Graph

variable {g g' g₀ : Graph} {config : Config} {progress progress' : Progress} {name : Text}

theorem pairwise_keys (g : Graph) : g.matrices.keys.Pairwise fun a b => compare a b = .lt :=
  Std.ExtTreeMap.ordered_keys

/-! ### What base cases add -/

/-- A run has come as far as `progress` from the graph `g₀`: of the matrices that evaluating does
not name, those are there that were there before and those that were computed. -/
structure HasAdded (g₀ : Graph) (progress : Progress) (g : Graph) : Prop where
  isWellFormed : g.IsWellFormed
  mem_matrices_iff : ∀ name ∉ generatedNames,
    (name ∈ g.matrices ↔ name ∈ g₀.matrices ∨ name ∈ progress.computed)

theorem HasAdded.evaluateStatement (h : HasAdded g₀ progress g) {p : Product} {n : Int}
    {result? : Option Text}
    (hrun : evaluateStatement p n progress g = .ok (result?, progress') g') :
    HasAdded g₀ progress' g' ∧ ∀ result, result? = some result → result ∈ g'.matrices := by
  have hwrites := writes_evaluateStatement p n progress g
  rw [after_of_ok hrun] at hwrites
  rw [Graph.evaluateStatement, get_bind_eq] at hrun
  obtain ⟨q, g₁, -, hrun⟩ := exists_run_of_bind hrun
  obtain ⟨e, g₂, hevaluate, hrun⟩ := exists_run_of_bind hrun
  cases hrun
  refine ⟨⟨hwrites.edits.isWellFormed h.isWellFormed, fun name hname => ?_⟩,
    fun result => mem_matrices_of_evaluate hevaluate⟩
  rw [← h.mem_matrices_iff name hname, Std.ExtTreeMap.mem_iff_isSome_getElem?,
    (hwrites.keeps h.isWellFormed hname).matrices, ← Std.ExtTreeMap.mem_iff_isSome_getElem?]

theorem HasAdded.record (h : HasAdded g₀ progress g) {result target : Text}
    (hresult : result ∈ g.matrices) (hrun : record result target progress g = .ok progress' g') :
    HasAdded g₀ progress' g' := by
  obtain ⟨b, hb⟩ := Option.isSome_iff_exists.1 (Std.ExtTreeMap.mem_iff_isSome_getElem?.1 hresult)
  obtain ⟨g₁, hstore, hw, hshape⟩ := store_shape h.isWellFormed
    (show g.shape? result = some b.shape by rw [shape?, hb]; rfl) target
  rw [Graph.record, bind_eq_of_ok hstore] at hrun
  cases hrun
  refine ⟨hw.isWellFormed, fun name hname => ?_⟩
  rw [List.mem_append, List.mem_singleton, ← or_assoc, ← h.mem_matrices_iff name hname]
  by_cases he : name = target
  · subst he
    refine iff_of_true ?_ (.inr rfl)
    rw [Std.ExtTreeMap.mem_iff_isSome_getElem?, ← Option.isSome_map (f := Block.shape)]
    exact Option.isSome_of_eq_some hshape
  · rw [or_iff_left he, Std.ExtTreeMap.mem_iff_isSome_getElem?, (hw.keeps name he).matrices,
      ← Std.ExtTreeMap.mem_iff_isSome_getElem?]

/-- **Base cases** add the matrices that they compute. -/
theorem HasAdded.runBaseCases {ss : List Statement} (h : HasAdded g₀ progress g)
    (hrun : runBaseCases ss progress g = .ok progress' g') : HasAdded g₀ progress' g' := by
  induction ss generalizing progress g with
  | nil =>
    cases hrun
    exact h
  | cons s ss ih =>
    rw [Graph.runBaseCases] at hrun
    cases hp : s.product? with
    | none =>
      rw [hp] at hrun
      exact ih h hrun
    | some p =>
      rw [hp] at hrun
      obtain ⟨⟨result?, progress₁⟩, g₁, hevaluate, hrun⟩ := exists_run_of_bind hrun
      obtain ⟨h₁, hresult⟩ := h.evaluateStatement hevaluate
      cases result? with
      | none => exact ih h₁ hrun
      | some result =>
        obtain ⟨progress₂, g₂, hrecord, hrun⟩ := exists_run_of_bind hrun
        exact ih (h₁.record (hresult result rfl) hrecord) hrun

/-! ### What is known after the input was rebuilt -/

/-- The families that a plan computes have bases as the grammar wants them. -/
theorem isBase_of_mem_families {formula family : Text} {p : IterativePlan}
    (hread : Plan.read formula = .ok (.iterative p)) (hfamily : family ∈ p.families) :
    IsBase family := by
  obtain ⟨s, hs, rfl⟩ := List.mem_map.1 hfamily
  exact (Plan.isWritten_of_read hread s hs).1

theorem pairwise_baseMatrices (p : IterativePlan) :
    (Plan.iterative p).baseMatrices.Pairwise fun a b => compare a b = .lt := by
  unfold Plan.baseMatrices
  split
  · exact List.Pairwise.nil
  · exact (pairwise_sortedNames _).filter _

/-- **The members that a recompute starts from.** Whatever counts as a member of a sequence that the
plan computes, once the input was rebuilt, is a matrix that the formula reads, or else a declared
one whose name is spelled otherwise than that of any member. If there is no declared name of the
second kind, the indices known then are those of the matrices that the formula reads, and the
indices known when the base cases were run are those of these matrices and of the ones computed: so
where the recurrence goes on depends neither on what is declared nor on what was there before. A
recompute whose input cannot be told leaves the graph as it is. -/
theorem rebuild_members {formula output : Text} {p : IterativePlan}
    {iterations rows cols sizeLimit iterationLimit : Datum} {sizes : Association (Datum × Datum)}
    (hread : Plan.read formula = .ok (.iterative p))
    (hconfig : Config.make output iterations sizes rows cols sizeLimit iterationLimit = .ok config)
    (hobstacle : (Plan.iterative p).obstacle? config.output = none) (hg : g.IsReachable) :
    (∃ e, inputNames (.iterative p) config = .error e ∧
      recompute (.iterative p) config g = .error (.index e) g) ∨
    ∃ names g₀, inputNames (.iterative p) config = .ok names ∧ rebuild config names g = .ok () g₀ ∧
      (∀ family ∈ p.families, ∀ name ∈ g₀.matrices, IsCounted family name →
        name ∈ (Plan.iterative p).baseMatrices ∨
          name ∈ config.shapes.names ∧ ¬IsSpelled family name) ∧
      ((∀ family ∈ p.families, ∀ name ∈ config.shapes.names,
          name ∉ (Plan.iterative p).baseMatrices → IsCounted family name → IsSpelled family name) →
        ∀ family ∈ p.families,
          memberIndices g₀.matrices.keys family =
            memberIndices (Plan.iterative p).baseMatrices family ∧
          ∀ progress g₁, runBaseCases p.baseCases ⟨0, [], []⟩ g₀ = .ok progress g₁ →
            memberIndices g₁.matrices.keys family =
              memberIndices (sortedNames ((Plan.iterative p).baseMatrices ++ progress.computed))
                family) := by
  cases hinput : inputNames (.iterative p) config with
  | error e => exact .inl ⟨e, rfl, recompute_of_inputNames_error hobstacle hinput⟩
  | ok names =>
    obtain ⟨g₀, hrebuild, hwf, -, habsent, hpainted⟩ := rebuild_spec
      (Config.hasCells_of_make hconfig).2 hg.isWellFormed.toIsMinted (nodup_of_inputNames hinput)
    have hmem (name : Text) : name ∈ g₀.matrices ↔ name ∈ names := by
      rw [Std.ExtTreeMap.mem_iff_isSome_getElem?]
      by_cases hname : name ∈ names
      · obtain ⟨b, hb, -⟩ := hpainted name hname
        simp [hb, hname]
      · simp [habsent name hname, hname]
    have hcases : ∀ family ∈ p.families, ∀ name ∈ g₀.matrices,
        name ∈ (Plan.iterative p).baseMatrices ∨
          name ∈ config.shapes.names ∧ ¬IsSpelled family name := fun family hfamily name hname =>
      (mem_inputNames_cases hinput ((hmem name).1 hname)).imp_right fun h =>
        ⟨h.1, h.2 family hfamily⟩
    refine .inr ⟨names, g₀, rfl, hrebuild,
      fun family hfamily name hname _ => hcases family hfamily name hname,
      fun hspelled family hfamily => ?_⟩
    have hcounted : ∀ name, IsCounted family name →
        (name ∈ g₀.matrices ↔ name ∈ (Plan.iterative p).baseMatrices) := by
      intro name hname
      refine ⟨fun h => ?_, fun h => (hmem name).2 (mem_inputNames_of_mem_baseMatrices hinput h)⟩
      refine (hcases family hfamily name h).elim id fun ⟨hdeclared, hnot⟩ => ?_
      exact by_contra fun hbase => hnot (hspelled family hfamily name hdeclared hbase hname)
    constructor
    · refine memberIndices_eq_of_sorted g₀.pairwise_keys (pairwise_baseMatrices p)
        fun name hname => ?_
      rw [Std.ExtTreeMap.mem_keys]
      exact hcounted name hname
    · intro progress g₁ hrun
      have hadded : HasAdded g₀ ⟨0, [], []⟩ g₀ := ⟨hwf, fun name _ => by simp⟩
      refine memberIndices_eq_of_sorted g₁.pairwise_keys (pairwise_sortedNames _)
        fun name hname => ?_
      have hpublic := isPublic_of_memberDigits? (isBase_of_mem_families hread hfamily) hname
      rw [Std.ExtTreeMap.mem_keys, mem_sortedNames, List.mem_append,
        (hadded.runBaseCases hrun).mem_matrices_iff name hpublic.notMem_generatedNames,
        hcounted name hname]

/-- The plan of `K_(n+1)=A`, which has no base case. -/
def constantPlan : IterativePlan where
  baseCases := []
  recurrence? := some ⟨⟨"K", .next, false, 0⟩, [⟨"A", .absent, false, 0⟩], "K_\x7bn+1\x7d=A"⟩
  constants := []
  explicit := []
  replaced := []
  fault? := none
  text := "K_\x7bn+1\x7d=A"

/-- Settings that declare one matrix. -/
def declaringConfig (name : Text) : Config :=
  ⟨"O", some 1, [(name, 1, 1)], (1, 1)⟩

/-- A declared member `K_1` is not restored, and the recurrence begins with `K_0`. -/
theorem rebuild_members_sample :
    ∃ g₀, rebuild (declaringConfig "K_1") ["A"] unitGraph = .ok () g₀ ∧
      memberIndices g₀.matrices.keys "K" = .ok [] ∧ g₀.nextIndex "K" = .ok 0 := by
  have hread : Plan.read "K_\x7bn+1\x7d=A" = .ok (.iterative constantPlan) := by decide +kernel
  have hconfig : Config.make "O" (.int 1) [("K_1", .int 1, .int 1)] (.int 1) (.int 1) (.int 50)
      (.int 50) = .ok (declaringConfig "K_1") := rfl
  have hnames : inputNames (.iterative constantPlan) (declaringConfig "K_1") = .ok ["A"] := by
    decide +kernel
  rcases rebuild_members hread hconfig (by decide +kernel)
    (⟨"elem", _, rfl⟩ : unitGraph.IsReachable) with ⟨e, he, -⟩ |
    ⟨names, g₀, hinput, hrebuild, -, hknown⟩
  · rw [hnames] at he
    cases he
  · obtain rfl : (["A"] : List Text) = names := Except.ok.inj (hnames.symm.trans hinput)
    have hspelled : ∀ family ∈ constantPlan.families, ∀ name ∈ (declaringConfig "K_1").shapes.names,
        name ∉ (Plan.iterative constantPlan).baseMatrices → IsCounted family name →
          IsSpelled family name := by
      intro family hfamily name hname _ _
      obtain rfl := List.mem_singleton.1 hfamily
      obtain rfl := List.mem_singleton.1 hname
      exact ⟨1, by decide +kernel⟩
    obtain ⟨hindices, -⟩ := hknown hspelled "K" (by decide +kernel)
    have hnone : memberIndices (Plan.iterative constantPlan).baseMatrices "K" = .ok [] := by
      decide +kernel
    rw [hnone] at hindices
    refine ⟨g₀, hrebuild, hindices, ?_⟩
    rw [nextIndex, hindices]
    rfl

/-- **Some declared members are restored.** `K_01` counts as the member at index `1`, but is spelled
otherwise, so it is kept, and the recurrence begins with `K_2`. -/
theorem members_restored :
    Plan.read "K_\x7bn+1\x7d=A" = .ok (.iterative constantPlan) ∧
    Config.make "O" (.int 1) [("K_01", .int 1, .int 1)] (.int 1) (.int 1) (.int 50) (.int 50) =
      .ok (declaringConfig "K_01") ∧
    (Plan.iterative constantPlan).obstacle? (declaringConfig "K_01").output = none ∧
    unitGraph.IsReachable ∧
    inputNames (.iterative constantPlan) (declaringConfig "K_01") = .ok ["A", "K_01"] ∧
    (let g₀ := after (rebuild (declaringConfig "K_01") ["A", "K_01"]) unitGraph;
      ("K_01" : Text) ∈ g₀.matrices ∧ IsCounted "K" "K_01" ∧
        ("K_01" : Text) ∉ (Plan.iterative constantPlan).baseMatrices ∧
        memberIndices g₀.matrices.keys "K" = .ok [1]) ∧
    (∃ o g', recompute (.iterative constantPlan) (declaringConfig "K_01") unitGraph = .ok o g' ∧
      o.computed = ["K_2"]) ∧
    ∃ o g', recompute (.iterative constantPlan) .standard unitGraph = .ok o g' ∧
      o.computed = ["K_0"] := by
  have hcomputed {config : Config} {names : List Text}
      (h : (EStateM.run' (recompute (.iterative constantPlan) config) unitGraph).map
        Outcome.computed = some names) :
      ∃ o g', recompute (.iterative constantPlan) config unitGraph = .ok o g' ∧
        o.computed = names := by
    cases hrun : recompute (.iterative constantPlan) config unitGraph with
    | ok o g' =>
      rw [run'_of_ok hrun] at h
      exact ⟨o, g', rfl, Option.some.inj h⟩
    | error e g' =>
      rw [run'_of_error hrun] at h
      cases h
  exact ⟨by decide +kernel, rfl, by decide +kernel, ⟨"elem", _, rfl⟩, by decide +kernel,
    ⟨by decide +kernel, by decide +kernel, by decide +kernel, by decide +kernel⟩,
    hcomputed (by decide +kernel), hcomputed (by decide +kernel)⟩

end Graph

end CellLineage
