import CellLineage.Proofs.Recompute.Stages

/-!
# Recomputing a product

A simple plan is one product of factors. Its value by the input matrices decides how a recompute
ends: if all neighbours fit, the output holds the product of the factors and each intermediate
result the product of those up to it; if not, the first misfit is the only issue and nothing is
computed.

## Main definitions

* `Graph.factorMatrix`: what a factor stands for.

## Main results

* `Graph.Derives.holds`: the result of a derivation is the value of the product.
* `Graph.recompute_simple_spec`: the course of a recompute of a product.
* `Graph.recompute_product`: its outcome.
-/

namespace CellLineage

open Formula

namespace Formula.Product

theorem steps_ofFactors (first : Reference) (others : List Reference) :
    (ofFactors first others).steps = others.length := by
  induction others using List.reverseRecOn with
  | nil => rfl
  | append_singleton others r ih => rw [ofFactors_concat, steps, ih, List.length_append]; rfl

/-- The product of more than one factor is an intermediate result. -/
theorem resultName_ofFactors {others : List Reference} (hne : others ≠ []) (first : Reference)
    (o : Int) (m : Nat) : (ofFactors first others).resultName o m =
      temporaryName (m + others.length) := by
  obtain ⟨others, r, rfl⟩ : ∃ rs r, others = rs ++ [r] :=
    ⟨_, _, (List.dropLast_append_getLast hne).symm⟩
  rw [ofFactors_concat, resultName, steps_ofFactors, List.length_append]
  rfl

end Formula.Product

namespace Graph

variable {g g' : Graph} {config : Config} {env : Environment}

/-! ### What derivations hold -/

/-- **The result of a derivation** is the value of the product. -/
theorem Derives.holds {p : Product} {o : Int} {m : Nat} (h : g.Derives p o m)
    (hrefs : ∀ r ∈ p.references, g.Represents r.name (env.lookup r.name)) {M : IntMatrix}
    (hM : (p.value env).1 = some M) : g.Holds (p.resultName o m) M := by
  induction p generalizing o m M with
  | single r =>
    have hr := hrefs r List.mem_cons_self
    simp only [Product.value, Reference.value] at hM
    cases hN : env.lookup r.name with
    | none =>
      rw [hN] at hM
      cases hM
    | some N =>
      rw [hN] at hr hM
      cases hM
      have hinst : g.Holds (instanceName r.name o) N := h.1.holds hr
      cases ht : r.transposed with
      | true =>
        simp only [Product.resultName, ht, if_true]
        exact (h.2 ht).holds hinst
      | false =>
        simp only [Product.resultName, ht, Bool.false_eq_true, if_false]
        exact hinst
  | times p q ihp ihq =>
    obtain ⟨hp, hq, hprod, -⟩ := h
    cases hA : (p.value env).1 with
    | none =>
      rw [Product.value_times_of_none (.inl hA)] at hM
      cases hM
    | some A =>
      cases hB : (q.value env).1 with
      | none =>
        rw [Product.value_times_of_none (.inr hB)] at hM
        cases hM
      | some B =>
        rw [Product.value_times_of_some hA hB] at hM
        cases hP : A.mul? B with
        | none =>
          rw [hP] at hM
          cases hM
        | some P =>
          rw [hP] at hM
          cases hM
          exact hprod.holds (ihp hp (fun r hr => hrefs r (List.mem_append_left _ hr)) hA)
            (ihq hq (fun r hr => hrefs r (List.mem_append_right _ hr)) hB) hP

/-- A derivation of a product of factors holds one of each product of the first factors. -/
theorem Derives.take {first : Reference} {others : List Reference} {o : Int} {m : Nat}
    (h : g.Derives (.ofFactors first others) o m) (k : Nat) :
    g.Derives (.ofFactors first (others.take k)) o m := by
  induction others using List.reverseRecOn with
  | nil => simpa using h
  | append_singleton others r ih =>
    by_cases hk : k ≤ others.length
    · rw [List.take_append_of_le_length hk]
      rw [Product.ofFactors_concat] at h
      exact ih h.1
    · rwa [List.take_of_length_le (by simp; omega)]

/-! ### The course of a recompute -/

/-- The matrix of whole numbers that a factor stands for: the input matrix of its name, transposed
if so asked. -/
def factorMatrix (g : Graph) (config : Config) (r : Reference) : IntMatrix :=
  if r.transposed then (g.inputMatrix config r.name).transpose else g.inputMatrix config r.name

theorem value_inputs {names : List Text} {r : Reference} (h : r.name ∈ names) :
    r.value (g.inputs config names) = some (g.factorMatrix config r) := by
  rw [Reference.value, lookup_inputs, if_pos h]
  rfl

open IntMatrix in
/-- The value of a product by the input matrices. -/
theorem value_factors (g : Graph) (config : Config) {names : List Text} {first : Reference}
    {others : List Reference} (h : ∀ r ∈ first :: others, r.name ∈ names) :
    (∃ P, product? ((first :: others).map (g.factorMatrix config)) = some P ∧
      (Product.ofFactors first others).value (g.inputs config names) = (some P, [])) ∨
    ∃ before A B after,
      (first :: others).map (g.factorMatrix config) = before ++ A :: B :: after ∧
      (before ++ [A]).IsChain Fits ∧ ¬A.Fits B ∧
      (Product.ofFactors first others).value (g.inputs config names) =
        (none, [.mismatch ((g.factorMatrix config first).rows, A.cols) B.shape]) := by
  have hothers : others.map (Reference.value (g.inputs config names)) =
      (others.map (g.factorMatrix config)).map some := by
    rw [List.map_map]
    exact List.map_congr_left fun r hr => value_inputs (h r (List.mem_cons_of_mem first hr))
  exact Product.value_ofFactors (value_inputs (h first List.mem_cons_self)) hothers

open IntMatrix in
/-- If the factors have a product, it is the value. -/
theorem value_factors_of_product? {names : List Text} {first : Reference} {others : List Reference}
    {P : IntMatrix} (h : ∀ r ∈ first :: others, r.name ∈ names)
    (hP : product? ((first :: others).map (g.factorMatrix config)) = some P) :
    (Product.ofFactors first others).value (g.inputs config names) = (some P, []) := by
  rcases value_factors g config h with ⟨Q, hQ, hvalue⟩ | ⟨before, A, B, after, hsplit, -, hfits, -⟩
  · rw [hvalue, ← hQ, hP]
  · have hchain := exists_product?_iff.1 ⟨P, hP⟩
    rw [← List.map_cons, hsplit, List.isChain_append_cons_cons] at hchain
    exact absurd hchain.2.1 hfits

/-- The input matrices of a simple plan: the declared ones and those of its factors. -/
def simpleInputNames (plan : SimplePlan) (config : Config) : List Text :=
  sortedNames (config.shapes.names.filter (· != config.output) ++ (Plan.simple plan).baseMatrices)

theorem name_mem_simpleInputNames {plan : SimplePlan} (hfault : plan.fault? = none)
    {r : Reference} (hr : r ∈ plan.factors) : r.name ∈ simpleInputNames plan config := by
  have hbase : r.name ∈ (Plan.simple plan).baseMatrices := by
    simp only [Plan.baseMatrices, Plan.fault?, hfault, Option.isSome_none, Bool.false_eq_true,
      if_false, mem_sortedNames]
    exact List.mem_map_of_mem hr
  rw [simpleInputNames, mem_sortedNames]
  exact List.mem_append_right _ hbase

/-- What a recompute of a product leaves: `evaluated` is the graph before the result is put into the
output matrix, and `after` the graph at the end. -/
structure IsSimpleRun (before : Graph) (config : Config) (names : List Text) (p : Product)
    (o : Outcome) (evaluated after : Graph) : Prop where
  isWellFormed : evaluated.IsWellFormed
  restored : ∀ r ∈ p.references,
    before.RestoredFrom evaluated r.name (before.inputShape config r.name)
  represents : ∀ r ∈ p.references,
    evaluated.Represents r.name ((before.inputs config names).lookup r.name)
  writesOnly : evaluated.WritesOnly after config.output
  obstacle : o.obstacle? = none
  obstructions : o.issues.map Issue.obstruction = (p.value (before.inputs config names)).2
  of_value_eq_some : ∀ {M}, (p.value (before.inputs config names)).1 = some M →
    o.computed = [config.output] ∧ evaluated.Derives p 0 0 ∧
      after.IsCopyOf false (p.resultName 0 0) config.output ∧ after.Holds config.output M
  of_value_eq_none : (p.value (before.inputs config names)).1 = none →
    o.computed = [] ∧ (config.output ∉ names → after.Represents config.output
      ((before.shape? config.output).map fun s => .ofFn s.1 s.2 fun _ _ => 0))
  store_eq : ∀ {M}, (p.value (before.inputs config names)).1 = some M →
    store (p.resultName 0 0) config.output evaluated = .ok () after

theorem inputNames_simple (plan : SimplePlan) (config : Config) :
    inputNames (.simple plan) config = .ok (simpleInputNames plan config) :=
  rfl

/-- **The course of a recompute of a product** whose names and whose output are public: the input is
rebuilt, the product is evaluated and its value, if there is one, put into the output matrix. -/
theorem recompute_simple_spec {plan : SimplePlan} {p : Product} (hp : plan.product? = some p)
    (hpublic : ∀ r ∈ plan.factors, IsPublic r.name)
    (hobstacle : (Plan.simple plan).obstacle? config.output = none) (hout : IsPublic config.output)
    (hconfig : config.HasCells) (hg : g.IsMinted)
    (hint : ∀ r ∈ plan.factors, g.IsIntegral config r.name) :
    ∃ o evaluated after, recompute (.simple plan) config g = .ok o after ∧
      IsSimpleRun g config (simpleInputNames plan config) p o evaluated after := by
  have hfault := (Plan.obstacle?_eq_none_iff.1 hobstacle).1
  have hrefs : p.references = plan.factors := by
    have h := Product.references_ofFactors? plan.factors
    rw [SimplePlan.product?] at hp
    rwa [hp] at h
  obtain ⟨g₀, hrebuild, hwf, htemp, hrep, habsent, hrestored⟩ :=
    rebuild_inputs hconfig hg (nodup_sortedNames _ : (simpleInputNames plan config).Nodup)
  have hmem : ∀ r ∈ p.references, r.name ∈ simpleInputNames plan config := fun r hr =>
    name_mem_simpleInputNames hfault (hrefs ▸ hr)
  rw [← hrefs] at hpublic hint
  have hinput : ∀ r ∈ p.references, IsPublic r.name ∧ g₀.Represents r.name
      ((g.inputs config (simpleInputNames plan config)).lookup r.name) := fun r hr =>
    ⟨hpublic r hr, hrep r.name (hint r hr)⟩
  obtain ⟨e, g₁, hrun, heval⟩ := evaluate_spec (o := 0) hwf hinput
  have hkeeps : ∀ r ∈ p.references, g₀.Keeps g₁ r.name := fun r hr =>
    heval.keeps ((hpublic r hr).isSettled _ _)
  have hrecompute : recompute (.simple plan) config g = (do
      finish config (g.shape? config.output) e.result?
      outcome config (if e.result?.isSome then [config.output] else []) e.issues) g₁ := by
    refine (recompute_eq hobstacle (inputNames_simple plan config) hrebuild).trans ?_
    simp only [runPlan, runSimple, hp]
    exact bind_eq_of_ok hrun
  have hrestored₁ : ∀ r ∈ p.references,
      g.RestoredFrom g₁ r.name (g.inputShape config r.name) := fun r hr =>
    (hrestored r.name (hmem r hr)).of_keeps (hkeeps r hr)
  have hrep₁ : ∀ r ∈ p.references, g₁.Represents r.name _ := fun r hr =>
    (hrep r.name (hint r hr)).of_keeps (hkeeps r hr)
  cases hM : (p.value (g.inputs config (simpleInputNames plan config))).1 with
  | some M =>
    obtain ⟨hresult, -, hholds, hderives⟩ := heval.of_value_eq_some hM
    rw [htemp] at hresult hholds hderives
    have hne : p.resultName 0 0 ≠ config.output := fun he =>
      p.not_isPublic_resultName 0 0 (he ▸ hout)
    obtain ⟨g', hstore, hw, hcopy, hout'⟩ := store_spec heval.isWellFormed hholds hne
    obtain ⟨o, hoc, hcomputed, hissues, hnone, -⟩ := outcome_spec config [config.output] e.issues g'
    refine ⟨o, g₁, g', ?_, heval.isWellFormed, hrestored₁, hrep₁, hw, hnone, ?_, ?_, ?_,
      fun _ => hstore⟩
    · rw [hrecompute, hresult]
      exact (bind_eq_of_ok hstore).trans hoc
    · rw [hissues, heval.obstructions]
    · intro N hN
      obtain rfl : M = N := Option.some.inj (hM.symm.trans hN)
      exact ⟨hcomputed, hderives, hcopy, hout'⟩
    · intro hN
      rw [hM] at hN
      cases hN
  | none =>
    have hresult := heval.of_value_eq_none hM
    obtain ⟨g', hfinish, hw, hout'⟩ := finish_none_spec heval.isWellFormed g config
    obtain ⟨o, hoc, hcomputed, hissues, hnone, -⟩ := outcome_spec config [] e.issues g'
    have hvalue {N : IntMatrix}
        (hN : (p.value (g.inputs config (simpleInputNames plan config))).1 = some N) : False := by
      rw [hM] at hN
      cases hN
    refine ⟨o, g₁, g', ?_, heval.isWellFormed, hrestored₁, hrep₁, hw, hnone, ?_,
      fun hN => (hvalue hN).elim, ?_, fun hN => (hvalue hN).elim⟩
    · rw [hrecompute, hresult]
      exact (bind_eq_of_ok hfinish).trans hoc
    · rw [hissues, heval.obstructions]
    · refine fun _ => ⟨hcomputed, fun hnotMem => hout' none ?_⟩
      exact (heval.keeps (hout.isSettled _ _)).matrices.trans (habsent _ hnotMem)

/-- A recompute of a product is fine exactly if nothing stands in the way of its value. -/
theorem IsSimpleRun.isOk_iff {names : List Text} {p : Product} {o : Outcome} {g₁ : Graph}
    (h : IsSimpleRun g config names p o g₁ g') :
    o.isOk = true ↔ (p.value (g.inputs config names)).2 = [] := by
  rw [← h.obstructions, Outcome.isOk, h.obstacle, List.map_eq_nil_iff, ← List.isEmpty_iff]
  rfl

/-! ### The outcome -/

theorem Derives.description {first : Reference} {others : List Reference} {k : Nat}
    (hk : 1 ≤ k) (hle : k ≤ others.length)
    (h : g.Derives (.ofFactors first others) 0 0) :
    g.descriptions[temporaryName k]? = some (Product.ofFactors first (others.take k)).display := by
  have htake := h.take k
  have hne : others.take k ≠ [] := by
    rw [ne_eq, List.take_eq_nil_iff]
    rintro (rfl | rfl)
    · omega
    · simp at hle
      omega
  have hname := Product.resultName_ofFactors hne first 0 0
  rw [List.length_take, Nat.min_eq_left hle, Nat.zero_add] at hname
  obtain ⟨rs, r, hrs⟩ : ∃ rs r, others.take k = rs ++ [r] :=
    ⟨_, _, (List.dropLast_append_getLast hne).symm⟩
  rw [hrs, Product.ofFactors_concat] at htake hname ⊢
  rw [← hname]
  exact htake.2.2.2

open IntMatrix in
/-- An intermediate result holds the product of the factors up to it. -/
theorem IsSimpleRun.holds_take {names : List Text} {first : Reference} {others : List Reference}
    {o : Outcome} {g₁ : Graph}
    (h : IsSimpleRun g config names (.ofFactors first others) o g₁ g')
    (hderives : g₁.Derives (.ofFactors first others) 0 0)
    (hmem : ∀ r ∈ first :: others, r.name ∈ names)
    (hchain : ((first :: others).map (g.factorMatrix config)).IsChain Fits) {k : Nat} (hk : 1 ≤ k)
    (hle : k ≤ others.length) :
    ∃ Q, product? ((first :: others.take k).map (g.factorMatrix config)) = some Q ∧
      g₁.Holds (temporaryName k) Q := by
  have hsub : ∀ r ∈ first :: others.take k, r ∈ first :: others := fun r hr =>
    (List.take_sublist k others).cons_cons first |>.subset hr
  have hchain : ((first :: others.take k).map (g.factorMatrix config)).IsChain Fits := by
    have h := hchain.take (k + 1)
    rwa [← List.map_take, List.take_succ_cons] at h
  have hne : others.take k ≠ [] := List.ne_nil_of_length_pos (by rw [List.length_take]; omega)
  have hname := Product.resultName_ofFactors hne first 0 0
  rw [List.length_take, Nat.min_eq_left hle, Nat.zero_add] at hname
  have hmem' : ∀ r ∈ first :: others.take k, r.name ∈ names := fun r hr => hmem r (hsub r hr)
  rcases value_factors g config hmem' with
    ⟨Q, hQ, hvalue⟩ | ⟨before, A, B, after, hsplit, -, hfits, -⟩
  · refine ⟨Q, hQ, ?_⟩
    rw [← hname]
    refine (hderives.take k).holds (fun r hr => h.represents r ?_) (congrArg Prod.fst hvalue)
    rw [Product.references_ofFactors] at hr ⊢
    exact hsub r hr
  · rw [hsplit, List.isChain_append_cons_cons] at hchain
    exact absurd hchain.2.1 hfits

open IntMatrix in
/-- **A recompute of a product** succeeds exactly if all neighbours fit. Then the output holds the
product of the factors, and the `k`-th intermediate result holds the product of the first `k + 1`
factors and is described by their text. Otherwise the only issue is the first misfit, with the shape
of the product of all before it, nothing is computed, and an output matrix there was before is
blank. -/
theorem recompute_product {formula output : Text} {plan : SimplePlan} {first : Reference}
    {others : List Reference} {iterations rows cols sizeLimit iterationLimit : Datum}
    {sizes : Association (Datum × Datum)}
    (hread : Plan.read formula = .ok (.simple plan)) (hfactors : plan.factors = first :: others)
    (hnames : ∀ r ∈ plan.factors, .char '@' ∉ r.name.symbols)
    (hconfig : Config.make output iterations sizes rows cols sizeLimit iterationLimit = .ok config)
    (hobstacle : (Plan.simple plan).obstacle? config.output = none) (hout : IsPublic config.output)
    (hg : g.IsReachable) (hint : ∀ id ∈ g.nodes, (g.cell id).IsInt) :
    ∃ o g', recompute (.simple plan) config g = .ok o g' ∧
      (o.isOk = true ↔ (plan.factors.map (g.factorMatrix config)).IsChain Fits) ∧
      ((plan.factors.map (g.factorMatrix config)).IsChain Fits →
        ∃ P, product? (plan.factors.map (g.factorMatrix config)) = some P ∧
          P.rows = (g.factorMatrix config first).rows ∧
          P.cols = (g.factorMatrix config ((first :: others).getLast (List.cons_ne_nil _ _))).cols ∧
          o.computed = [config.output] ∧ g'.Holds config.output P ∧
          ∀ k, 1 ≤ k → k < plan.factors.length →
            ∃ Q, product? ((plan.factors.take (k + 1)).map (g.factorMatrix config)) = some Q ∧
              g'.Holds (temporaryName k) Q ∧ g'.descriptions[temporaryName k]? =
                (Product.ofFactors? (plan.factors.take (k + 1))).map Product.display) ∧
      (¬(plan.factors.map (g.factorMatrix config)).IsChain Fits →
        o.computed = [] ∧
        (∃ before A B after left right,
          plan.factors.map (g.factorMatrix config) = before ++ A :: B :: after ∧
          (before ++ [A]).IsChain Fits ∧ ¬A.Fits B ∧ o.issues =
            [.mismatch left right ((g.factorMatrix config first).rows, A.cols) B.shape]) ∧
        (config.output ∉ plan.factors.map Reference.name → g'.Represents config.output
          ((g.shape? config.output).map fun s => .ofFn s.1 s.2 fun _ _ => 0))) := by
  have hfault := (Plan.obstacle?_eq_none_iff.1 hobstacle).1
  have hpublic : ∀ r ∈ plan.factors, IsPublic r.name := fun r hr =>
    isPublic_name (Plan.isBase_of_read hread r hr) (hnames r hr)
  have hp : plan.product? = some (.ofFactors first others) := by
    rw [SimplePlan.product?, hfactors]
    rfl
  obtain ⟨o, g₁, g', hrun, h⟩ := recompute_simple_spec hp hpublic hobstacle hout
    (Config.hasCells_of_make hconfig).2 hg.isWellFormed.toIsMinted fun r _ =>
      isIntegral_of_forall_isInt hg.isWellFormed.toIsMinted hint config r.name
  have hmem : ∀ r ∈ first :: others, r.name ∈ simpleInputNames plan config := fun r hr =>
    name_mem_simpleInputNames hfault (hfactors ▸ hr)
  refine ⟨o, g', hrun, ?_⟩
  rw [h.isOk_iff, hfactors]
  rcases value_factors g config hmem with
    ⟨P, hP, hvalue⟩ | ⟨before, A, B, after, hsplit, hbefore, hfits, hvalue⟩
  · have hchain := exists_product?_iff.1 ⟨P, hP⟩
    obtain ⟨hcomputed, hderives, -, hholds⟩ := h.of_value_eq_some (congrArg Prod.fst hvalue)
    obtain ⟨hrows, hcols⟩ := shape_product? hP
    refine ⟨iff_of_true (congrArg Prod.snd hvalue) hchain, fun _ => ⟨P, hP, hrows, ?_, hcomputed,
      hholds, fun k hk hlt => ?_⟩, fun hn => absurd hchain hn⟩
    · have hne : (first :: others).map (g.factorMatrix config) ≠ [] := List.cons_ne_nil _ _
      have hlast : ((first :: others).map (g.factorMatrix config)).getLast hne =
          g.factorMatrix config ((first :: others).getLast (List.cons_ne_nil _ _)) :=
        List.getLast_map ..
      exact hcols.trans (congrArg IntMatrix.cols hlast)
    · rw [List.take_succ_cons]
      rw [List.length_cons, Nat.lt_succ_iff] at hlt
      obtain ⟨Q, hQ, hholds⟩ := h.holds_take hderives hmem hchain hk hlt
      have hne : temporaryName k ≠ config.output := fun he => hout.2 (he ▸ List.prefix_append ..)
      refine ⟨Q, hQ, hholds.of_keeps (h.writesOnly.keeps _ hne), ?_⟩
      rw [h.writesOnly.descriptions]
      exact hderives.description hk hlt
  · have hchain : ¬((first :: others).map (g.factorMatrix config)).IsChain Fits := by
      rw [hsplit, List.isChain_append_cons_cons]
      exact fun h => hfits h.2.1
    obtain ⟨hcomputed, hblank⟩ := h.of_value_eq_none (congrArg Prod.fst hvalue)
    have hobstructions := h.obstructions.trans (congrArg Prod.snd hvalue)
    refine ⟨iff_of_false (fun h => ?_) hchain, fun hc => absurd hc hchain, fun _ =>
      ⟨hcomputed, ?_, fun hnotMem => hblank ?_⟩⟩
    · rw [hvalue] at h
      cases h
    · obtain ⟨issue, hissue, hobstruction⟩ := List.map_eq_singleton_iff.1 hobstructions
      cases issue with
      | missing name => cases hobstruction
      | mismatch left right l r =>
        cases hobstruction
        exact ⟨before, A, B, after, left, right, hsplit, hbefore, hfits, hissue⟩
    · rw [simpleInputNames, mem_sortedNames, List.mem_append, not_or]
      refine ⟨by simp, ?_⟩
      simp only [Plan.baseMatrices, hfault, Option.isSome_none, Bool.false_eq_true, if_false,
        mem_sortedNames, hfactors]
      exact hnotMem

/-- The plan of `A*B^T*A`. -/
def samplePlan : SimplePlan where
  factors := [⟨"A", .absent, false, 0⟩, ⟨"B", .absent, true, 2⟩, ⟨"A", .absent, false, 6⟩]
  fault? := none
  text := "A*B^T*A"

/-- Settings that declare both matrices of the plan as rows of two. -/
def sampleConfig : Config :=
  ⟨"O", some 1, [("A", 1, 2), ("B", 1, 2)], (3, 3)⟩

/-- A graph in which `B` has one cell only. -/
def sampleGraph : Graph :=
  runAll "elem" [.initMatrix "A" 1 2, .update "A" 0 0 (.int 2) none none none,
    .update "A" 0 1 (.int (-1)) none none none, .initMatrix "B" 1 1,
    .update "B" 0 0 (.int 3) none none none]

theorem isReachable_sampleGraph : sampleGraph.IsReachable :=
  ⟨"elem", _, rfl⟩

theorem isInt_sampleGraph : ∀ id ∈ sampleGraph.nodes, (sampleGraph.cell id).IsInt :=
  isReachable_sampleGraph.isWellFormed.toIsMinted.forall_cell_iff.2 (by decide +kernel)

/-- The product `A*B^T*A` of rows of two, one of which has grown, is `12` and `-6`. -/
theorem recompute_product_sample : ∃ o g' P,
    recompute (.simple samplePlan) sampleConfig sampleGraph = .ok o g' ∧ o.isOk = true ∧
      P.shape = (1, 2) ∧ P.get 0 0 = 12 ∧ P.get 0 1 = -6 ∧ g'.Holds "O" P := by
  have hread : Plan.read "A*B^T*A" = .ok (.simple samplePlan) := by decide +kernel
  have hconfig : Config.make "O" (.int 1) [("A", .int 1, .int 2), ("B", .int 1, .int 2)] (.int 3)
      (.int 3) (.int 50) (.int 50) = .ok sampleConfig := rfl
  obtain ⟨o, g', hrun, hok, hfits, -⟩ := recompute_product hread rfl (by decide) hconfig
    (by decide +kernel) (by decide) isReachable_sampleGraph isInt_sampleGraph
  have hchain : (samplePlan.factors.map (sampleGraph.factorMatrix sampleConfig)).IsChain
      IntMatrix.Fits := by decide +kernel
  obtain ⟨P, hP, hrows, hcols, -, hholds, -⟩ := hfits hchain
  have hentries : (IntMatrix.product?
      (samplePlan.factors.map (sampleGraph.factorMatrix sampleConfig))).map
        (fun P => (P.shape, P.get 0 0, P.get 0 1)) = some ((1, 2), 12, -6) := by decide +kernel
  rw [hP, Option.map_some, Option.some.injEq] at hentries
  simp only [Prod.mk.injEq] at hentries
  exact ⟨o, g', P, hrun, hok.2 hchain, hentries.1, hentries.2.1, hentries.2.2, hholds⟩

/-- The plan of `A*B`. -/
def productPlan : SimplePlan where
  factors := [⟨"A", .absent, false, 0⟩, ⟨"B", .absent, false, 2⟩]
  fault? := none
  text := "A*B"

/-! ### A formula that reads its output -/

/-- The plan of `A_n*B`, which reads the matrix `A`. -/
def overwritingPlan : SimplePlan where
  factors := [⟨"A", .current, false, 0⟩, ⟨"B", .absent, false, 4⟩]
  fault? := none
  text := "A_n*B"

/-- Settings with an output that the plan reads. -/
def overwritingConfig : Config :=
  ⟨"A", some 1, [("A", 1, 2), ("B", 2, 2)], (1, 1)⟩

def overwritingGraph : Graph :=
  runAll "elem" [.initMatrix "A" 1 2, .update "A" 0 0 (.int 1) none none none,
    .update "A" 0 1 (.int 1) none none none, .initMatrix "B" 2 2,
    .update "B" 0 1 (.int 1) none none none, .update "B" 1 0 (.int 1) none none none]

theorem isReachable_overwritingGraph : overwritingGraph.IsReachable :=
  ⟨"elem", _, rfl⟩

end Graph

end CellLineage
