import CellLineage.Proofs.Recompute.Origins

/-!
# Identity matrices in a product

A factor that is an identity matrix, marked as one, leaves the product as it is. What an output cell
derives from stays the same too, as far as matrices of the formula go, unless the identity matrix is
the last factor: of an entry that is zero the product with it takes nothing, though terms may have
cancelled in it. If the output is not read, nothing but this is lost. If it is read, through a
factor with a relative index, the lineage of a nonzero cell may have led through a zero cell.

## Main definitions

* `Graph.IsIdentityInput`: an input matrix that is an identity matrix and marked as one.
* `Graph.inputOrigins`: the places that a cell of the output stems from, by the input.

## Main results

* `Graph.recompute_insert_identity`: a product with an identity matrix as an additional factor.
* `Graph.identity_not_transparent`: what is lost if it is the last one.
-/

namespace CellLineage

open Formula Relation

namespace Formula

theorem Plan.fixedNames_unplaced (rs : List Reference) :
    fixedNames (rs.map Reference.unplaced) = fixedNames rs := by
  simp only [fixedNames, List.filter_map, List.map_map]
  rfl

end Formula

namespace Graph

variable {g : Graph} {config : Config} {name : Text} {i j a b n : Nat} {r unit : Reference}
  {factors factors' before after : List Reference} {P : IntMatrix} {shape : Nat × Nat}

/-- The input matrix is the identity matrix of a size, and its ones are identity cells. -/
structure IsIdentityInput (g : Graph) (config : Config) (name : Text) (n : Nat) : Prop where
  shape : g.inputShape config name = (n, n)
  value : ∀ i < n, ∀ j < n, g.valueAt name i j = .int (if i = j then 1 else 0)
  identity : ∀ i < n, g.identityAt name i i = true

instance (v : Number) (n : Int) : Decidable (v = .int n) :=
  match v with
  | .int m => decidable_of_iff (m = n) ⟨congrArg _, Number.int.inj⟩
  | .float _ => isFalse nofun

/-- As a factor, transposed or not, such a matrix is a unit. -/
theorem IsIdentityInput.isUnit (h : g.IsIdentityInput config r.name n) (name : Text) (a b : Nat) :
    (g.factorDescent config name a b r).IsUnit n := by
  have hrows : (g.inputMatrix config r.name).rows = n := congrArg Prod.fst h.shape
  have hcols : (g.inputMatrix config r.name).cols = n := congrArg Prod.snd h.shape
  have hget : ∀ i j, i < n → j < n →
      (g.inputMatrix config r.name).get i j = if i = j then 1 else 0 := by
    intro i j hi hj
    have hi' : i < (g.inputShape config r.name).1 := h.shape ▸ hi
    have hj' : j < (g.inputShape config r.name).2 := h.shape ▸ hj
    rw [inputMatrix, IntMatrix.get_ofFn hi' hj', h.value i hi j hj]
    rfl
  have hnot : ∀ i, i < n → ¬(g.factorDescent config name a b r).descends i i := by
    rintro i hi ⟨⟨rfl, hplace⟩, -, hidentity⟩
    have hdiagonal : r.place i i = (i, i) := by
      rw [Reference.place, ite_self]
    rw [hdiagonal, Prod.mk.injEq] at hplace
    rw [← hplace.1, ← hplace.2, h.identity i hi] at hidentity
    cases hidentity
  cases ht : r.transposed with
  | false =>
    have hmatrix : (g.factorDescent config name a b r).matrix = g.inputMatrix config r.name := by
      rw [factorDescent, factorMatrix, ht, if_neg Bool.false_ne_true]
    exact ⟨hmatrix ▸ hrows, hmatrix ▸ hcols, hmatrix ▸ hget, hnot⟩
  | true =>
    have hmatrix : (g.factorDescent config name a b r).matrix =
        (g.inputMatrix config r.name).transpose := by
      rw [factorDescent, factorMatrix, ht, if_pos rfl]
    refine ⟨hmatrix ▸ hcols, hmatrix ▸ hrows, fun i j hi hj => ?_, hnot⟩
    rw [hmatrix, IntMatrix.get_transpose, hget j i hj hi]
    simp only [eq_comm]

/-! ### Products with one more factor -/

section Insert

variable (hfactors : factors'.map Reference.unplaced =
    (before ++ unit :: after).map Reference.unplaced)
  (hunit : g.IsIdentityInput config unit.name n)
  (hbefore : ∀ r ∈ before.getLast?, (g.factorMatrix config r).cols = n)
  (hafter : ∀ r ∈ after.head?, (g.factorMatrix config r).rows = n)

include hfactors in
theorem map_factorDescent_eq (name : Text) (a b : Nat) :
    factors'.map (g.factorDescent config name a b) =
      before.map (g.factorDescent config name a b) ++
        g.factorDescent config name a b unit :: after.map (g.factorDescent config name a b) := by
  have h := congrArg (List.map (g.factorDescent config name a b)) hfactors
  simp only [List.map_map, List.map_append, List.map_cons] at h
  exact h

include hbefore in
theorem cols_of_mem_getLast? (name : Text) (a b : Nat) :
    ∀ S ∈ (before.map (g.factorDescent config name a b)).getLast?, S.matrix.cols = n := by
  intro S hS
  rw [List.getLast?_map, Option.mem_def, Option.map_eq_some_iff] at hS
  obtain ⟨r, hr, rfl⟩ := hS
  exact hbefore r hr

include hafter in
theorem rows_of_mem_head? (name : Text) (a b : Nat) :
    ∀ S ∈ (after.map (g.factorDescent config name a b)).head?, S.matrix.rows = n := by
  intro S hS
  rw [List.head?_map, Option.mem_def, Option.map_eq_some_iff] at hS
  obtain ⟨r, hr, rfl⟩ := hS
  exact hafter r hr

include hfactors hunit hbefore hafter in
/-- If it is not the last factor, an identity matrix changes nothing. -/
theorem product?_insert (hlast : after ≠ []) (hlen : 2 ≤ (before ++ after).length) (name : Text)
    (a b : Nat) : Descent.product? (factors'.map (g.factorDescent config name a b)) =
      Descent.product? ((before ++ after).map (g.factorDescent config name a b)) := by
  rw [map_factorDescent_eq hfactors, List.map_append]
  refine Descent.product?_insert_unit (hunit.isUnit name a b)
    (cols_of_mem_getLast? hbefore name a b) (rows_of_mem_head? hafter name a b)
    (List.map_eq_nil_iff.not.2 hlast) ?_
  rwa [← List.map_append, List.length_map]

include hfactors hunit hbefore in
/-- If it is the last factor, zero entries descend from nothing. -/
theorem product?_concat_identity (hlast : after = []) {T : Descent}
    (hT : Descent.product? ((before ++ after).map (g.factorDescent config name a b)) = some T) :
    Descent.product? (factors'.map (g.factorDescent config name a b)) = some T.shown := by
  subst hlast
  rw [List.append_nil] at hT
  rw [map_factorDescent_eq hfactors, List.map_nil]
  exact Descent.product?_concat_unit (hunit.isUnit name a b)
    (cols_of_mem_getLast? hbefore name a b) hT

include hfactors hunit hbefore hafter in
/-- **The product with an identity matrix as an additional factor** is the same. Its entries descend
from what they did, except that zero entries descend from nothing if it is the last factor. -/
theorem descends_insert (hlen : 2 ≤ (before ++ after).length)
    (hP : IntMatrix.product? ((before ++ after).map (g.factorMatrix config)) = some P) :
    IntMatrix.product? (factors'.map (g.factorMatrix config)) = some P ∧
      ∀ i j name a b, g.Descends config factors' i j name a b ↔
        (after = [] → P.get i j ≠ 0) ∧ g.Descends config (before ++ after) i j name a b := by
  have hproduct (name : Text) (a b : Nat) : ∃ T T',
      Descent.product? ((before ++ after).map (g.factorDescent config name a b)) = some T ∧
      Descent.product? (factors'.map (g.factorDescent config name a b)) = some T' ∧
      T.matrix = P ∧ T'.matrix = P ∧
      ∀ i j, T'.descends i j ↔ (after = [] → P.get i j ≠ 0) ∧ T.descends i j := by
    obtain ⟨T, hT, rfl⟩ := exists_product?_factorDescent hP name a b
    by_cases hlast : after = []
    · refine ⟨T, T.shown, hT, product?_concat_identity hfactors hunit hbefore hlast hT, rfl, rfl,
        fun i j => and_congr_left fun _ => ?_⟩
      exact ⟨fun h _ => h, fun h => h hlast⟩
    · refine ⟨T, T, hT, ?_, rfl, rfl, fun i j => (and_iff_right fun h => absurd h hlast).symm⟩
      rw [product?_insert hfactors hunit hbefore hafter hlast hlen, hT]
  constructor
  · obtain ⟨-, T', -, hT', -, hmatrix, -⟩ := hproduct "" 0 0
    have h := Descent.matrix_product? (factors'.map (g.factorDescent config "" 0 0))
    rw [hT', List.map_map, Option.map_some, hmatrix] at h
    exact h.symm
  · intro i j name a b
    obtain ⟨T, T', hT, hT', -, -, hiff⟩ := hproduct name a b
    simp only [Descends, hT, hT', Option.some.injEq, exists_eq_left', hiff]

end Insert

/-! ### What the output stems from -/

theorem Stems.exists_factor (h : g.Stems config factors shape i j name a b) :
    name = config.output ∨ ∃ r ∈ factors, r.name = name := by
  rcases h with ⟨rfl, -⟩ | ⟨q, -, hd⟩
  · exact .inl rfl
  · exact .inr hd.exists_factor.1

theorem Stems.mono (h : g.Stems config factors' shape i j name a b)
    (hd : ∀ i j name a b, g.Descends config factors' i j name a b →
      g.Descends config factors i j name a b) : g.Stems config factors shape i j name a b := by
  rcases h with h | ⟨q, hq, h⟩
  · exact .inl h
  · have hreads : ∀ p q, g.ReadsBack config factors' shape p q →
        g.ReadsBack config factors shape p q := fun p q hpq => ⟨hpq.1, hd _ _ _ _ _ hpq.2⟩
    exact .inr ⟨q, ReflTransGen.mono hreads _ _ hq, hd _ _ _ _ _ h⟩

/-- Where the output is not read, its cells stem from what they descend from. -/
theorem stems_iff (hfresh : ∀ r ∈ factors, r.name ≠ config.output) (hname : name ≠ config.output) :
    g.Stems config factors shape i j name a b ↔ g.Descends config factors i j name a b := by
  rw [Stems, or_iff_right fun h => hname h.1]
  refine ⟨?_, fun h => ⟨(i, j), .refl, h⟩⟩
  rintro ⟨q, hq, h⟩
  rcases hq.cases_head with rfl | ⟨p, hp, -⟩
  · exact h
  · obtain ⟨⟨r, hr, hrname⟩, -⟩ := hp.2.exists_factor
    exact absurd hrname (hfresh r hr)

/-- The places of input matrices that the cell of the output at a position stems from. -/
def inputOrigins (g : Graph) (config : Config) (factors : List Reference) (shape : Nat × Nat)
    (i j : Nat) : Set (Text × Int × Int) :=
  {c | (∃ r ∈ factors, r.name = c.1) ∧ (i < shape.1 ∧ j < shape.2) ∧
    ∃ a b : Nat, c.2 = ((a : Int), (b : Int)) ∧ g.Stems config factors shape i j c.1 a b}

section Insert

variable (hnames : ∀ name, (∃ r ∈ factors', r.name = name) ↔
    (∃ r ∈ factors, r.name = name) ∨ name = unit.name)
  (hne : unit.name ≠ config.output)
  (hdescends : ∀ i j name a b, g.Descends config factors' i j name a b ↔
    (after = [] → P.get i j ≠ 0) ∧ g.Descends config factors i j name a b)

include hnames hne hdescends in
/-- With an identity matrix as an additional factor, the output stems from nothing new. -/
theorem inputOrigins_insert_subset (i j : Nat) :
    g.inputOrigins config factors' shape i j ⊆ g.inputOrigins config factors shape i j := by
  rintro c ⟨hbase, hij, a, b, hab, hstems⟩
  have hstems := hstems.mono fun i j name a b hd => ((hdescends i j name a b).1 hd).2
  refine ⟨?_, hij, a, b, hab, hstems⟩
  rcases hstems.exists_factor with he | hbase'
  · exact ((hnames _).1 hbase).resolve_right fun h => hne (h.symm.trans he)
  · exact hbase'

include hnames hne hdescends in
/-- If it is not the last factor, the output stems from what it did. -/
theorem inputOrigins_insert (hlast : after ≠ []) (i j : Nat) :
    g.inputOrigins config factors' shape i j = g.inputOrigins config factors shape i j := by
  refine (inputOrigins_insert_subset hnames hne hdescends i j).antisymm ?_
  rintro c ⟨hbase, hij, a, b, hab, hstems⟩
  exact ⟨(hnames _).2 (.inl hbase), hij, a, b, hab, hstems.mono fun i j name a b hd =>
    (hdescends i j name a b).2 ⟨fun he => absurd he hlast, hd⟩⟩

include hnames hne hdescends in
/-- If it is the last factor and the output is not read, this holds of the nonzero cells, and the
others stem from nothing. -/
theorem inputOrigins_insert_last (hlast : after = [])
    (hfresh : ∀ r ∈ factors, r.name ≠ config.output) (i j : Nat) :
    g.inputOrigins config factors' shape i j =
      if P.get i j = 0 then ∅ else g.inputOrigins config factors shape i j := by
  have hfresh' : ∀ r ∈ factors', r.name ≠ config.output := by
    intro r hr he
    rcases (hnames _).1 ⟨r, hr, he⟩ with ⟨s, hs, hs'⟩ | h
    · exact hfresh s hs hs'
    · exact hne h.symm
  have hstems_iff {name : Text} (hname : name ≠ config.output) (a b : Nat) :
      g.Stems config factors' shape i j name a b ↔
        P.get i j ≠ 0 ∧ g.Stems config factors shape i j name a b := by
    rw [stems_iff hfresh' hname, stems_iff hfresh hname, hdescends]
    exact and_congr_left fun _ => ⟨fun h => h hlast, fun h _ => h⟩
  split
  · next hzero =>
    refine Set.eq_empty_of_forall_notMem ?_
    rintro c ⟨⟨r, hr, hrname⟩, -, a, b, -, hstems⟩
    exact ((hstems_iff (hrname ▸ hfresh' r hr) a b).1 hstems).1 hzero
  · next hnonzero =>
    refine (inputOrigins_insert_subset hnames hne hdescends i j).antisymm ?_
    rintro c ⟨⟨r, hr, hrname⟩, hij, a, b, hab, hstems⟩
    exact ⟨(hnames _).2 (.inl ⟨r, hr, hrname⟩), hij, a, b, hab,
      (hstems_iff (hrname ▸ hfresh r hr) a b).2 ⟨hnonzero, hstems⟩⟩

end Insert

/-! ### Recomputes -/

/-- The plan of a product with one more factor may run too, if this is not the output. -/
theorem obstacle?_insert {formula' : Text} {plan plan' : SimplePlan}
    (hread' : Plan.read formula' = .ok (.simple plan')) (hsplit : plan.factors = before ++ after)
    (hfactors : plan'.factors.map Reference.unplaced =
      (before ++ unit :: after).map Reference.unplaced)
    (hne : unit.name ≠ config.output)
    (hobstacle : (Plan.simple plan).obstacle? config.output = none) :
    (Plan.simple plan').obstacle? config.output = none := by
  have hnonempty : plan'.factors ≠ [] := by
    intro h
    rw [h, List.map_nil] at hfactors
    simp at hfactors
  have hnames : Plan.fixedNames plan'.factors = Plan.fixedNames (before ++ unit :: after) := by
    rw [← Plan.fixedNames_unplaced, hfactors, Plan.fixedNames_unplaced]
  have huses {p : SimplePlan} (hfault : p.fault? = none) :
      (Plan.simple p).uses config.output = false ↔ config.output ∉ Plan.fixedNames p.factors := by
    rw [Plan.uses, Plan.fault?, hfault, Option.isNone_none, Bool.true_and, Plan.usedNames,
      List.contains_eq_mem, decide_eq_false_iff_not]
  have hfault' : plan'.fault? = none := Plan.fault?_of_read hread' hnonempty
  obtain ⟨hfault, hnot⟩ := Plan.obstacle?_eq_none_iff.1 hobstacle
  rw [huses hfault, hsplit] at hnot
  refine Plan.obstacle?_eq_none_iff.2 ⟨hfault', (huses hfault').2 fun hmem => hnot ?_⟩
  rw [hnames] at hmem
  obtain ⟨r, hr, hrname⟩ := List.mem_map.1 hmem
  obtain ⟨hr, hfixed⟩ := List.mem_filter.1 hr
  refine List.mem_map.2 ⟨r, List.mem_filter.2 ⟨?_, hfixed⟩, hrname⟩
  rw [List.mem_append, List.mem_cons] at hr
  rcases hr with hr | rfl | hr
  · exact List.mem_append_left _ hr
  · exact absurd hrname hne
  · exact List.mem_append_right _ hr

/-- What a recompute of a product of two factors or more that succeeds leaves. -/
theorem recompute_origins {plan : SimplePlan} (hpublic : ∀ r ∈ plan.factors, IsPublic r.name)
    (hlen : 2 ≤ plan.factors.length)
    (hobstacle : (Plan.simple plan).obstacle? config.output = none) (hout : IsPublic config.output)
    (hconfig : config.HasCells) (hg : g.IsMinted)
    (hint : ∀ r ∈ plan.factors, g.IsIntegral config r.name) :
    ∃ o g', recompute (.simple plan) config g = .ok o g' ∧
      (o.isOk = true ↔
        ∃ P, IntMatrix.product? (plan.factors.map (g.factorMatrix config)) = some P) ∧
      ∀ P, IntMatrix.product? (plan.factors.map (g.factorMatrix config)) = some P →
        g'.Holds config.output P ∧ ∀ i j,
          g'.origins (Plan.simple plan).baseMatrices config.output i j =
            g.inputOrigins config plan.factors P.shape i j := by
  obtain ⟨first, others, hfactors⟩ : ∃ first others, plan.factors = first :: others :=
    List.exists_cons_of_ne_nil fun h => by simp [h] at hlen
  have hne : others ≠ [] := by
    rintro rfl
    simp [hfactors] at hlen
  have hfault := (Plan.obstacle?_eq_none_iff.1 hobstacle).1
  have hp : plan.product? = some (.ofFactors first others) := by
    rw [SimplePlan.product?, hfactors]
    rfl
  have hmem : ∀ r ∈ first :: others, r.name ∈ simpleInputNames plan config := fun r hr =>
    name_mem_simpleInputNames hfault (hfactors ▸ hr)
  obtain ⟨o, g₁, g', hrun, h⟩ := recompute_simple_spec hp hpublic hobstacle hout hconfig hg hint
  have hbases (name : Text) : name ∈ (Plan.simple plan).baseMatrices ↔
      ∃ r ∈ plan.factors, r.name = name := by
    simp only [Plan.baseMatrices, hfault, Option.isSome_none, Bool.false_eq_true, if_false,
      mem_sortedNames, List.mem_map]
  refine ⟨o, g', hrun, ?_, fun P hP => ?_⟩
  · rw [h.isOk_iff, hfactors]
    constructor
    · intro hok
      rcases value_factors g config hmem with ⟨P, hP, -⟩ | ⟨_, _, _, _, -, -, -, hvalue⟩
      · exact ⟨P, hP⟩
      · rw [hvalue] at hok
        cases hok
    · rintro ⟨P, hP⟩
      rw [value_factors_of_product? hmem hP]
  · rw [hfactors] at hP hint hpublic
    have hvalue := congrArg Prod.fst (value_factors_of_product? hmem hP)
    refine ⟨(h.of_value_eq_some hvalue).2.2.2, fun i j => Set.ext fun c => ?_⟩
    rw [inputOrigins, Set.mem_ofPred_eq, ← hbases, hfactors]
    refine h.mem_origins_iff hne hint hP hvalue (hpublic first List.mem_cons_self) hout ?_
    intro name hname
    obtain ⟨r, hr, rfl⟩ := (hbases name).1 hname
    exact hpublic r (hfactors ▸ hr)

/-- A product with one more factor reads what the product reads, and the matrix of the factor. -/
theorem exists_factor_insert (hsplit : factors = before ++ after)
    (hfactors : factors'.map Reference.unplaced =
      (before ++ unit :: after).map Reference.unplaced) :
    (∃ r ∈ factors', r.name = name) ↔ (∃ r ∈ factors, r.name = name) ∨ name = unit.name := by
  have hnames : factors'.map Reference.name = (before ++ unit :: after).map Reference.name := by
    have h := congrArg (List.map Reference.name) hfactors
    rwa [List.map_map, List.map_map] at h
  rw [← List.mem_map, ← List.mem_map, hnames, hsplit]
  simp only [List.map_append, List.map_cons, List.mem_append, List.mem_cons]
  tauto

/-- **An identity matrix in a product is transparent.** If a recompute of a product of two factors
or more succeeds, so does one of the product with an identity matrix as an additional factor, and
the output holds the same. Its cells derive from the same cells of input matrices, none of which is
the identity matrix, if this is not the last factor. If it is and the output is not read, this holds
of the nonzero cells, and the others derive from no input; in any case nothing is added. -/
theorem recompute_insert_identity {formula formula' output : Text} {plan plan' : SimplePlan}
    {iterations rows cols sizeLimit iterationLimit : Datum} {sizes : Association (Datum × Datum)}
    (hread : Plan.read formula = .ok (.simple plan))
    (hread' : Plan.read formula' = .ok (.simple plan'))
    (hsplit : plan.factors = before ++ after) (hlen : 2 ≤ plan.factors.length)
    (hfactors : plan'.factors.map Reference.unplaced =
      (before ++ unit :: after).map Reference.unplaced)
    (hnames : ∀ r ∈ unit :: plan.factors, .char '@' ∉ r.name.symbols)
    (hfresh : unit.name ∉ plan.factors.map Reference.name) (hne : unit.name ≠ config.output)
    (hconfig : Config.make output iterations sizes rows cols sizeLimit iterationLimit = .ok config)
    (hobstacle : (Plan.simple plan).obstacle? config.output = none) (hout : IsPublic config.output)
    (hg : g.IsReachable) (hint : ∀ id ∈ g.nodes, (g.cell id).IsInt)
    (hunit : g.IsIdentityInput config unit.name n)
    (hbefore : ∀ r ∈ before.getLast?, (g.factorMatrix config r).cols = n)
    (hafter : ∀ r ∈ after.head?, (g.factorMatrix config r).rows = n) :
    ∃ o g₁ o' g₂, recompute (.simple plan) config g = .ok o g₁ ∧
      recompute (.simple plan') config g = .ok o' g₂ ∧ (o.isOk = true → o'.isOk = true ∧
        ∃ P, g₁.Holds config.output P ∧ g₂.Holds config.output P ∧ ∀ i j,
          (after ≠ [] → g₂.origins (Plan.simple plan').baseMatrices config.output i j =
            g₁.origins (Plan.simple plan).baseMatrices config.output i j) ∧
          (after = [] → config.output ∉ plan.factors.map Reference.name →
            g₂.origins (Plan.simple plan').baseMatrices config.output i j =
              if P.get i j = 0 then ∅
              else g₁.origins (Plan.simple plan).baseMatrices config.output i j) ∧
          g₂.origins (Plan.simple plan').baseMatrices config.output i j ⊆
            g₁.origins (Plan.simple plan).baseMatrices config.output i j ∧
          ∀ c ∈ g₂.origins (Plan.simple plan').baseMatrices config.output i j,
            c.1 ≠ unit.name) := by
  have hm := hg.isWellFormed.toIsMinted
  have hcells := (Config.hasCells_of_make hconfig).2
  have hintegral := isIntegral_of_forall_isInt hm hint config
  have hlen' : 2 ≤ plan'.factors.length := by
    have h := congrArg List.length hfactors
    rw [hsplit] at hlen
    simp only [List.length_map, List.length_append, List.length_cons] at h hlen
    omega
  have hpublic : ∀ r ∈ plan.factors, IsPublic r.name := fun r hr =>
    isPublic_name (Plan.isBase_of_read hread r hr) (hnames r (List.mem_cons_of_mem _ hr))
  have hpublic' : ∀ r ∈ plan'.factors, IsPublic r.name := by
    refine fun r hr => isPublic_name (Plan.isBase_of_read hread' r hr) ?_
    rcases (exists_factor_insert hsplit hfactors).1 ⟨r, hr, rfl⟩ with ⟨s, hs, he⟩ | he
    · exact he ▸ hnames s (List.mem_cons_of_mem _ hs)
    · exact he ▸ hnames unit List.mem_cons_self
  obtain ⟨o, g₁, hrun, hok, hspec⟩ :=
    recompute_origins hpublic hlen hobstacle hout hcells hm fun r _ => hintegral r.name
  obtain ⟨o', g₂, hrun', hok', hspec'⟩ := recompute_origins hpublic' hlen'
    (obstacle?_insert hread' hsplit hfactors hne hobstacle) hout hcells hm
    fun r _ => hintegral r.name
  refine ⟨o, g₁, o', g₂, hrun, hrun', fun h => ?_⟩
  obtain ⟨P, hP⟩ := hok.1 h
  obtain ⟨hP', hdescends⟩ :=
    descends_insert hfactors hunit hbefore hafter (hsplit ▸ hlen) (hsplit ▸ hP)
  rw [← hsplit] at hdescends
  obtain ⟨hholds, horigins⟩ := hspec P hP
  obtain ⟨hholds', horigins'⟩ := hspec' P hP'
  have hbases (name : Text) : (∃ r ∈ plan'.factors, r.name = name) ↔
      (∃ r ∈ plan.factors, r.name = name) ∨ name = unit.name :=
    exists_factor_insert hsplit hfactors
  refine ⟨hok'.2 ⟨P, hP'⟩, P, hholds, hholds', fun i j => ?_⟩
  rw [horigins, horigins']
  have hsub : g.inputOrigins config plan'.factors P.shape i j ⊆
      g.inputOrigins config plan.factors P.shape i j :=
    inputOrigins_insert_subset hbases hne hdescends i j
  refine ⟨fun hlast => inputOrigins_insert hbases hne hdescends hlast i j, fun hlast hunread => ?_,
    hsub, fun c hc he => ?_⟩
  · exact inputOrigins_insert_last hbases hne hdescends hlast
      (fun r hr he => hunread (List.mem_map.2 ⟨r, hr, he⟩)) i j
  · obtain ⟨⟨r, hr, hrname⟩, -⟩ := hsub hc
    exact hfresh (List.mem_map.2 ⟨r, hr, hrname.trans he⟩)

/-- The plan of `A*I*B`. -/
def enclosingPlan : SimplePlan where
  factors := [⟨"A", .absent, false, 0⟩, ⟨"I", .absent, false, 2⟩, ⟨"B", .absent, false, 4⟩]
  fault? := none
  text := "A*I*B"

/-- Settings that declare no matrix. -/
def plainConfig (output : Text) : Config :=
  ⟨output, some 1, [], (1, 1)⟩

/-- A row `A` of ones and a matrix `B` whose second column cancels in `A*B`, and an identity matrix
`I`. -/
def cancellingGraph : Graph :=
  runAll "elem" [.initMatrix "A" 1 2, .update "A" 0 0 (.int 1) none none none,
    .update "A" 0 1 (.int 1) none none none, .initMatrix "B" 2 2,
    .update "B" 0 0 (.int 1) none none none, .update "B" 0 1 (.int 1) none none none,
    .update "B" 1 0 (.int 1) none none none, .update "B" 1 1 (.int (-1)) none none none,
    .initMatrix "I" 2 2, .update "I" 0 0 (.int 1) none (some true) none,
    .update "I" 1 1 (.int 1) none (some true) none]

theorem isReachable_cancellingGraph : cancellingGraph.IsReachable :=
  ⟨"elem", _, rfl⟩

theorem isInt_cancellingGraph :
    ∀ id ∈ cancellingGraph.nodes, (cancellingGraph.cell id).IsInt :=
  isReachable_cancellingGraph.isWellFormed.toIsMinted.forall_cell_iff.2 (by decide +kernel)

theorem isIdentityInput_cancellingGraph (output : Text) :
    cancellingGraph.IsIdentityInput (plainConfig output) "I" 2 :=
  ⟨rfl, by decide +kernel, by decide +kernel⟩

/-- In `A*B` the second output cell derives from the first cell of `A`, though it is zero. -/
theorem exists_recompute_productPlan : ∃ o g₁,
    recompute (.simple productPlan) (plainConfig "O") cancellingGraph = .ok o g₁ ∧ o.isOk = true ∧
      (("A" : Text), (0 : Int), (0 : Int)) ∈ g₁.origins ["A", "B"] "O" 0 1 := by
  have hwf := (edits_recompute (.simple productPlan) (plainConfig "O")
    cancellingGraph).isWellFormed isReachable_cancellingGraph.isWellFormed
  set g₁ := after (recompute (.simple productPlan) (plainConfig "O")) cancellingGraph with hg₁
  obtain ⟨hsucceeds, hz, hmem, hdep, hplace⟩ :
      succeeds (.simple productPlan) (plainConfig "O") cancellingGraph ∧
      g₁.idAt? "O" 0 1 = some "elem_15" ∧ "elem_15" ∈ g₁.nodes ∧
      "elem_0" ∈ (g₁.cell "elem_15").dependencies ∧
      (g₁.cell "elem_0").place = (("A" : Text), (0 : Int), (0 : Int)) := by
    rw [hg₁]
    decide +kernel
  obtain ⟨o, hrun, hok⟩ := recompute_of_succeeds hsucceeds
  have hlineage := mem_allDependencies_of_mem hwf (self_mem_allDependencies hmem) hdep
  exact ⟨o, g₁, hrun, hok, List.mem_cons_self, _, _, hz, hlineage, hplace⟩

/-- In `A*I*B` the second output cell derives from the first cell of `A` as it does in `A*B`. -/
theorem recompute_insert_identity_sample : ∃ o g₁ o' g₂,
    recompute (.simple productPlan) (plainConfig "O") cancellingGraph = .ok o g₁ ∧ o.isOk = true ∧
      recompute (.simple enclosingPlan) (plainConfig "O") cancellingGraph = .ok o' g₂ ∧
      o'.isOk = true ∧ (("A" : Text), (0 : Int), (0 : Int)) ∈ g₁.origins ["A", "B"] "O" 0 1 ∧
      (("A" : Text), (0 : Int), (0 : Int)) ∈ g₂.origins ["A", "B", "I"] "O" 0 1 := by
  have hread : Plan.read "A*B" = .ok (.simple productPlan) := by decide +kernel
  have hread' : Plan.read "A*I*B" = .ok (.simple enclosingPlan) := by decide +kernel
  have hconfig : Config.make "O" (.int 1) [] (.int 1) (.int 1) (.int 50) (.int 50) =
      .ok (plainConfig "O") := rfl
  have hsplit : productPlan.factors =
      [⟨"A", .absent, false, 0⟩] ++ [⟨"B", .absent, false, 2⟩] := rfl
  have hfactors : enclosingPlan.factors.map Reference.unplaced =
      ([⟨"A", .absent, false, 0⟩] ++ ⟨"I", .absent, false, 2⟩ ::
        [⟨"B", .absent, false, 2⟩] : List Reference).map Reference.unplaced := rfl
  obtain ⟨o, g₁, o', g₂, hrun, hrun', hinsert⟩ := recompute_insert_identity (n := 2) hread hread'
    hsplit (by decide) hfactors (by decide) (by decide) (by decide) hconfig (by decide +kernel)
    (by decide) isReachable_cancellingGraph isInt_cancellingGraph
    (isIdentityInput_cancellingGraph "O") (by decide +kernel) (by decide +kernel)
  obtain ⟨o₁, g, hrun₁, hok, horigins⟩ := exists_recompute_productPlan
  rw [hrun] at hrun₁
  cases hrun₁
  obtain ⟨hok', P, -, -, hall⟩ := hinsert hok
  have hbases : (Plan.simple productPlan).baseMatrices = ["A", "B"] ∧
      (Plan.simple enclosingPlan).baseMatrices = ["A", "B", "I"] := by decide +kernel
  have heq := (hall 0 1).1 (List.cons_ne_nil _ _)
  rw [hbases.1, hbases.2] at heq
  exact ⟨o, g₁, o', g₂, hrun, hok, hrun', hok', horigins, heq.symm ▸ horigins⟩

/-! ### Where an identity matrix is not transparent -/

/-- A set of cells that no edge leads out of holds all that is found from one of them. -/
theorem notMem_origins {ids : List CellId} {names : List Text} {output : Text} {z : CellId}
    {c : Text × Int × Int} (hz : g.idAt? output i j = some z) (hmem : z ∈ ids)
    (hclosed : ∀ x ∈ ids, ∀ y ∈ (g.cell x).dependencies, y ∈ ids)
    (hplace : ∀ x ∈ ids, (g.cell x).place ≠ c) : c ∉ g.origins names output i j := by
  rintro ⟨-, z', x, hz', hx, hc⟩
  obtain rfl := Option.some.inj (hz.symm.trans hz')
  exact hplace x (allDependencies_induction hmem hclosed hx) hc

/-- The plan of `A*B*I`. -/
def trailingPlan : SimplePlan where
  factors := [⟨"A", .absent, false, 0⟩, ⟨"B", .absent, false, 2⟩, ⟨"I", .absent, false, 4⟩]
  fault? := none
  text := "A*B*I"

/-- The plan of `A_n*B*I`. -/
def overwritingTrailingPlan : SimplePlan where
  factors := [⟨"A", .current, false, 0⟩, ⟨"B", .absent, false, 4⟩, ⟨"I", .absent, false, 6⟩]
  fault? := none
  text := "A_n*B*I"

/-- **An identity matrix at the end is not transparent.** Behind it, an output cell that is zero
because the terms cancel out has no cell of the formula left in its lineage. And in an output that
is read, through a factor with a relative index, the lineage of a nonzero cell that led through such
a cell is cut off. -/
theorem identity_not_transparent :
    (cancellingGraph.IsReachable ∧ (∀ id ∈ cancellingGraph.nodes, (cancellingGraph.cell id).IsInt) ∧
      ∀ output, cancellingGraph.IsIdentityInput (plainConfig output) "I" 2) ∧
    (Plan.read "A*B" = .ok (.simple productPlan) ∧ Plan.read "A*B*I" = .ok (.simple trailingPlan) ∧
      Config.make "O" (.int 1) [] (.int 1) (.int 1) (.int 50) (.int 50) = .ok (plainConfig "O") ∧
      (Plan.simple productPlan).obstacle? "O" = none ∧
      ∃ o g₁ o' g₂, recompute (.simple productPlan) (plainConfig "O") cancellingGraph = .ok o g₁ ∧
        o.isOk = true ∧
        recompute (.simple trailingPlan) (plainConfig "O") cancellingGraph = .ok o' g₂ ∧
        o'.isOk = true ∧ (("A" : Text), (0 : Int), (0 : Int)) ∈ g₁.origins ["A", "B"] "O" 0 1 ∧
        (("A" : Text), (0 : Int), (0 : Int)) ∉ g₂.origins ["A", "B", "I"] "O" 0 1) ∧
    (Plan.read "A_n*B" = .ok (.simple overwritingPlan) ∧
      Plan.read "A_n*B*I" = .ok (.simple overwritingTrailingPlan) ∧
      Config.make "A" (.int 1) [] (.int 1) (.int 1) (.int 50) (.int 50) = .ok (plainConfig "A") ∧
      (Plan.simple overwritingPlan).obstacle? "A" = none ∧
      ∃ o g₁ o' g₂,
        recompute (.simple overwritingPlan) (plainConfig "A") cancellingGraph = .ok o g₁ ∧
        o.isOk = true ∧
        recompute (.simple overwritingTrailingPlan) (plainConfig "A") cancellingGraph = .ok o' g₂ ∧
        o'.isOk = true ∧ (g₁.valueAt "A" 0 0).isNonzero = true ∧
        (("B" : Text), (0 : Int), (1 : Int)) ∈ g₁.origins ["A", "B"] "A" 0 0 ∧
        (("B" : Text), (0 : Int), (1 : Int)) ∉ g₂.origins ["A", "B", "I"] "A" 0 0) := by
  have hg := isReachable_cancellingGraph
  refine ⟨⟨hg, isInt_cancellingGraph, isIdentityInput_cancellingGraph⟩,
    ⟨by decide +kernel, by decide +kernel, rfl, by decide +kernel, ?_⟩,
    ⟨by decide +kernel, by decide +kernel, rfl, by decide +kernel, ?_⟩⟩
  · obtain ⟨o, g₁, hrun, hok, horigins⟩ := exists_recompute_productPlan
    set g₂ := after (recompute (.simple trailingPlan) (plainConfig "O")) cancellingGraph with hg₂
    -- the output cell behind the identity matrix derives from nothing
    obtain ⟨hsucceeds', hz', hclosed, hplaces⟩ :
        succeeds (.simple trailingPlan) (plainConfig "O") cancellingGraph ∧
        g₂.idAt? "O" 0 1 = some "elem_25" ∧
        (∀ x ∈ ["elem_25"], ∀ y ∈ (g₂.cell x).dependencies, y ∈ ["elem_25"]) ∧
        ∀ x ∈ ["elem_25"], (g₂.cell x).place ≠ (("A" : Text), (0 : Int), (0 : Int)) := by
      rw [hg₂]
      decide +kernel
    obtain ⟨o', hrun', hok'⟩ := recompute_of_succeeds hsucceeds'
    exact ⟨o, g₁, o', g₂, hrun, hok, hrun', hok', horigins,
      notMem_origins hz' List.mem_cons_self hclosed hplaces⟩
  · have hwf := (edits_recompute (.simple overwritingPlan) (plainConfig "A")
      cancellingGraph).isWellFormed hg.isWellFormed
    set g₁ := after (recompute (.simple overwritingPlan) (plainConfig "A")) cancellingGraph with hg₁
    set g₂ := after (recompute (.simple overwritingTrailingPlan) (plainConfig "A")) cancellingGraph
      with hg₂
    -- the first output cell derives from the second one, which was overwritten with zero
    obtain ⟨hsucceeds, hz, hvalue, hmem, hfirst, hsecond, hplace⟩ :
        succeeds (.simple overwritingPlan) (plainConfig "A") cancellingGraph ∧
        g₁.idAt? "A" 0 0 = some "elem_0" ∧ (g₁.valueAt "A" 0 0).isNonzero = true ∧
        "elem_0" ∈ g₁.nodes ∧ "elem_1" ∈ (g₁.cell "elem_0").dependencies ∧
        "elem_3" ∈ (g₁.cell "elem_1").dependencies ∧
        (g₁.cell "elem_3").place = (("B" : Text), (0 : Int), (1 : Int)) := by
      rw [hg₁]
      decide +kernel
    let ids := ["elem_0", "elem_16", "elem_10", "elem_12", "elem_2", "elem_11", "elem_1", "elem_14",
      "elem_4"]
    obtain ⟨hsucceeds', hz', hclosed, hplaces⟩ :
        succeeds (.simple overwritingTrailingPlan) (plainConfig "A") cancellingGraph ∧
        g₂.idAt? "A" 0 0 = some "elem_0" ∧
        (∀ x ∈ ids, ∀ y ∈ (g₂.cell x).dependencies, y ∈ ids) ∧
        ∀ x ∈ ids, (g₂.cell x).place ≠ (("B" : Text), (0 : Int), (1 : Int)) := by
      rw [hg₂]
      decide +kernel
    obtain ⟨o, hrun, hok⟩ := recompute_of_succeeds hsucceeds
    obtain ⟨o', hrun', hok'⟩ := recompute_of_succeeds hsucceeds'
    have hlineage := mem_allDependencies_of_mem hwf
      (mem_allDependencies_of_mem hwf (self_mem_allDependencies hmem) hfirst) hsecond
    exact ⟨o, g₁, o', g₂, hrun, hok, hrun', hok', hvalue,
      ⟨List.mem_cons_of_mem _ List.mem_cons_self, _, _, hz, hlineage, hplace⟩,
      notMem_origins hz' List.mem_cons_self hclosed hplaces⟩

end Graph

end CellLineage
