import CellLineage.Proofs.Evaluation.Lineage
import CellLineage.Proofs.Recompute.Simple

/-!
# The lineage of a product

After a recompute of a product of factors without negative entries and without identity cells, the
lineage of a nonzero output cell is exact for each occurrence of a matrix: a cell of the instance of
an occurrence is in it exactly if some nonzero term of the entry takes the entry of that factor, and
a cell of an input matrix exactly if it is the source of such a cell.

The output is a copy of the result and derives from what that derives from, not from the result
itself. So if the formula is a single matrix that is not transposed, the result is its instance, and
no cell of the instance is in the lineage of the output.

## Main definitions

* `Graph.IsTraceable`: input without negative numbers and without identity cells.
* `Formula.Reference.place`: where the entry of a factor comes from.

## Main results

* `Graph.Derives.handsOn_iff`: what the result of a derivation hands on.
* `Graph.recompute_lineage`: the lineage of the output.
-/

namespace CellLineage

open Formula

namespace Formula

/-- The position in its matrix of an entry of a factor. -/
def Reference.place (r : Reference) (u v : Nat) : Nat × Nat :=
  if r.transposed then (v, u) else (u, v)

theorem Reference.eq_place_iff {r : Reference} {a b u v : Nat} :
    a = (r.place u v).1 ∧ b = (r.place u v).2 ↔ u = (r.place a b).1 ∧ v = (r.place a b).2 := by
  cases h : r.transposed with
  | false =>
    simp only [place, h, Bool.false_eq_true, if_false]
    rw [eq_comm, @eq_comm _ b]
  | true =>
    simp only [place, h, if_true]
    rw [and_comm, eq_comm, @eq_comm _ a]

theorem Product.size_ofFactors (first : Reference) (others : List Reference) :
    (ofFactors first others).size = others.length + 1 := by
  rw [size, references_ofFactors, List.length_cons]

end Formula

namespace Graph

variable {before g g' : Graph} {config : Config} {name : Text} {i j : Nat} {x z : CellId}
  {first : Reference} {others : List Reference} {o : Int} {m : Nat} {P : IntMatrix}

/-! ### The input -/

/-- The cells that go into an input matrix hold whole numbers of which none is negative, and they
are no identity cells. -/
def IsTraceable (g : Graph) (config : Config) (name : Text) : Prop :=
  ∀ i j, i < (g.inputShape config name).1 → j < (g.inputShape config name).2 →
    (∃ n : Nat, g.valueAt name i j = .int n) ∧ g.identityAt name i j = false

instance (v : Number) : Decidable (∃ n : Nat, v = .int n) :=
  match v with
  | .int n => decidable_of_iff (0 ≤ n)
      ⟨fun h => ⟨n.toNat, by rw [Int.toNat_of_nonneg h]⟩, fun ⟨_, h⟩ => by cases h; omega⟩
  | .float _ => isFalse fun ⟨_, h⟩ => by cases h

instance (g : Graph) (config : Config) (name : Text) : Decidable (g.IsTraceable config name) :=
  decidable_of_iff (∀ i < (g.inputShape config name).1, ∀ j < (g.inputShape config name).2,
      (∃ n : Nat, g.valueAt name i j = .int n) ∧ g.identityAt name i j = false)
    ⟨fun h i j hi hj => h i hi j hj, fun h i hi j hj => h i j hi hj⟩

theorem IsTraceable.isIntegral (h : g.IsTraceable config name) : g.IsIntegral config name :=
  fun i j hi hj => by
    obtain ⟨⟨n, hn⟩, -⟩ := h i j hi hj
    exact ⟨n, hn⟩

theorem IsTraceable.isNonneg (h : g.IsTraceable config name) :
    (g.inputMatrix config name).IsNonneg := by
  intro i j
  by_cases hij : i < (g.inputShape config name).1 ∧ j < (g.inputShape config name).2
  · obtain ⟨⟨n, hn⟩, -⟩ := h i j hij.1 hij.2
    rw [inputMatrix, IntMatrix.get_ofFn hij.1 hij.2, hn]
    exact Int.natCast_nonneg n
  · rw [IntMatrix.get, dif_neg (by exact hij)]

/-- A restored matrix derives from nothing. -/
theorem RestoredFrom.not_derivesFrom {shape : Nat × Nat} (h : before.RestoredFrom g name shape) :
    ¬g.DerivesFrom name i j x := by
  obtain ⟨b, hb, -, hcells⟩ := h
  intro hx
  obtain ⟨hi, hj⟩ := hx.lt hb
  rw [derivesFrom_iff hb hi hj, (hcells i j hi hj).2.2] at hx
  cases hx

theorem RestoredFrom.isTraced (h : before.RestoredFrom g name (before.inputShape config name))
    (ht : before.IsTraceable config name) : g.IsTraced name (before.inputMatrix config name) where
  holds := h.holds ht.isIntegral
  isNonneg := ht.isNonneg
  isPlain {b i j} hb hi hj := by
    obtain ⟨c, hc, hshape, hcells⟩ := h
    obtain rfl : b = c := Option.some.inj (hb.symm.trans hc)
    rw [(hcells i j hi hj).2.1]
    exact (ht i j (hshape ▸ hi) (hshape ▸ hj)).2
  closed hx _ := absurd hx h.not_derivesFrom
  stands hx := absurd hx h.not_derivesFrom

/-! ### Derivations -/

/-- A derivation of a product of factors holds one of each factor. -/
theorem Derives.getElem? (h : g.Derives (.ofFactors first others) o m) {p : Nat} {r : Reference}
    (hp : (first :: others)[p]? = some r) : g.Derives (.single r) (o + p) 0 := by
  induction others using List.reverseRecOn with
  | nil =>
    cases p with
    | zero =>
      cases hp
      rw [Int.natCast_zero, Int.add_zero]
      exact h
    | succ p => cases hp
  | append_singleton others s ih =>
    rw [Product.ofFactors_concat] at h
    rw [← List.cons_append] at hp
    by_cases hlt : p < (first :: others).length
    · rw [List.getElem?_append_left hlt] at hp
      exact ih h.1 hp
    · have hle := (List.getElem?_eq_some_iff.1 hp).1
      obtain rfl : p = (first :: others).length := by
        rw [List.length_append, List.length_singleton] at hle
        omega
      rw [List.getElem?_concat_length] at hp
      cases hp
      have hs := h.2.1
      rwa [Product.size_ofFactors] at hs

/-- The matrix of a factor is traced. -/
theorem Derives.isTraced_single (hg : g.IsMinted) {r : Reference} (h : g.Derives (.single r) o m)
    (hr : g.IsTraced r.name (before.inputMatrix config r.name)) :
    g.IsTraced ((Product.single r).resultName o m) (before.factorMatrix config r) := by
  have hinst := h.1.isTraced hg hr
  rw [factorMatrix, Product.resultName]
  cases ht : r.transposed with
  | true =>
    rw [if_pos rfl, if_pos rfl]
    exact (h.2 ht).isTraced hg hinst
  | false =>
    rw [if_neg Bool.false_ne_true, if_neg Bool.false_ne_true]
    exact hinst

open IntMatrix in
/-- A derivation of a product ends with a multiplication by the last factor. -/
theorem Derives.of_concat {s : Reference} (h : g.Derives (.ofFactors first (others ++ [s])) o m)
    {F : Reference → IntMatrix} (hP : product? ((first :: (others ++ [s])).map F) = some P) :
    ∃ Q, product? ((first :: others).map F) = some Q ∧ Q.mul? (F s) = some P ∧
      g.Derives (.ofFactors first others) o m ∧
      g.Derives (.single s) (o + (first :: others).length) 0 ∧
      g.IsProductOf false ((Product.ofFactors first others).resultName o m)
        ((Product.single s).resultName (o + (first :: others).length) 0)
        ((Product.ofFactors first (others ++ [s])).resultName o m) := by
  rw [← List.cons_append, List.map_append, List.map_singleton,
    product?_concat (List.map_eq_nil_iff.not.2 (List.cons_ne_nil _ _))] at hP
  obtain ⟨Q, hQ, hP⟩ := Option.bind_eq_some_iff.1 hP
  rw [Product.ofFactors_concat] at h ⊢
  obtain ⟨hp, hs, hprod, -⟩ := h
  rw [Product.size_ofFactors] at hs hprod
  exact ⟨Q, hQ, hP, hp, hs, hprod⟩

/-- The result of a derivation from traced matrices is traced. -/
theorem Derives.isTraced (hg : g.IsMinted) (h : g.Derives (.ofFactors first others) o m)
    (hrefs : ∀ r ∈ first :: others, g.IsTraced r.name (before.inputMatrix config r.name))
    (hP : IntMatrix.product? ((first :: others).map (before.factorMatrix config)) = some P) :
    g.IsTraced ((Product.ofFactors first others).resultName o m) P := by
  induction others using List.reverseRecOn generalizing P with
  | nil =>
    cases hP
    exact h.isTraced_single hg (hrefs first List.mem_cons_self)
  | append_singleton others s ih =>
    obtain ⟨Q, hQ, hP, hp, hs, hprod⟩ := h.of_concat hP
    rw [← List.cons_append] at hrefs
    exact hprod.isTraced hg (ih hp (fun r hr => hrefs r (List.mem_append_left _ hr)) hQ)
      (hs.isTraced_single hg (hrefs s (by simp))) hP

/-- The entry of the factor at a position hands on the cell `x`. -/
def FactorHandsOn (g : Graph) (factors : List Reference) (o : Int) (x : CellId) (p u v : Nat) :
    Prop :=
  ∃ r, factors[p]? = some r ∧ g.HandsOn ((Product.single r).resultName (o + p) 0) u v x

theorem factorHandsOn_append_left {factors others : List Reference} {p u v : Nat}
    (hp : p < factors.length) :
    g.FactorHandsOn (factors ++ others) o x p u v ↔ g.FactorHandsOn factors o x p u v := by
  rw [FactorHandsOn, List.getElem?_append_left hp, FactorHandsOn]

theorem factorHandsOn_concat_length {factors : List Reference} {r : Reference} {u v : Nat} :
    g.FactorHandsOn (factors ++ [r]) o x factors.length u v ↔
      g.HandsOn ((Product.single r).resultName (o + factors.length) 0) u v x := by
  rw [FactorHandsOn, List.getElem?_concat_length]
  simp only [Option.some.injEq, exists_eq_left']

open IntMatrix in
/-- **What the result of a derivation hands on.** Apart from intermediate results it hands on what
the entries of the factors do that some nonzero term takes. -/
theorem Derives.handsOn_iff (hg : g.IsMinted) (h : g.Derives (.ofFactors first others) o m)
    (hrefs : ∀ r ∈ first :: others, g.IsTraced r.name (before.inputMatrix config r.name))
    (hP : product? ((first :: others).map (before.factorMatrix config)) = some P)
    (hij : P.get i j ≠ 0) (hx : ∀ k (i j : Nat), g.idAt? (temporaryName k) i j ≠ some x) :
    g.HandsOn ((Product.ofFactors first others).resultName o m) i j x ↔
      ∃ p u v, p < ((first :: others).map (before.factorMatrix config)).length ∧
        Uses ((first :: others).map (before.factorMatrix config)) i j p u v ∧
        g.FactorHandsOn (first :: others) o x p u v := by
  induction others using List.reverseRecOn generalizing P i j with
  | nil =>
    cases hP
    have hfactor : g.FactorHandsOn ([] ++ [first]) o x 0 i j ↔ _ := factorHandsOn_concat_length
    rw [List.nil_append, List.length_nil, Int.natCast_zero, Int.add_zero] at hfactor
    constructor
    · intro hx
      exact ⟨0, i, j, Nat.one_pos, (uses_singleton Nat.one_pos).2 ⟨rfl, rfl, hij⟩, hfactor.2 hx⟩
    · rintro ⟨p, u, v, hp, huses, hx⟩
      obtain rfl := Nat.lt_one_iff.1 hp
      obtain ⟨rfl, rfl, -⟩ := (uses_singleton Nat.one_pos).1 huses
      exact hfactor.1 hx
  | append_singleton others s ih =>
    obtain ⟨Q, hQ, hP, hp, hs, hprod⟩ := h.of_concat hP
    rw [← List.cons_append] at hrefs ⊢
    rw [List.map_append, List.map_singleton]
    have hrefs' : ∀ r ∈ first :: others, g.IsTraced r.name (before.inputMatrix config r.name) :=
      fun r hr => hrefs r (List.mem_append_left _ hr)
    have hs₀ := hs.isTraced_single hg (hrefs s (by simp))
    have hnonneg : ∀ M ∈ (first :: others).map (before.factorMatrix config), M.IsNonneg := by
      intro M hM
      obtain ⟨r, hr, rfl⟩ := List.mem_map.1 hM
      obtain ⟨p, hr'⟩ := List.mem_iff_getElem?.1 hr
      exact ((hp.getElem? hr').isTraced_single hg (hrefs' r hr)).isNonneg
    have hdeps := hprod.derivesFrom_iff (i := i) (j := j) (x := x) hg (hp.isTraced hg hrefs' hQ) hs₀
    have hself :
        ¬g.idAt? ((Product.ofFactors first (others ++ [s])).resultName o m) i j = some x := by
      rw [Product.ofFactors_concat]
      exact hx _ i j
    rw [HandsOn, or_iff_right hself, hdeps, exists_uses_concat hnonneg hQ]
    refine exists_congr fun n => and_congr_right fun hQ₀ => and_congr_right fun _ => or_congr ?_ ?_
    · refine (ih hp hrefs' hQ hQ₀).trans ?_
      refine exists_congr fun p => exists_congr fun u => exists_congr fun v => ?_
      refine and_congr_right fun hlt => and_congr_right fun _ => ?_
      rw [List.length_map] at hlt
      exact (factorHandsOn_append_left hlt).symm
    · rw [List.length_map, factorHandsOn_concat_length]

/-! ### Cells of instances and of input matrices -/

/-- The result of a derivation has an original name only if it is an instance of a single matrix. -/
theorem eq_resultName_iff (h : IsOriginal name) :
    name = (Product.ofFactors first others).resultName 0 0 ↔
      others = [] ∧ first.transposed = false ∧ name = instanceName first.name 0 := by
  induction others using List.reverseRecOn with
  | nil =>
    have hname : (Product.ofFactors first []).resultName 0 0 =
        if first.transposed then transposeName (instanceName first.name 0)
        else instanceName first.name 0 := rfl
    rw [hname]
    cases ht : first.transposed with
    | true => simpa using h.2 first.name 0
    | false => simp
  | append_singleton others r _ =>
    rw [Product.ofFactors_concat, Product.resultName]
    simpa using h.1 _

/-- An entry of a factor hands on the cells of its place in the instance and in the input matrix. -/
theorem Derives.handsOn_single_iff (hg : g.IsMinted) {r : Reference} (h : g.Derives (.single r) o m)
    (hbare : ∀ i j x, ¬g.DerivesFrom r.name i j x)
    (hx : ∀ i j : Nat, g.idAt? (transposeName (instanceName r.name o)) i j ≠ some x) {u v : Nat} :
    g.HandsOn ((Product.single r).resultName o m) u v x ↔
      g.idAt? (instanceName r.name o) (r.place u v).1 (r.place u v).2 = some x ∨
        g.idAt? r.name (r.place u v).1 (r.place u v).2 = some x := by
  have hinst {i j : Nat} : g.HandsOn (instanceName r.name o) i j x ↔
      g.idAt? (instanceName r.name o) i j = some x ∨ g.idAt? r.name i j = some x := by
    rw [HandsOn, h.1.derivesFrom_iff hg, or_iff_left (hbare i j x)]
    simp
  rw [Product.resultName, Reference.place]
  cases ht : r.transposed with
  | false => exact hinst
  | true => exact (or_iff_right (hx u v)).trans (((h.2 ht).derivesFrom_iff hg).trans hinst)

open IntMatrix in
/-- Which cells of instances and of input matrices the result of a derivation hands on. -/
theorem Derives.handsOn_cell_iff (hg : g.IsMinted) (h : g.Derives (.ofFactors first others) 0 0)
    (hrefs : ∀ r ∈ first :: others, g.IsTraced r.name (before.inputMatrix config r.name))
    (hbare : ∀ r ∈ first :: others, ∀ i j x, ¬g.DerivesFrom r.name i j x)
    (hP : product? ((first :: others).map (before.factorMatrix config)) = some P)
    (hij : P.get i j ≠ 0) (hname : IsOriginal name) {a b : Nat} (hx : g.idAt? name a b = some x) :
    g.HandsOn ((Product.ofFactors first others).resultName 0 0) i j x ↔
      ∃ p r, (first :: others)[p]? = some r ∧
        Uses ((first :: others).map (before.factorMatrix config)) i j p
          (r.place a b).1 (r.place a b).2 ∧ (name = instanceName r.name p ∨ name = r.name) := by
  have htemp : ∀ k (i j : Nat), g.idAt? (temporaryName k) i j ≠ some x := fun k i j he =>
    hname.1 k (hg.idAt?_inj hx he).1
  have hsingle {p u v : Nat} {r : Reference} (hp : (first :: others)[p]? = some r) :
      g.HandsOn ((Product.single r).resultName (0 + p) 0) u v x ↔
        (name = instanceName r.name p ∨ name = r.name) ∧
          u = (r.place a b).1 ∧ v = (r.place a b).2 := by
    refine ((h.getElem? hp).handsOn_single_iff hg (hbare r (List.mem_of_getElem? hp))
      fun i j he => hname.2 _ _ (hg.idAt?_inj hx he).1).trans ?_
    rw [hg.idAt?_eq_some_iff hx, hg.idAt?_eq_some_iff hx, ← or_and_right, Reference.eq_place_iff,
      Int.zero_add]
  rw [h.handsOn_iff hg hrefs hP hij htemp]
  constructor
  · rintro ⟨p, u, v, -, huses, r, hp, hands⟩
    obtain ⟨hr, rfl, rfl⟩ := (hsingle hp).1 hands
    exact ⟨p, r, hp, huses, hr⟩
  · rintro ⟨p, r, hp, huses, hr⟩
    have hlt := (List.getElem?_eq_some_iff.1 hp).1
    refine ⟨p, _, _, ?_, huses, r, hp, (hsingle hp).2 ⟨hr, rfl, rfl⟩⟩
    rwa [List.length_map]

/-- An entry of a product of at least two factors that is zero derives from nothing. -/
theorem Derives.not_derivesFrom (hg : g.IsMinted) (h : g.Derives (.ofFactors first others) o m)
    (hrefs : ∀ r ∈ first :: others, g.IsTraced r.name (before.inputMatrix config r.name))
    (hP : IntMatrix.product? ((first :: others).map (before.factorMatrix config)) = some P)
    (hothers : others ≠ []) (hij : P.get i j = 0) :
    ¬g.DerivesFrom ((Product.ofFactors first others).resultName o m) i j x := by
  obtain ⟨others, s, rfl⟩ : ∃ rs r, others = rs ++ [r] :=
    ⟨_, _, (List.dropLast_append_getLast hothers).symm⟩
  obtain ⟨Q, hQ, hP, hp, hs, hprod⟩ := h.of_concat hP
  rw [← List.cons_append] at hrefs
  have hp := hp.isTraced hg (fun r hr => hrefs r (List.mem_append_left _ hr)) hQ
  have hs := hs.isTraced_single hg (hrefs s (by simp))
  rw [hprod.derivesFrom_iff hg hp hs]
  rintro ⟨n, hQ₀, hN₀, -⟩
  exact (IntMatrix.get_mul?_ne_zero_iff hp.isNonneg hs.isNonneg hP).2 ⟨n, hQ₀, hN₀⟩ hij

/-! ### The output -/

/-- What a copy of the result derives from, the result derives from. -/
theorem derivesFrom_output_iff {output result : Text} (hg : g.IsMinted)
    (hcopy : g.IsCopyOf false result output) :
    g.DerivesFrom output i j x ↔ g.DerivesFrom result i j x := by
  rw [hcopy.derivesFrom_iff hg]
  simp

open IntMatrix in
/-- Which cells of instances and of input matrices a nonzero cell derives from that the result of a
derivation was copied to: not those of the instance that is the result. -/
theorem Derives.mem_allDependencies_iff {output : Text} (hg : g.IsWellFormed)
    (h : g.Derives (.ofFactors first others) 0 0)
    (hrefs : ∀ r ∈ first :: others, g.IsTraced r.name (before.inputMatrix config r.name))
    (hbare : ∀ r ∈ first :: others, ∀ i j x, ¬g.DerivesFrom r.name i j x)
    (hpublic : ∀ r ∈ first :: others, IsPublic r.name)
    (hP : product? ((first :: others).map (before.factorMatrix config)) = some P)
    (hcopy : g.IsCopyOf false ((Product.ofFactors first others).resultName 0 0) output)
    (hz : g.idAt? output i j = some z) (hij : P.get i j ≠ 0) (hname : IsOriginal name)
    (hne : name ≠ output) {a b : Nat} (hx : g.idAt? name a b = some x) :
    x ∈ g.allDependencies z ↔
      ¬(others = [] ∧ first.transposed = false ∧ name = instanceName first.name 0) ∧
      ∃ p r, (first :: others)[p]? = some r ∧
        Uses ((first :: others).map (before.factorMatrix config)) i j p
          (r.place a b).1 (r.place a b).2 ∧ (name = instanceName r.name p ∨ name = r.name) := by
  have hm := hg.toIsMinted
  have hself : ¬g.idAt? output i j = some x := fun he => hne (hm.idAt?_inj hx he).1
  rw [Graph.mem_allDependencies_iff hg (hcopy.isTraced hm (h.isTraced hm hrefs hP)) hz, HandsOn,
    or_iff_right hself, derivesFrom_output_iff hm hcopy, ← eq_resultName_iff hname,
    ← h.handsOn_cell_iff hm hrefs hbare hP hij hname hx]
  by_cases hres : name = (Product.ofFactors first others).resultName 0 0
  · -- the result is the instance of a single matrix and only derives from that matrix
    obtain ⟨rfl, ht, rfl⟩ := (eq_resultName_iff hname).1 hres
    have hinst : g.IsCopyOf true first.name (instanceName first.name 0) := h.1
    refine iff_of_false (fun hd => ?_) fun hd => hd.1 hres
    rw [← hres, hinst.derivesFrom_iff hm,
      or_iff_left (hbare first List.mem_cons_self i j x)] at hd
    have he := (hm.idAt?_inj hd.2 hx).1
    exact (hpublic first List.mem_cons_self).1 (he ▸ at_mem_instanceName first.name 0)
  · have hself : ¬g.idAt? ((Product.ofFactors first others).resultName 0 0) i j = some x :=
      fun he => hres (hm.idAt?_inj hx he).1
    rw [HandsOn, or_iff_right hself, and_iff_right hres]

/-- A lineage of one cell. -/
theorem allDependencies_eq_singleton (h : ∀ x, x ∈ g.allDependencies z ↔ x = z) :
    g.allDependencies z = [z] := by
  have hn : (g.allDependencies z).Nodup := nodup_sortedNames _
  rw [← List.perm_singleton, List.perm_ext_iff_of_nodup hn (List.nodup_singleton z)]
  intro x
  rw [h, List.mem_singleton]

/-- If the output is no factor, the derivation and its input are there at the end of the run. -/
theorem IsSimpleRun.derives {names : List Text} {p : Product} {out : Outcome} {g₁ : Graph}
    (h : IsSimpleRun before config names p out g₁ g) (hd : g₁.Derives p 0 0)
    (hout : IsPublic config.output) (hfresh : ∀ r ∈ p.references, r.name ≠ config.output) :
    g.Derives p 0 0 ∧
      ∀ r ∈ p.references, before.RestoredFrom g r.name (before.inputShape config r.name) := by
  have hkeeps {name : Text} (hne : name ≠ config.output) := h.writesOnly.keeps name hne
  refine ⟨hd.of_keeps (fun r hr => hkeeps (hfresh r hr)) (fun name hn _ => hkeeps ?_)
    fun k _ _ => ?_, fun r hr => (h.restored r hr).of_keeps (hkeeps (hfresh r hr))⟩
  · rintro rfl
    exact hn (hout.isSettled 0 0)
  · rw [h.writesOnly.descriptions]

open IntMatrix in
/-- **The lineage of a product is exact** for each occurrence of a matrix. After a recompute that
succeeds, a cell of the instance of an occurrence is in the lineage of a nonzero output cell exactly
if some nonzero term takes its entry of the factor, unless the formula is a single matrix that is
not transposed, whose instance is in no lineage of the output; and a cell of an input matrix is in
it exactly if a nonzero term takes the entry it is the source of. The lineage of an output cell that
is zero is the cell itself, if there are two factors or more. -/
theorem recompute_lineage {formula output : Text} {plan : SimplePlan}
    {iterations rows cols sizeLimit iterationLimit : Datum} {sizes : Association (Datum × Datum)}
    (hread : Plan.read formula = .ok (.simple plan)) (hne : plan.factors ≠ [])
    (hnames : ∀ r ∈ plan.factors, .char '@' ∉ r.name.symbols)
    (hconfig : Config.make output iterations sizes rows cols sizeLimit iterationLimit = .ok config)
    (hobstacle : (Plan.simple plan).obstacle? config.output = none) (hout : IsPublic config.output)
    (hfresh : config.output ∉ plan.factors.map Reference.name) (hg : g.IsReachable)
    (hcells : ∀ r ∈ plan.factors, g.IsTraceable config r.name) :
    ∃ o g', recompute (.simple plan) config g = .ok o g' ∧ (o.isOk = true →
      ∃ P, product? (plan.factors.map (g.factorMatrix config)) = some P ∧
        g'.Holds config.output P ∧
        (∀ (p : Nat) r, plan.factors[p]? = some r →
          g'.Holds r.name (g.inputMatrix config r.name) ∧
          g'.Holds (instanceName r.name p) (g.inputMatrix config r.name)) ∧
        ∀ (i j : Nat) z, g'.idAt? config.output i j = some z →
          (P.get i j ≠ 0 →
            (∀ (p : Nat) r, plan.factors[p]? = some r → ∀ (a b : Nat) x,
              g'.idAt? (instanceName r.name p) a b = some x →
                (x ∈ g'.allDependencies z ↔
                  ¬(plan.factors.length = 1 ∧ r.transposed = false) ∧
                  Uses (plan.factors.map (g.factorMatrix config)) i j p
                    (r.place a b).1 (r.place a b).2)) ∧
            ∀ r ∈ plan.factors, ∀ (a b : Nat) x, g'.idAt? r.name a b = some x →
              (x ∈ g'.allDependencies z ↔ ∃ (p : Nat) (s : Reference),
                plan.factors[p]? = some s ∧ s.name = r.name ∧
                Uses (plan.factors.map (g.factorMatrix config)) i j p
                  (s.place a b).1 (s.place a b).2)) ∧
          (2 ≤ plan.factors.length → P.get i j = 0 → g'.allDependencies z = [z])) := by
  obtain ⟨first, others, hfactors⟩ := List.exists_cons_of_ne_nil hne
  have hfault := (Plan.obstacle?_eq_none_iff.1 hobstacle).1
  have hpublic : ∀ r ∈ plan.factors, IsPublic r.name := fun r hr =>
    isPublic_name (Plan.isBase_of_read hread r hr) (hnames r hr)
  have hp : plan.product? = some (.ofFactors first others) := by
    rw [SimplePlan.product?, hfactors]
    rfl
  obtain ⟨o, g₁, g', hrun, h⟩ := recompute_simple_spec hp hpublic hobstacle hout
    (Config.hasCells_of_make hconfig).2 hg.isWellFormed.toIsMinted
    fun r hr => (hcells r hr).isIntegral
  have hmem : ∀ r ∈ first :: others, r.name ∈ simpleInputNames plan config := fun r hr =>
    name_mem_simpleInputNames hfault (hfactors ▸ hr)
  refine ⟨o, g', hrun, fun hok => ?_⟩
  rw [hfactors] at hpublic hfresh hcells ⊢
  rw [h.isOk_iff] at hok
  rcases value_factors g config hmem with ⟨P, hP, hvalue⟩ | ⟨before, A, B, after, -, -, -, hvalue⟩
  swap
  · rw [hvalue] at hok
    cases hok
  obtain ⟨-, hderives, hcopy, hholds⟩ := h.of_value_eq_some (congrArg Prod.fst hvalue)
  have hne : ∀ r ∈ first :: others, r.name ≠ config.output := fun r hr he =>
    hfresh (List.mem_map.2 ⟨r, hr, he⟩)
  have hkept := h.derives hderives hout
  rw [Product.references_ofFactors] at hkept
  obtain ⟨hd, hrestored⟩ := hkept hne
  have hwf : g'.IsWellFormed := h.writesOnly.isWellFormed
  have hrefs : ∀ r ∈ first :: others, g'.IsTraced r.name (g.inputMatrix config r.name) :=
    fun r hr => (hrestored r hr).isTraced (hcells r hr)
  have hbare : ∀ r ∈ first :: others, ∀ i j x, ¬g'.DerivesFrom r.name i j x := fun r hr i j x =>
    (hrestored r hr).not_derivesFrom
  refine ⟨P, hP, hholds, fun p r hp => ?_, fun i j z hz => ⟨fun hij => ⟨fun p r hp a b x hx => ?_,
    fun r hr a b x hx => ?_⟩, fun hlen hij => ?_⟩⟩
  · have hr := (hrefs r (List.mem_of_getElem? hp)).holds
    have hinst := (hd.getElem? hp).1.holds hr
    rw [Int.zero_add] at hinst
    exact ⟨hr, hinst⟩
  · have hne : instanceName r.name p ≠ config.output := fun he =>
      hout.1 (he ▸ at_mem_instanceName r.name p)
    rw [hd.mem_allDependencies_iff hwf hrefs hbare hpublic hP hcopy hz hij
      (isOriginal_instanceName r.name p) hne hx]
    have hfirst : (first :: others).length = 1 → p = 0 ∧ r = first := by
      intro hlen
      have hlt := (List.getElem?_eq_some_iff.1 hp).1
      obtain rfl : p = 0 := by omega
      exact ⟨rfl, (Option.some.inj hp).symm⟩
    refine and_congr (not_congr ⟨?_, ?_⟩) ⟨?_, fun huses => ⟨p, r, hp, huses, .inl rfl⟩⟩
    · rintro ⟨rfl, ht, -⟩
      obtain ⟨rfl, rfl⟩ := hfirst rfl
      exact ⟨rfl, ht⟩
    · rintro ⟨hlen, ht⟩
      obtain ⟨rfl, rfl⟩ := hfirst hlen
      exact ⟨List.length_eq_zero_iff.1 (Nat.succ.inj hlen), ht, rfl⟩
    · rintro ⟨q, s, hq, huses, he | he⟩
      · obtain rfl : p = q := Int.ofNat.inj (instanceName_inj.1 he).2
        obtain rfl : r = s := Option.some.inj (hp.symm.trans hq)
        exact huses
      · exact absurd (he ▸ at_mem_instanceName r.name p) (hpublic s (List.mem_of_getElem? hq)).1
  · have hinst (other : Text) (k : Int) : r.name ≠ instanceName other k := fun he =>
      (hpublic r hr).1 (he ▸ at_mem_instanceName other k)
    rw [hd.mem_allDependencies_iff hwf hrefs hbare hpublic hP hcopy hz hij
      (hpublic r hr).isOriginal (hne r hr) hx, and_iff_right fun h => hinst _ _ h.2.2]
    refine exists_congr fun p => exists_congr fun s => and_congr_right fun _ => ?_
    rw [or_iff_right (hinst s.name p), and_comm, eq_comm]
  · have hothers : others ≠ [] := by
      rintro rfl
      exact absurd hlen (by simp)
    refine allDependencies_eq_singleton fun x => ?_
    have hiff : x ∈ g'.allDependencies z ↔ _ := mem_allDependencies_iff hwf
      (hcopy.isTraced hwf.toIsMinted (hd.isTraced hwf.toIsMinted hrefs hP)) hz
    rw [HandsOn, derivesFrom_output_iff hwf.toIsMinted hcopy, hz, Option.some.injEq,
      or_iff_left (hd.not_derivesFrom hwf.toIsMinted hrefs hP hothers hij), eq_comm] at hiff
    exact hiff

/-- The recompute ends without an obstacle and without issues. -/
def succeeds (plan : Plan) (config : Config) (g : Graph) : Bool :=
  match recompute plan config g with
  | .ok o _ => o.isOk
  | .error _ _ => false

theorem recompute_of_succeeds {plan : Plan} (h : succeeds plan config g = true) :
    ∃ o, recompute plan config g = .ok o (after (recompute plan config) g) ∧ o.isOk = true := by
  rw [succeeds] at h
  rw [after]
  cases hr : recompute plan config g with
  | ok o g' =>
    rw [hr] at h
    exact ⟨o, rfl, h⟩
  | error e g' =>
    rw [hr] at h
    cases h

/-- A graph for the plan `A*B^T*A` in which the second cells of both matrices are zero. -/
def sparseGraph : Graph :=
  runAll "elem" [.initMatrix "A" 1 2, .update "A" 0 0 (.int 2) none none none,
    .initMatrix "B" 1 2, .update "B" 0 0 (.int 3) none none none]

/-- In `A*B^T*A` of rows of two whose second cells are zero, the first output cell derives from the
first cell of the first instance of `A` and not from the second one, and the second output cell from
nothing. -/
theorem recompute_lineage_sample : ∃ o g' z z' x y,
    recompute (.simple samplePlan) sampleConfig sparseGraph = .ok o g' ∧ o.isOk = true ∧
      g'.idAt? "O" 0 0 = some z ∧ g'.idAt? "O" 0 1 = some z' ∧
      g'.idAt? (instanceName "A" 0) 0 0 = some x ∧ g'.idAt? (instanceName "A" 0) 0 1 = some y ∧
      x ∈ g'.allDependencies z ∧ y ∉ g'.allDependencies z ∧ g'.allDependencies z' = [z'] := by
  have hread : Plan.read "A*B^T*A" = .ok (.simple samplePlan) := by decide +kernel
  have hconfig : Config.make "O" (.int 1) [("A", .int 1, .int 2), ("B", .int 1, .int 2)] (.int 3)
      (.int 3) (.int 50) (.int 50) = .ok sampleConfig := rfl
  obtain ⟨o, g', hrun, hlineage⟩ := recompute_lineage (g := sparseGraph) hread
    (List.cons_ne_nil _ _) (by decide) hconfig (by decide +kernel) (by decide) (by decide)
    ⟨"elem", _, rfl⟩ (by decide +kernel)
  obtain ⟨hsucceeds, hz, hz', hx, hy⟩ : succeeds (.simple samplePlan) sampleConfig sparseGraph ∧
      (after (recompute (.simple samplePlan) sampleConfig) sparseGraph).idAt? "O" 0 0 =
        some "elem_15" ∧
      (after (recompute (.simple samplePlan) sampleConfig) sparseGraph).idAt? "O" 0 1 =
        some "elem_16" ∧
      (after (recompute (.simple samplePlan) sampleConfig) sparseGraph).idAt?
        (instanceName "A" 0) 0 0 = some "elem_4" ∧
      (after (recompute (.simple samplePlan) sampleConfig) sparseGraph).idAt?
        (instanceName "A" 0) 0 1 = some "elem_5" := by decide +kernel
  obtain ⟨o', hrun', hok⟩ := recompute_of_succeeds hsucceeds
  rw [hrun] at hrun'
  cases hrun'
  obtain ⟨P, hP, -, -, hall⟩ := hlineage hok
  have hentries : (IntMatrix.product?
      (samplePlan.factors.map (sparseGraph.factorMatrix sampleConfig))).map
        (fun P => (P.get 0 0, P.get 0 1)) = some (12, 0) := by decide +kernel
  rw [hP, Option.map_some, Option.some.injEq, Prod.mk.injEq] at hentries
  obtain ⟨hfirst, -⟩ := (hall 0 0 _ hz).1 (by rw [hentries.1]; decide)
  refine ⟨o, _, _, _, _, _, hrun, hok, hz, hz', hx, hy, (hfirst 0 _ rfl 0 0 _ hx).2 ⟨by decide, ?_⟩,
    fun hy' => ?_, (hall 0 1 _ hz').2 (by decide) hentries.2⟩
  · have hnonzero : ∀ M ∈ samplePlan.factors.map (sparseGraph.factorMatrix sampleConfig),
        M.get 0 0 ≠ 0 := by decide +kernel
    exact ⟨fun _ => 0, rfl, rfl, fun p M hp => hnonzero M (List.mem_of_getElem? hp), rfl, rfl⟩
  · obtain ⟨-, k, -, -, hk, h₀, h₁⟩ := (hfirst 0 _ rfl 0 1 _ hy).1 hy'
    have hA := hk 0 _ rfl
    rw [h₀, h₁] at hA
    exact hA (by decide +kernel)

/-! ### Where the lineage is not exact -/

/-- The plan of `A`. -/
def singlePlan : SimplePlan where
  factors := [⟨"A", .absent, false, 0⟩]
  fault? := none
  text := "A"

def singleConfig : Config :=
  ⟨"O", some 1, [("A", 1, 1)], (1, 1)⟩

def singleGraph : Graph :=
  runAll "elem" [.initMatrix "A" 1 1, .update "A" 0 0 (.int 1) none none none]

open IntMatrix in
/-- **The lineage is not exact for all formulas.** For a single matrix that is not transposed the
cell of its instance that the only term takes is not in the lineage of the output. And a factor with
a relative index may read the output, whose cells then stay in use when they are overwritten: here a
cell of the instance is in the lineage of an entry none of whose terms takes it. -/
theorem lineage_not_exact :
    (Plan.read "A" = .ok (.simple singlePlan) ∧
      Config.make "O" (.int 1) [("A", .int 1, .int 1)] (.int 1) (.int 1) (.int 50) (.int 50) =
        .ok singleConfig ∧
      (Plan.simple singlePlan).obstacle? singleConfig.output = none ∧ singleGraph.IsReachable ∧
      (∀ r ∈ singlePlan.factors, singleGraph.IsTraceable singleConfig r.name) ∧
      ∃ o g' z x, recompute (.simple singlePlan) singleConfig singleGraph = .ok o g' ∧
        o.isOk = true ∧ g'.idAt? "O" 0 0 = some z ∧ (g'.cell z).value.isNonzero = true ∧
        g'.idAt? (instanceName "A" 0) 0 0 = some x ∧
        Uses (singlePlan.factors.map (singleGraph.factorMatrix singleConfig)) 0 0 0 0 0 ∧
        x ∉ g'.allDependencies z) ∧
    (Plan.read "A_n*B" = .ok (.simple overwritingPlan) ∧
      Config.make "A" (.int 1) [("A", .int 1, .int 2), ("B", .int 2, .int 2)] (.int 1) (.int 1)
        (.int 50) (.int 50) = .ok overwritingConfig ∧
      (Plan.simple overwritingPlan).obstacle? overwritingConfig.output = none ∧
      overwritingGraph.IsReachable ∧
      (∀ r ∈ overwritingPlan.factors, overwritingGraph.IsTraceable overwritingConfig r.name) ∧
      ∃ o g' z x,
        recompute (.simple overwritingPlan) overwritingConfig overwritingGraph = .ok o g' ∧
        o.isOk = true ∧ g'.idAt? "A" 0 0 = some z ∧ (g'.cell z).value.isNonzero = true ∧
        g'.idAt? (instanceName "A" 0) 0 0 = some x ∧
        ¬Uses (overwritingPlan.factors.map (overwritingGraph.factorMatrix overwritingConfig))
          0 0 0 0 0 ∧ x ∈ g'.allDependencies z) := by
  constructor
  · set g' := after (recompute (.simple singlePlan) singleConfig) singleGraph with hg'
    -- no edge leads out of the output cell and the cell of `A`
    obtain ⟨hsucceeds, hz, hvalue, hx, hclosed⟩ :
        succeeds (.simple singlePlan) singleConfig singleGraph ∧ g'.idAt? "O" 0 0 = some "elem_2" ∧
        (g'.cell "elem_2").value.isNonzero = true ∧
        g'.idAt? (instanceName "A" 0) 0 0 = some "elem_1" ∧
        ∀ a ∈ ["elem_2", "elem_0"], ∀ b ∈ (g'.cell a).dependencies, b ∈ ["elem_2", "elem_0"] := by
      rw [hg']
      decide +kernel
    obtain ⟨o, hrun, hok⟩ := recompute_of_succeeds hsucceeds
    refine ⟨by decide +kernel, rfl, by decide +kernel, ⟨"elem", _, rfl⟩, by decide +kernel, o, g',
      _, _, hrun, hok, hz, hvalue, hx, (uses_singleton Nat.one_pos).2 ⟨rfl, rfl, by decide +kernel⟩,
      fun hmem => ?_⟩
    have hmem : "elem_1" ∈ ["elem_2", "elem_0"] :=
      allDependencies_induction List.mem_cons_self hclosed hmem
    exact absurd hmem (by decide)
  · have hg := isReachable_overwritingGraph
    have hwf := (edits_recompute (.simple overwritingPlan) overwritingConfig
      overwritingGraph).isWellFormed hg.isWellFormed
    set g' := after (recompute (.simple overwritingPlan) overwritingConfig) overwritingGraph
      with hg'
    -- the output cell derives from a cell that was itself overwritten
    obtain ⟨hsucceeds, hz, hvalue, hx, hmem, hfirst, hsecond⟩ :
        succeeds (.simple overwritingPlan) overwritingConfig overwritingGraph ∧
        g'.idAt? "A" 0 0 = some "elem_0" ∧
        (g'.cell "elem_0").value.isNonzero = true ∧
        g'.idAt? (instanceName "A" 0) 0 0 = some "elem_6" ∧ "elem_0" ∈ g'.nodes ∧
        "elem_1" ∈ (g'.cell "elem_0").dependencies ∧
        "elem_6" ∈ (g'.cell "elem_1").dependencies := by
      rw [hg']
      decide +kernel
    obtain ⟨o, hrun, hok⟩ := recompute_of_succeeds hsucceeds
    refine ⟨by decide +kernel, rfl, by decide +kernel, hg, by decide +kernel, o, g', _, _, hrun,
      hok, hz, hvalue, hx, ?_, ?_⟩
    · rintro ⟨k, -, h₂, hk, -, h₁⟩
      have hB := hk 1 _ rfl
      have h₂ : k (1 + 1) = 0 := h₂
      rw [h₁, h₂] at hB
      exact hB (by decide +kernel)
    · have hfirst := mem_allDependencies_of_mem hwf (self_mem_allDependencies hmem) hfirst
      exact mem_allDependencies_of_mem hwf hfirst hsecond

end Graph

end CellLineage
