import CellLineage.Proofs.Evaluation.Descent
import CellLineage.Proofs.Recompute.Lineage

/-!
# What the output of a product derives from

For any factors, with negative entries and identity cells among them, the lineage of an output cell
can be read off the input: of the cell at a place of an input matrix one knows which entries of the
factors are copies of it, and then, by products, which entries of the whole product descend from it
(`Graph.Descends`).

The output may be one of the factors, if that has a relative index. If it has the shape of the
result, the result is written onto the input cells, and what the output derives from then leads on
from one output cell to others (`Graph.Leads`).

## Main definitions

* `Graph.origins`: where the cells of some matrices stand that are in the lineage of a cell.
* `Graph.factorDescent`, `Graph.Descends`: which entries descend from a cell of the input.
* `Graph.Stems`: which places a cell of the output stems from.

## Main results

* `Graph.Derives.realizes`: what the result of a derivation feeds.
* `Graph.mem_allDependencies_iff_leads`: the search from a cell of the output.
* `Graph.IsSimpleRun.mem_origins_iff`: the lineage of the output, by the input.
-/

namespace CellLineage

open Formula Relation

/-- Where the cell was made to stand. -/
def Cell.place (c : Cell) : Text × Int × Int :=
  (c.matrix, c.row, c.col)

namespace Descent

/-- A product descends from a cell only if a factor does. -/
theorem exists_descends_of_product? {Ss : List Descent} {P : Descent} {i j : Nat}
    (hP : product? Ss = some P) (h : P.descends i j) : ∃ S ∈ Ss, ∃ u v, S.descends u v := by
  induction Ss using List.reverseRecOn generalizing P i j with
  | nil => cases hP
  | append_singleton Ss T ih =>
    by_cases hne : Ss = []
    · subst hne
      cases hP
      exact ⟨_, List.mem_cons_self, i, j, h⟩
    · rw [product?_concat hne] at hP
      obtain ⟨Q, hQ, hP⟩ := Option.bind_eq_some_iff.1 hP
      obtain ⟨M, -, rfl⟩ := Option.map_eq_some_iff.1 hP
      obtain ⟨m, -, -, h | h⟩ := h
      · obtain ⟨S, hS, huv⟩ := ih hQ h
        exact ⟨S, List.mem_append_left _ hS, huv⟩
      · exact ⟨T, by simp, m, j, h⟩

end Descent

namespace Graph

variable {before g g' : Graph} {config : Config} {name source target output : Text}
  {i j a b : Nat} {x z : CellId} {first : Reference} {others factors : List Reference} {o : Int}
  {m : Nat} {P : IntMatrix} {S T : Descent}

/-- The places of the cells of some matrices that are in the lineage of a cell. -/
def origins (g : Graph) (names : List Text) (output : Text) (i j : Nat) :
    Set (Text × Int × Int) :=
  {c | c.1 ∈ names ∧ ∃ z x, g.idAt? output i j = some z ∧ x ∈ g.allDependencies z ∧
    (g.cell x).place = c}

/-- A cell that stands in a matrix was made to stand there. -/
theorem IsMinted.place_eq (hg : g.IsMinted) (hx : g.idAt? name a b = some x) :
    (g.cell x).place = (name, (a : Int), (b : Int)) := by
  obtain ⟨c, hc, ha, hb, rfl⟩ := Graph.idAt?_eq_some_iff.1 hx
  obtain ⟨hname, hrow, hcol⟩ := hg.place hc ha hb
  rw [Cell.place, hname, hrow, hcol]

/-! ### Identity marks -/

theorem IsCopyOf.identityAt_eq {withSelf : Bool} (h : g.IsCopyOf withSelf source target)
    (i j : Nat) : g.identityAt target i j = g.identityAt source i j := by
  obtain ⟨s, t, hs, ht, hr, hc, hcells⟩ := h
  by_cases hij : i < s.rows ∧ j < s.cols
  · rw [identityAt_of_lt ht (hr ▸ hij.1) (hc ▸ hij.2), identityAt_of_lt hs hij.1 hij.2]
    exact (hcells i j hij.1 hij.2).isIdentity
  · have hij' : ¬(i < t.rows ∧ j < t.cols) := by rwa [hr, hc]
    rw [identityAt, identityAt, cellAt?_of_not_lt hs hij, cellAt?_of_not_lt ht hij']

theorem IsTransposeOf.identityAt_eq (h : g.IsTransposeOf source target) (i j : Nat) :
    g.identityAt target i j = g.identityAt source j i := by
  obtain ⟨s, t, hs, ht, hr, hc, hcells⟩ := h
  by_cases hij : j < s.rows ∧ i < s.cols
  · rw [identityAt_of_lt ht (hr ▸ hij.2) (hc ▸ hij.1), identityAt_of_lt hs hij.1 hij.2]
    exact (hcells j i hij.1 hij.2).isIdentity
  · have hij' : ¬(i < t.rows ∧ j < t.cols) := by
      rw [hr, hc]
      exact fun h => hij h.symm
    rw [identityAt, identityAt, cellAt?_of_not_lt hs hij, cellAt?_of_not_lt ht hij']

/-- An entry of a factor is marked as the cell it is a copy of. -/
theorem Derives.identityAt_eq {r : Reference} (h : g.Derives (.single r) o m) (u v : Nat) :
    g.identityAt ((Product.single r).resultName o m) u v =
      g.identityAt r.name (r.place u v).1 (r.place u v).2 := by
  rw [Product.resultName, Reference.place]
  cases ht : r.transposed with
  | false =>
    rw [if_neg Bool.false_ne_true, if_neg Bool.false_ne_true]
    exact h.1.identityAt_eq u v
  | true =>
    rw [if_pos rfl, if_pos rfl]
    exact ((h.2 ht).identityAt_eq u v).trans (h.1.identityAt_eq v u)

/-! ### What the factors feed -/

/-- What a factor stands for, and which of its entries descend from the cell at a place of an input
matrix: those that are copies of it, unless it is an identity cell. -/
def factorDescent (g : Graph) (config : Config) (name : Text) (a b : Nat) (r : Reference) :
    Descent :=
  ⟨g.factorMatrix config r, fun u v => (r.name = name ∧ r.place u v = (a, b)) ∧
    (a < (g.inputShape config name).1 ∧ b < (g.inputShape config name).2) ∧
      g.identityAt name a b = false⟩

/-- The entry of the product of the factors descends from the cell at a place of an input matrix. -/
def Descends (g : Graph) (config : Config) (factors : List Reference) (i j : Nat) (name : Text)
    (a b : Nat) : Prop :=
  ∃ T, Descent.product? (factors.map (g.factorDescent config name a b)) = some T ∧ T.descends i j

/-- The descents of the factors have a product if their matrices have. -/
theorem exists_product?_factorDescent
    (hP : IntMatrix.product? (factors.map (g.factorMatrix config)) = some P) (name : Text)
    (a b : Nat) : ∃ T, Descent.product? (factors.map (g.factorDescent config name a b)) = some T ∧
      T.matrix = P := by
  have hmatrix := Descent.matrix_product? (factors.map (g.factorDescent config name a b))
  rw [List.map_map] at hmatrix
  exact Option.map_eq_some_iff.1 (hmatrix.trans hP)

theorem Descends.exists_factor (h : g.Descends config factors i j name a b) :
    (∃ r ∈ factors, r.name = name) ∧ a < (g.inputShape config name).1 ∧
      b < (g.inputShape config name).2 := by
  obtain ⟨T, hT, hd⟩ := h
  obtain ⟨S, hS, u, v, hentry⟩ := Descent.exists_descends_of_product? hT hd
  obtain ⟨r, hr, rfl⟩ := List.mem_map.1 hS
  obtain ⟨⟨hname, -⟩, hab, -⟩ := hentry
  exact ⟨⟨r, hr, hname⟩, hab⟩

/-- The matrix of the name holds what the descent says, feeds the cell `x` from the entries that it
says, and its lineage is complete. -/
structure Realizes (g : Graph) (name : Text) (x : CellId) (T : Descent) : Prop
    extends IsComplete g name where
  holds : g.Holds name T.matrix
  feedsFrom_iff : ∀ i j, g.FeedsFrom name i j x ↔ T.descends i j

/-- A factor feeds the cells that its entries are copies of. -/
theorem Derives.realizes_single (hg : g.IsMinted) {r : Reference} (h : g.Derives (.single r) o m)
    (hr : before.RestoredFrom g r.name (before.inputShape config r.name))
    (hint : before.IsIntegral config r.name) (hname : IsPublic name)
    (hx : g.idAt? name a b = some x) :
    g.Realizes ((Product.single r).resultName o m) x (before.factorDescent config name a b r) := by
  have hinput : g.IsComplete r.name :=
    ⟨fun hx _ => absurd hx hr.not_derivesFrom, fun hx => absurd hx hr.not_derivesFrom⟩
  have hinst := h.1.isComplete hg hinput
  have hM : g.Holds r.name (before.inputMatrix config r.name) := hr.holds hint
  have htrans : ∀ i j : Nat, g.idAt? (transposeName (instanceName r.name o)) i j ≠ some x :=
    fun i j he =>
      hname.1 ((hg.idAt?_inj he hx).1 ▸ at_mem_transposeName (at_mem_instanceName r.name o))
  have hnot : ∀ i j : Nat, g.idAt? (instanceName r.name o) i j ≠ some x := fun i j he =>
    hname.1 ((hg.idAt?_inj he hx).1 ▸ at_mem_instanceName r.name o)
  have hhands (u v : Nat) : g.HandsOn ((Product.single r).resultName o m) u v x ↔
      r.name = name ∧ r.place u v = (a, b) := by
    rw [h.handsOn_single_iff hg (fun _ _ _ => hr.not_derivesFrom) htrans, or_iff_right (hnot _ _),
      hg.idAt?_eq_some_iff hx, eq_comm, Prod.ext_iff, @eq_comm _ a, @eq_comm _ b]
  obtain ⟨hholds, hcomplete⟩ :
      g.Holds ((Product.single r).resultName o m) (before.factorMatrix config r) ∧
        g.IsComplete ((Product.single r).resultName o m) := by
    rw [factorMatrix, Product.resultName]
    cases ht : r.transposed with
    | true =>
      rw [if_pos rfl, if_pos rfl]
      exact ⟨(h.2 ht).holds (h.1.holds hM), (h.2 ht).isComplete hg hinst⟩
    | false =>
      rw [if_neg Bool.false_ne_true, if_neg Bool.false_ne_true]
      exact ⟨h.1.holds hM, hinst⟩
  refine ⟨hcomplete, hholds, fun u v => ?_⟩
  rw [FeedsFrom, hhands, h.identityAt_eq, factorDescent, and_comm]
  refine and_congr_right fun hfactor => ?_
  obtain ⟨hrname, hplace⟩ := hfactor
  -- the cell stands in the input matrix, inside of its shape
  obtain ⟨c, hc, hshape, hcells⟩ := hr
  subst hrname
  obtain ⟨ha, hb⟩ := lt_of_idAt? hx hc
  rw [hplace, identityAt_of_lt hc ha hb, (hcells a b ha hb).2.1, ← hshape]
  exact (and_iff_right ⟨ha, hb⟩).symm

/-- A product feeds what its factors feed. -/
theorem IsProductOf.realizes (hg : g.IsMinted) {left right : Text}
    (h : g.IsProductOf false left right target) (hl : g.Realizes left x S)
    (hr : g.Realizes right x T) {Q : Descent} (hQ : S.times? T = some Q)
    (hx : ∀ i j : Nat, g.idAt? target i j ≠ some x) : g.Realizes target x Q := by
  obtain ⟨P, hP, rfl⟩ := Option.map_eq_some_iff.1 hQ
  refine ⟨h.isComplete hg hl.holds hr.holds hl.toIsComplete hr.toIsComplete,
    h.holds hl.holds hr.holds hP, fun i j => ?_⟩
  rw [FeedsFrom, HandsOn, or_iff_right (hx i j), and_iff_right_of_imp h.identityAt_eq_false,
    h.derivesFrom_iff_feedsFrom hg hl.holds hr.holds]
  refine exists_congr fun m => and_congr_right fun _ => and_congr_right fun _ => ?_
  rw [hl.feedsFrom_iff, hr.feedsFrom_iff]

/-- **What the result of a derivation feeds.** The induction is on the factors from the last one,
as they are multiplied. -/
theorem Derives.realizes (hg : g.IsMinted) (h : g.Derives (.ofFactors first others) o m)
    (hrefs : ∀ r ∈ first :: others,
      before.RestoredFrom g r.name (before.inputShape config r.name) ∧
        before.IsIntegral config r.name)
    (hname : IsPublic name) (hx : g.idAt? name a b = some x)
    (hT : Descent.product? ((first :: others).map (before.factorDescent config name a b)) =
      some T) :
    g.Realizes ((Product.ofFactors first others).resultName o m) x T := by
  induction others using List.reverseRecOn generalizing T with
  | nil =>
    cases hT
    obtain ⟨hr, hint⟩ := hrefs first List.mem_cons_self
    exact h.realizes_single hg hr hint hname hx
  | append_singleton others s ih =>
    have hP := Descent.matrix_product? ((first :: (others ++ [s])).map
      (before.factorDescent config name a b))
    rw [hT, Option.map_some, List.map_map] at hP
    obtain ⟨-, -, -, hp, hs, hprod⟩ := h.of_concat hP.symm
    rw [← List.cons_append] at hrefs hT
    rw [List.map_append, List.map_singleton,
      Descent.product?_concat (List.map_eq_nil_iff.not.2 (List.cons_ne_nil _ _))] at hT
    obtain ⟨Q, hQ, hT⟩ := Option.bind_eq_some_iff.1 hT
    obtain ⟨hr, hint⟩ := hrefs s (by simp)
    refine hprod.realizes hg (ih hp (fun r hr => hrefs r (List.mem_append_left _ hr)) hQ)
      (hs.realizes_single hg hr hint hname hx) hT fun i j he => ?_
    -- the cell is public, and the product is an intermediate result
    rw [Product.ofFactors_concat] at he
    have he := (hg.idAt?_inj hx he).1
    exact (hname.isSettled o m).ne_temporaryName _ (by simp only [Product.steps]; omega) he

/-! ### The search from the output -/

/-- A cell of the matrix derives from another one of it. -/
def Leads (g : Graph) (output : Text) (p q : Nat × Nat) : Prop :=
  ∃ x, g.idAt? output q.1 q.2 = some x ∧ g.DerivesFrom output p.1 p.2 x

/-- **The search from a cell of a matrix** whose lineage is complete but for what the cells of the
matrix itself derive from. It finds what the cells derive from that can be reached in the matrix. -/
theorem mem_allDependencies_iff_leads (hg : g.IsWellFormed)
    (hclosed : ∀ {i j : Nat} {x y : CellId}, g.DerivesFrom output i j x →
      (∀ k l : Nat, g.idAt? output k l ≠ some x) → y ∈ (g.cell x).dependencies →
        g.DerivesFrom output i j y)
    (hz : g.idAt? output i j = some z) : x ∈ g.allDependencies z ↔
      x = z ∨ ∃ q, ReflTransGen (g.Leads output) (i, j) q ∧ g.DerivesFrom output q.1 q.2 x := by
  constructor
  · refine allDependencies_induction (p := fun x => x = z ∨
      ∃ q, ReflTransGen (g.Leads output) (i, j) q ∧ g.DerivesFrom output q.1 q.2 x) (.inl rfl)
      fun c hc y hy => ?_
    rcases hc with rfl | ⟨q, hq, hc⟩
    · exact .inr ⟨(i, j), .refl, c, hz, hy⟩
    · by_cases hout : ∃ k l : Nat, g.idAt? output k l = some c
      · obtain ⟨k, l, hkl⟩ := hout
        exact .inr ⟨(k, l), hq.tail ⟨c, hkl, hc⟩, c, hkl, hy⟩
      · exact .inr ⟨q, hq, hclosed hc (fun k l hkl => hout ⟨k, l, hkl⟩) hy⟩
  · have hself : z ∈ g.allDependencies z := by
      obtain ⟨b, hb, hi, hj, rfl⟩ := idAt?_eq_some_iff.1 hz
      exact self_mem_allDependencies (hg.idAt_mem hb hi hj)
    have hreached {q : Nat × Nat} (hq : ReflTransGen (g.Leads output) (i, j) q) :
        ∃ w, g.idAt? output q.1 q.2 = some w ∧ w ∈ g.allDependencies z := by
      induction hq with
      | refl => exact ⟨z, hz, hself⟩
      | tail _ hlead ih =>
        obtain ⟨w, hw, hmem⟩ := ih
        obtain ⟨y, hy, w', hw', hdep⟩ := hlead
        obtain rfl := Option.some.inj (hw.symm.trans hw')
        exact ⟨y, hy, mem_allDependencies_of_mem hg hmem hdep⟩
    rintro (rfl | ⟨q, hq, w, hw, hx⟩)
    · exact hself
    · obtain ⟨w', hw', hmem⟩ := hreached hq
      obtain rfl := Option.some.inj (hw.symm.trans hw')
      exact mem_allDependencies_of_mem hg hmem hx

/-! ### The output -/

/-- The cell of the output at `q` is written onto a cell of the input that the entry at `p` descends
from. -/
def ReadsBack (g : Graph) (config : Config) (factors : List Reference) (shape : Nat × Nat)
    (p q : Nat × Nat) : Prop :=
  g.inputShape config config.output = shape ∧
    g.Descends config factors p.1 p.2 config.output q.1 q.2

/-- The place is that of the cell of the output itself, or the cell there descends from it, or from
a cell of the output that does. -/
def Stems (g : Graph) (config : Config) (factors : List Reference) (shape : Nat × Nat) (i j : Nat)
    (name : Text) (a b : Nat) : Prop :=
  (name = config.output ∧ a = i ∧ b = j) ∨
    ∃ q, ReflTransGen (g.ReadsBack config factors shape) (i, j) q ∧
      g.Descends config factors q.1 q.2 name a b

theorem RestoredFrom.exists_idAt? {shape : Nat × Nat} (h : before.RestoredFrom g name shape)
    (ha : a < shape.1) (hb : b < shape.2) : ∃ x, g.idAt? name a b = some x := by
  obtain ⟨c, hc, rfl, -⟩ := h
  exact ⟨_, idAt?_of_lt hc ha hb⟩

theorem RestoredFrom.shape?_eq {shape : Nat × Nat} (h : before.RestoredFrom g name shape) :
    g.shape? name = some shape := by
  obtain ⟨c, hc, hshape, -⟩ := h
  rw [shape?, hc, Option.map_some, hshape]

theorem Keeps.derivesFrom_iff (h : g.Keeps g' name) :
    g'.DerivesFrom name i j x ↔ g.DerivesFrom name i j x := by
  cases hb : g.matrices[name]? with
  | none =>
    have hb' : g'.matrices[name]? = none := h.matrices.trans hb
    rw [DerivesFrom, DerivesFrom, idAt?_of_missing hb, idAt?_of_missing hb']
    simp
  | some c =>
    have hb' : g'.matrices[name]? = some c := h.matrices.trans hb
    by_cases hij : i < c.rows ∧ j < c.cols
    · rw [Graph.derivesFrom_iff hb hij.1 hij.2, Graph.derivesFrom_iff hb' hij.1 hij.2,
        h.coreAt hb hij.1 hij.2]
    · exact iff_of_false (fun hx => hij (hx.lt hb')) fun hx => hij (hx.lt hb)

/-- A product of two factors or more is an intermediate result, and an entry of it that derives from
something is no identity cell. -/
theorem Derives.feedsFrom_iff (h : g.Derives (.ofFactors first others) o m) (hne : others ≠ [])
    (hx : ∀ k (i j : Nat), g.idAt? (temporaryName k) i j ≠ some x) :
    g.FeedsFrom ((Product.ofFactors first others).resultName o m) i j x ↔
      g.DerivesFrom ((Product.ofFactors first others).resultName o m) i j x := by
  obtain ⟨others, s, rfl⟩ : ∃ rs r, others = rs ++ [r] :=
    ⟨_, _, (List.dropLast_append_getLast hne).symm⟩
  rw [Product.ofFactors_concat] at h ⊢
  have hself : ¬g.idAt? ((Product.times (.ofFactors first others) (.single s)).resultName o m)
      i j = some x := hx _ i j
  rw [FeedsFrom, HandsOn, or_iff_right hself]
  exact and_iff_right_of_imp h.2.2.1.identityAt_eq_false

section Run

variable {names : List Text} {out : Outcome} {g₁ : Graph}
  (h : IsSimpleRun before config names (.ofFactors first others) out g₁ g) (hne : others ≠ [])
  (hint : ∀ r ∈ first :: others, before.IsIntegral config r.name)
  (hP : IntMatrix.product? ((first :: others).map (before.factorMatrix config)) = some P)
  (hvalue : ((Product.ofFactors first others).value (before.inputs config names)).1 = some P)

include h hint in
theorem IsSimpleRun.restored_of_mem {r : Reference} (hr : r ∈ first :: others) :
    before.RestoredFrom g₁ r.name (before.inputShape config r.name) ∧
      before.IsIntegral config r.name :=
  ⟨h.restored r (by rwa [Product.references_ofFactors]), hint r hr⟩

include h hne hint hP hvalue in
/-- Before the result is put into the output, it derives from the input as the factors say. -/
theorem IsSimpleRun.derivesFrom_iff (hname : IsPublic name) (hx : g₁.idAt? name a b = some x) :
    g₁.DerivesFrom ((Product.ofFactors first others).resultName 0 0) i j x ↔
      before.Descends config (first :: others) i j name a b := by
  have hg := h.isWellFormed.toIsMinted
  have hd := (h.of_value_eq_some hvalue).2.1
  obtain ⟨T, hT, -⟩ := exists_product?_factorDescent hP name a b
  have hreal := hd.realizes hg (fun r hr => h.restored_of_mem hint hr) hname hx hT
  have htemp : ∀ k (i j : Nat), g₁.idAt? (temporaryName k) i j ≠ some x := fun k i j he =>
    hname.2 ((hg.idAt?_inj hx he).1 ▸ List.prefix_append ..)
  rw [← hd.feedsFrom_iff hne htemp, hreal.feedsFrom_iff]
  refine ⟨fun hT' => ⟨T, hT, hT'⟩, ?_⟩
  rintro ⟨T', hT', hd'⟩
  obtain rfl := Option.some.inj (hT.symm.trans hT')
  exact hd'

include h hvalue in
/-- Putting the result into the output writes the cells of the output only. -/
theorem IsSimpleRun.frame (hx : x ∈ g₁.nodes) :
    (∀ k l : Nat, g.idAt? config.output k l = some x ↔
      g₁.shape? config.output = some P.shape ∧ g₁.idAt? config.output k l = some x) ∧
    ((∀ k l : Nat, g.idAt? config.output k l ≠ some x) → g.core x = g₁.core x) := by
  have hd := (h.of_value_eq_some hvalue).2.1
  have hholds := hd.holds (fun r hr => h.represents r hr) hvalue
  exact store_frame h.isWellFormed hholds.1 (h.store_eq hvalue) hx

include h hvalue in
/-- Putting the result into the output moves no cell. -/
theorem IsSimpleRun.place_eq (hx : g₁.idAt? name a b = some x) :
    (g.cell x).place = (name, (a : Int), (b : Int)) := by
  have hg := h.isWellFormed.toIsMinted
  have hmem : x ∈ g₁.nodes := by
    obtain ⟨c, hc, ha, hb, rfl⟩ := idAt?_eq_some_iff.1 hx
    exact hg.idAt_mem hc ha hb
  obtain ⟨hstands, hcore⟩ := h.frame hvalue hmem
  by_cases hout : ∃ k l : Nat, g.idAt? config.output k l = some x
  · obtain ⟨k, l, hkl⟩ := hout
    obtain ⟨rfl, rfl, rfl⟩ := hg.idAt?_inj ((hstands k l).1 hkl).2 hx
    exact h.writesOnly.isWellFormed.place_eq hkl
  · have hplace := congrArg Cell.place (hcore fun k l hkl => hout ⟨k, l, hkl⟩)
    exact hplace.trans (hg.place_eq hx)

include h hvalue in
/-- The output derives from what the result derived from before. -/
theorem IsSimpleRun.derivesFrom_output_iff (hout : IsPublic config.output) :
    g.DerivesFrom config.output i j x ↔
      g₁.DerivesFrom ((Product.ofFactors first others).resultName 0 0) i j x := by
  have hcopy := (h.of_value_eq_some hvalue).2.2.1
  have hne : (Product.ofFactors first others).resultName 0 0 ≠ config.output := fun he =>
    (Product.ofFactors first others).not_isPublic_resultName 0 0 (he ▸ hout)
  rw [Graph.derivesFrom_output_iff h.writesOnly.isWellFormed.toIsMinted hcopy]
  exact (h.writesOnly.keeps _ hne).derivesFrom_iff

include h hint hP hvalue in
/-- Before the result is put into the output, its lineage is complete. -/
theorem IsSimpleRun.isComplete (hfirst : IsPublic first.name) :
    g₁.IsComplete ((Product.ofFactors first others).resultName 0 0) := by
  have hd := (h.of_value_eq_some hvalue).2.1
  -- any cell of the input will do to follow the derivation
  obtain ⟨c, hc, -⟩ := (h.restored_of_mem hint List.mem_cons_self).1
  have hx := idAt?_of_lt hc c.rows_pos c.cols_pos
  obtain ⟨T, hT, -⟩ := exists_product?_factorDescent hP first.name 0 0
  exact (hd.realizes h.isWellFormed.toIsMinted (fun r hr => h.restored_of_mem hint hr) hfirst hx
    hT).toIsComplete

include h hne hint hP hvalue in
/-- From one cell of the output to another one the lineage leads where it is written onto input. -/
theorem IsSimpleRun.leads_eq (hout : IsPublic config.output) :
    g.Leads config.output = before.ReadsBack config (first :: others) P.shape := by
  funext p q
  refine propext ⟨?_, ?_⟩
  · rintro ⟨x, hx, hd⟩
    rw [h.derivesFrom_output_iff hvalue hout] at hd
    obtain ⟨w, hw, hdep⟩ := hd
    obtain ⟨hshape, hx⟩ := ((h.frame hvalue (h.isWellFormed.mem_nodes hdep)).1 q.1 q.2).1 hx
    have hdesc := (h.derivesFrom_iff hne hint hP hvalue hout hx).1 ⟨w, hw, hdep⟩
    obtain ⟨⟨r, hr, hrname⟩, -⟩ := hdesc.exists_factor
    have hrestored := (h.restored_of_mem hint hr).1
    rw [hrname] at hrestored
    exact ⟨Option.some.inj (hrestored.shape?_eq.symm.trans hshape), hdesc⟩
  · rintro ⟨hshape, hdesc⟩
    obtain ⟨⟨r, hr, hrname⟩, ha, hb⟩ := hdesc.exists_factor
    have hrestored := (h.restored_of_mem hint hr).1
    rw [hrname] at hrestored
    obtain ⟨x, hx⟩ := hrestored.exists_idAt? ha hb
    have hd := (h.derivesFrom_iff hne hint hP hvalue hout hx).2 hdesc
    obtain ⟨w, hw, hdep⟩ := id hd
    rw [hshape] at hrestored
    exact ⟨x, ((h.frame hvalue (h.isWellFormed.mem_nodes hdep)).1 q.1 q.2).2
      ⟨hrestored.shape?_eq, hx⟩, (h.derivesFrom_output_iff hvalue hout).2 hd⟩

include h hne hint hP hvalue in
/-- **The lineage of the output.** The places of cells of public names in the lineage of an output
cell are those that the cell stems from. -/
theorem IsSimpleRun.mem_origins_iff (hfirst : IsPublic first.name)
    (hout : IsPublic config.output) {inputs : List Text}
    (hinputs : ∀ name ∈ inputs, IsPublic name) {c : Text × Int × Int} :
    c ∈ g.origins inputs config.output i j ↔ c.1 ∈ inputs ∧ (i < P.rows ∧ j < P.cols) ∧
      ∃ a b : Nat, c.2 = ((a : Int), (b : Int)) ∧
        before.Stems config (first :: others) P.shape i j c.1 a b := by
  have hwf : g.IsWellFormed := h.writesOnly.isWellFormed
  have hcomplete := h.isComplete hint hP hvalue hfirst
  obtain ⟨s, hs, hrow, hcol, -⟩ := holds_iff.1 (h.of_value_eq_some hvalue).2.2.2
  have hclosed {i j : Nat} {x y : CellId} (hx : g.DerivesFrom config.output i j x)
      (hnot : ∀ k l : Nat, g.idAt? config.output k l ≠ some x)
      (hy : y ∈ (g.cell x).dependencies) : g.DerivesFrom config.output i j y := by
    rw [h.derivesFrom_output_iff hvalue hout] at hx ⊢
    obtain ⟨w, hw, hdep⟩ := id hx
    have hcore := (h.frame hvalue (h.isWellFormed.mem_nodes hdep)).2 hnot
    have hdeps := congrArg Cell.dependencies hcore
    exact hcomplete.closed hx (hdeps ▸ hy)
  have hsearch {z x : CellId} (hz : g.idAt? config.output i j = some z) :=
    mem_allDependencies_iff_leads (x := x) hwf hclosed hz
  rw [h.leads_eq hne hint hP hvalue hout] at hsearch
  refine and_congr_right fun hc => ⟨?_, ?_⟩
  · rintro ⟨z, x, hz, hx, rfl⟩
    have hij := lt_of_idAt? hz hs
    rw [hrow, hcol] at hij
    refine ⟨hij, ?_⟩
    rcases (hsearch hz).1 hx with rfl | ⟨q, hq, hd⟩
    · rw [hwf.place_eq hz]
      exact ⟨i, j, rfl, .inl ⟨rfl, rfl, rfl⟩⟩
    · rw [h.derivesFrom_output_iff hvalue hout] at hd
      obtain ⟨other, a, b, hab⟩ := hcomplete.stands hd
      have hplace := h.place_eq hvalue hab
      rw [hplace] at hc ⊢
      exact ⟨a, b, rfl, .inr ⟨q, hq,
        (h.derivesFrom_iff hne hint hP hvalue (hinputs other hc) hab).1 hd⟩⟩
  · obtain ⟨name, k, l⟩ := c
    rintro ⟨hij, a, b, hab, hstems⟩
    cases hab
    have hz : g.idAt? config.output i j = some (g.idAt s i j) :=
      idAt?_of_lt hs (hrow ▸ hij.1) (hcol ▸ hij.2)
    rcases hstems with ⟨rfl, rfl, rfl⟩ | ⟨q, hq, hdesc⟩
    · exact ⟨_, _, hz, (hsearch hz).2 (.inl rfl), hwf.place_eq hz⟩
    · obtain ⟨⟨r, hr, rfl⟩, ha, hb⟩ := hdesc.exists_factor
      obtain ⟨x, hx⟩ := (h.restored_of_mem hint hr).1.exists_idAt? ha hb
      have hd := (h.derivesFrom_iff hne hint hP hvalue (hinputs _ hc) hx).2 hdesc
      exact ⟨_, x, hz, (hsearch hz).2 (.inr ⟨q, hq, (h.derivesFrom_output_iff hvalue hout).2 hd⟩),
        h.place_eq hvalue hx⟩

end Run

end Graph

end CellLineage
