import CellLineage.Proofs.Recompute.Lineage

/-!
# Fully expanded terms

A matrix that was computed has a *definition*: the product that it was computed from. Expanding the
matrix means to replace it by its definition, and the matrices in there by theirs, and so on until
only input matrices are left. A term of an entry is then a product of entries of input matrices, and
`Expands` says which ones these are. It goes through the definitions from the latest to the first,
and each one only reads what comes before it.

If no number is negative, an entry is nonzero exactly if one of its terms is *live*, that is, has no
zero in it. What a derivation in a graph records can be said by such terms: of the cells of the
input matrices a nonzero entry hands on those that occur in a live term (`Graph.HasTerms`). All
operations of an evaluation keep this, so it holds of every matrix that was computed.

## Main definitions

* `Expands`: the fully expanded terms of an entry.
* `IsOrdered`: definitions that only read input and earlier matrices.
* `Graph.HasTerms`: a matrix whose nonzero entries hand on what occurs in their live terms.

## Main results

* `IsOrdered.mem_of_expands`: expanding ends at input matrices.
* `Graph.Derives.hasTerms`: the result of a derivation.
* `Graph.HasTerms.mem_allDependencies_iff`: the lineage of a nonzero cell.
-/

namespace CellLineage

open Formula

/-! ### Expanded terms -/

/-- A position of a matrix. -/
structure Place where
  name : Text
  row : Nat
  col : Nat
  deriving DecidableEq

/-- The places `l` make up a term of an entry of the product, where those of an entry of a factor
are given by `expands`. -/
def Formula.Product.HasTerm (expands : Text → Nat → Nat → List Place → Prop) :
    Product → Nat → Nat → List Place → Prop
  | .single r, i, j, l => expands r.name (r.place i j).1 (r.place i j).2 l
  | .times p q, i, j, l =>
    ∃ m l₁ l₂, p.HasTerm expands i m l₁ ∧ q.HasTerm expands m j l₂ ∧ l = l₁ ++ l₂

/-- The places `l` make up a fully expanded term of an entry of a matrix, by definitions of which
the latest comes first. A matrix without a definition is not expanded. -/
def Expands : Association Product → Text → Nat → Nat → List Place → Prop
  | [], name, i, j, l => l = [⟨name, i, j⟩]
  | (defined, p) :: earlier, name, i, j, l =>
    if name = defined then p.HasTerm (Expands earlier) i j l else Expands earlier name i j l

/-- A matrix that is not defined is an input matrix, and its entries are their own terms. -/
theorem expands_of_notMem {definitions : Association Product} {name : Text}
    (h : name ∉ definitions.names) {i j : Nat} {l : List Place} :
    Expands definitions name i j l ↔ l = [⟨name, i, j⟩] := by
  induction definitions with
  | nil => rfl
  | cons d earlier ih =>
    obtain ⟨hne, hearlier⟩ : name ≠ d.1 ∧ name ∉ Association.names earlier := by
      simpa [Association.names] using h
    rw [Expands, if_neg hne]
    exact ih hearlier

/-- Each definition reads inputs and what was defined before it, and defines something else. -/
def IsOrdered (inputs : List Text) : Association Product → Prop
  | [] => True
  | (defined, p) :: earlier =>
    (defined ∉ inputs ∧ defined ∉ Association.names earlier) ∧
      (∀ r ∈ p.references, r.name ∈ inputs ∨ r.name ∈ Association.names earlier) ∧
      IsOrdered inputs earlier

/-- What a definition reads is input or defined. -/
theorem IsOrdered.mem_of_references {inputs : List Text}
    {definitions : Association Product} (h : IsOrdered inputs definitions)
    {d : Text × Product} (hd : d ∈ definitions) :
    ∀ r ∈ d.2.references, r.name ∈ inputs ∨ r.name ∈ definitions.names := by
  induction definitions with
  | nil => exact absurd hd List.not_mem_nil
  | cons e earlier ih =>
    obtain ⟨-, hreads, hearlier⟩ := h
    intro r hr
    rcases List.mem_cons.1 hd with rfl | hd
    · exact (hreads r hr).imp_right (List.mem_cons_of_mem _)
    · exact (ih hearlier hd r hr).imp_right (List.mem_cons_of_mem _)

/-- What is defined is no input. -/
theorem IsOrdered.notMem_inputs {inputs : List Text} {definitions : Association Product}
    (h : IsOrdered inputs definitions) {name : Text} (hname : name ∈ definitions.names) :
    name ∉ inputs := by
  induction definitions with
  | nil => exact absurd hname List.not_mem_nil
  | cons d earlier ih =>
    obtain ⟨⟨hfresh, -⟩, -, hearlier⟩ := h
    rcases List.mem_cons.1 hname with rfl | hname
    · exact hfresh
    · exact ih hearlier hname

theorem Formula.Product.HasTerm.mem {expands : Text → Nat → Nat → List Place → Prop}
    {inputs : List Text} {p : Product}
    (hp : ∀ r ∈ p.references, ∀ i j l, expands r.name i j l → ∀ c ∈ l, c.name ∈ inputs)
    {i j : Nat} {l : List Place} (h : p.HasTerm expands i j l) : ∀ c ∈ l, c.name ∈ inputs := by
  induction p generalizing i j l with
  | single r => exact hp r List.mem_cons_self _ _ l h
  | times p q ihp ihq =>
    obtain ⟨m, l₁, l₂, h₁, h₂, rfl⟩ := h
    refine List.forall_mem_append.2 ⟨ihp (fun r hr => ?_) h₁, ihq (fun r hr => ?_) h₂⟩
    · exact hp r (List.mem_append_left _ hr)
    · exact hp r (List.mem_append_right _ hr)

/-- **Expanding ends at input matrices.** -/
theorem IsOrdered.mem_of_expands {inputs : List Text} {definitions : Association Product}
    (h : IsOrdered inputs definitions) {name : Text}
    (hname : name ∈ inputs ∨ name ∈ definitions.names) {i j : Nat} {l : List Place}
    (hl : Expands definitions name i j l) : ∀ c ∈ l, c.name ∈ inputs := by
  induction definitions generalizing name i j l with
  | nil =>
    cases hl
    simpa using hname.resolve_right (by simp [Association.names])
  | cons d earlier ih =>
    obtain ⟨-, hreads, hearlier⟩ := h
    rw [Expands] at hl
    split at hl
    · exact hl.mem fun r hr i j l hr' => ih hearlier (hreads r hr) hr'
    · next hne => exact ih hearlier (hname.imp_right fun h => (List.mem_cons.1 h).resolve_left hne) hl

/-! ### What live terms hand on -/

/-- No place of the term holds a zero. -/
def IsLive (entry : Place → Int) (l : List Place) : Prop :=
  ∀ c ∈ l, entry c ≠ 0

theorem isLive_append {entry : Place → Int} {l₁ l₂ : List Place} :
    IsLive entry (l₁ ++ l₂) ↔ IsLive entry l₁ ∧ IsLive entry l₂ :=
  List.forall_mem_append

namespace Graph

variable {before g g' : Graph} {config : Config} {inputs : List Text} {entry : Place → Int}
  {name source target left right : Text} {M N P : IntMatrix} {i j : Nat} {x z : CellId}
  {terms terms' : Nat → Nat → List Place → Prop} {o : Int} {m : Nat}

/-- The matrix is traced. It has the given terms: its nonzero entries are those with a live term, and
of the cells of the input matrices such an entry hands on those that occur in one. -/
structure HasTerms (g : Graph) (inputs : List Text) (entry : Place → Int) (name : Text)
    (M : IntMatrix) (terms : Nat → Nat → List Place → Prop) : Prop extends IsTraced g name M where
  get_ne_zero_iff : ∀ i j, M.get i j ≠ 0 ↔ ∃ l, terms i j l ∧ IsLive entry l
  handsOn_iff : ∀ i j, M.get i j ≠ 0 → ∀ (c : Place) (x : CellId), c.name ∈ inputs →
    g.idAt? c.name c.row c.col = some x →
      (g.HandsOn name i j x ↔ ∃ l, terms i j l ∧ IsLive entry l ∧ c ∈ l)

/-- The entry of the input matrix at a place. -/
def inputEntry (g : Graph) (config : Config) (c : Place) : Int :=
  (g.inputMatrix config c.name).get c.row c.col

/-- **An input matrix** is not expanded. -/
theorem RestoredFrom.hasTerms (hg : g.IsMinted)
    (h : before.RestoredFrom g name (before.inputShape config name))
    (ht : before.IsTraceable config name) :
    g.HasTerms inputs (before.inputEntry config) name (before.inputMatrix config name)
      fun i j l => l = [⟨name, i, j⟩] where
  toIsTraced := h.isTraced ht
  get_ne_zero_iff i j := by simp [IsLive, inputEntry]
  handsOn_iff i j hij c x _ hx := by
    rw [HandsOn, or_iff_left h.not_derivesFrom, hg.idAt?_eq_some_iff hx]
    constructor
    · rintro ⟨hname, hrow, hcol⟩
      refine ⟨_, rfl, by simpa [IsLive, inputEntry] using hij, ?_⟩
      rw [List.mem_singleton, ← hname, ← hrow, ← hcol]
    · rintro ⟨l, rfl, -, hc⟩
      rw [List.mem_singleton.1 hc]
      exact ⟨rfl, rfl, rfl⟩

/-- A cell of an input matrix does not stand in a matrix of another name. -/
theorem idAt?_ne_of_notMem (hg : g.IsMinted) {c : Place} (hc : c.name ∈ inputs)
    (hx : g.idAt? c.name c.row c.col = some x) (hname : name ∉ inputs) (i j : Nat) :
    g.idAt? name i j ≠ some x := by
  intro he
  rw [(hg.idAt?_inj he hx).1] at hname
  exact hname hc

/-- **A copy** has the same terms, if it is no input matrix and either derives from its source or
that is no input matrix either. -/
theorem IsCopyOf.hasTerms {withSelf : Bool} (hg : g.IsMinted)
    (h : g.IsCopyOf withSelf source target) (hs : g.HasTerms inputs entry source M terms)
    (htarget : target ∉ inputs) (hsource : withSelf = true ∨ source ∉ inputs) :
    g.HasTerms inputs entry target M terms where
  toIsTraced := h.isTraced hg hs.toIsTraced
  get_ne_zero_iff := hs.get_ne_zero_iff
  handsOn_iff i j hij c x hc hx := by
    have hself := idAt?_ne_of_notMem hg hc hx htarget i j
    rw [← hs.handsOn_iff i j hij c x hc hx, HandsOn, or_iff_right hself, h.derivesFrom_iff hg,
      HandsOn]
    refine or_congr_left (and_iff_right_of_imp fun hid => hsource.resolve_right fun hns => ?_)
    exact idAt?_ne_of_notMem hg hc hx hns i j hid

/-- **A transpose** has the terms of the entry across the diagonal. -/
theorem IsTransposeOf.hasTerms (hg : g.IsMinted) (h : g.IsTransposeOf source target)
    (hs : g.HasTerms inputs entry source M terms) (htarget : target ∉ inputs) :
    g.HasTerms inputs entry target M.transpose fun i j l => terms j i l where
  toIsTraced := h.isTraced hg hs.toIsTraced
  get_ne_zero_iff i j := by rw [IntMatrix.get_transpose, hs.get_ne_zero_iff]
  handsOn_iff i j hij c x hc hx := by
    rw [IntMatrix.get_transpose] at hij
    have hself := idAt?_ne_of_notMem hg hc hx htarget i j
    rw [← hs.handsOn_iff j i hij c x hc hx, HandsOn, or_iff_right hself, h.derivesFrom_iff hg]

/-- **A product** has the terms that are put together from one of each factor. -/
theorem IsProductOf.hasTerms (hg : g.IsMinted) (h : g.IsProductOf false left right target)
    (hM : g.HasTerms inputs entry left M terms) (hN : g.HasTerms inputs entry right N terms')
    (htarget : target ∉ inputs) (hP : M.mul? N = some P) :
    g.HasTerms inputs entry target P fun i j l =>
      ∃ m l₁ l₂, terms i m l₁ ∧ terms' m j l₂ ∧ l = l₁ ++ l₂ where
  toIsTraced := h.isTraced hg hM.toIsTraced hN.toIsTraced hP
  get_ne_zero_iff i j := by
    rw [IntMatrix.get_mul?_ne_zero_iff hM.isNonneg hN.isNonneg hP]
    constructor
    · rintro ⟨m, hm₁, hm₂⟩
      obtain ⟨l₁, hl₁, hlive₁⟩ := (hM.get_ne_zero_iff i m).1 hm₁
      obtain ⟨l₂, hl₂, hlive₂⟩ := (hN.get_ne_zero_iff m j).1 hm₂
      exact ⟨_, ⟨m, l₁, l₂, hl₁, hl₂, rfl⟩, isLive_append.2 ⟨hlive₁, hlive₂⟩⟩
    · rintro ⟨_, ⟨m, l₁, l₂, hl₁, hl₂, rfl⟩, hlive⟩
      obtain ⟨hlive₁, hlive₂⟩ := isLive_append.1 hlive
      exact ⟨m, (hM.get_ne_zero_iff i m).2 ⟨l₁, hl₁, hlive₁⟩,
        (hN.get_ne_zero_iff m j).2 ⟨l₂, hl₂, hlive₂⟩⟩
  handsOn_iff i j hij c x hc hx := by
    have hself := idAt?_ne_of_notMem hg hc hx htarget i j
    rw [HandsOn, or_iff_right hself, h.derivesFrom_iff hg hM.toIsTraced hN.toIsTraced]
    constructor
    · rintro ⟨m, hm₁, hm₂, hx₁ | hx₂⟩
      · obtain ⟨l₁, hl₁, hlive₁, hc₁⟩ := (hM.handsOn_iff i m hm₁ c x hc hx).1 hx₁
        obtain ⟨l₂, hl₂, hlive₂⟩ := (hN.get_ne_zero_iff m j).1 hm₂
        exact ⟨_, ⟨m, l₁, l₂, hl₁, hl₂, rfl⟩, isLive_append.2 ⟨hlive₁, hlive₂⟩,
          List.mem_append_left _ hc₁⟩
      · obtain ⟨l₁, hl₁, hlive₁⟩ := (hM.get_ne_zero_iff i m).1 hm₁
        obtain ⟨l₂, hl₂, hlive₂, hc₂⟩ := (hN.handsOn_iff m j hm₂ c x hc hx).1 hx₂
        exact ⟨_, ⟨m, l₁, l₂, hl₁, hl₂, rfl⟩, isLive_append.2 ⟨hlive₁, hlive₂⟩,
          List.mem_append_right _ hc₂⟩
    · rintro ⟨_, ⟨m, l₁, l₂, hl₁, hl₂, rfl⟩, hlive, hmem⟩
      obtain ⟨hlive₁, hlive₂⟩ := isLive_append.1 hlive
      have hm₁ := (hM.get_ne_zero_iff i m).2 ⟨l₁, hl₁, hlive₁⟩
      have hm₂ := (hN.get_ne_zero_iff m j).2 ⟨l₂, hl₂, hlive₂⟩
      refine ⟨m, hm₁, hm₂, (List.mem_append.1 hmem).imp (fun hc₁ => ?_) fun hc₂ => ?_⟩
      · exact (hM.handsOn_iff i m hm₁ c x hc hx).2 ⟨l₁, hl₁, hlive₁, hc₁⟩
      · exact (hN.handsOn_iff m j hm₂ c x hc hx).2 ⟨l₂, hl₂, hlive₂, hc₂⟩

theorem IsProductOf.exists_mul? (h : g.IsProductOf false left right target)
    (hM : g.Holds left M) (hN : g.Holds right N) : ∃ P, M.mul? N = some P := by
  obtain ⟨l, r, t, hl, hr, ht, hfits, -⟩ := h
  obtain ⟨b, hb, -, hcols, -⟩ := holds_iff.1 hM
  obtain ⟨c, hc, hrows, -⟩ := holds_iff.1 hN
  obtain rfl : b = l := Option.some.inj (hb.symm.trans hl)
  obtain rfl : c = r := Option.some.inj (hc.symm.trans hr)
  exact IntMatrix.exists_mul?_iff.2 (hcols.symm.trans (hfits.trans hrows))

/-- **The result of a derivation** has the terms of the product, if the matrices it starts from have
the terms that they are expanded to. -/
theorem Derives.hasTerms (hg : g.IsMinted) {expands : Text → Nat → Nat → List Place → Prop}
    (hinputs : ∀ name ∈ inputs, IsPublic name) {p : Product} (h : g.Derives p o m)
    (hrefs : ∀ r ∈ p.references, ∃ M, g.HasTerms inputs entry r.name M (expands r.name)) :
    ∃ M, g.HasTerms inputs entry (p.resultName o m) M (p.HasTerm expands) := by
  induction p generalizing o m with
  | single r =>
    obtain ⟨M, hM⟩ := hrefs r List.mem_cons_self
    have hinst := h.1.hasTerms hg hM (fun hmem =>
      (hinputs _ hmem).1 (at_mem_instanceName r.name o)) (.inl rfl)
    have hresult := (Product.single r).not_isPublic_resultName o m
    rw [Product.resultName] at hresult ⊢
    cases ht : r.transposed with
    | false =>
      rw [if_neg Bool.false_ne_true]
      simp only [Product.HasTerm, Reference.place, ht]
      exact ⟨M, hinst⟩
    | true =>
      rw [ht] at hresult
      rw [if_pos rfl] at hresult ⊢
      simp only [Product.HasTerm, Reference.place, ht]
      exact ⟨_, (h.2 ht).hasTerms hg hinst fun hmem => hresult (hinputs _ hmem)⟩
  | times p q ihp ihq =>
    obtain ⟨hp, hq, hprod, -⟩ := h
    obtain ⟨M, hM⟩ := ihp hp fun r hr => hrefs r (List.mem_append_left _ hr)
    obtain ⟨N, hN⟩ := ihq hq fun r hr => hrefs r (List.mem_append_right _ hr)
    obtain ⟨P, hP⟩ := hprod.exists_mul? hM.holds hN.holds
    have hresult := (Product.times p q).not_isPublic_resultName o m
    exact ⟨P, hprod.hasTerms hg hM hN (fun hmem => hresult (hinputs _ hmem)) hP⟩

/-- **The lineage of a nonzero cell** of a matrix with terms: of the cells of the input matrices it
has those that occur in a live term. -/
theorem HasTerms.mem_allDependencies_iff (hg : g.IsWellFormed)
    (h : g.HasTerms inputs entry name M terms) (hz : g.idAt? name i j = some z)
    (hnonzero : (g.cell z).value.isNonzero = true) {c : Place} (hc : c.name ∈ inputs)
    (hx : g.idAt? c.name c.row c.col = some x) :
    x ∈ g.allDependencies z ↔ ∃ l, terms i j l ∧ IsLive entry l ∧ c ∈ l := by
  rw [Graph.mem_allDependencies_iff hg h.toIsTraced hz]
  refine h.handsOn_iff i j ?_ c x hc hx
  obtain ⟨b, hb, hr, hcol, hvalues⟩ := holds_iff.1 h.holds
  obtain ⟨b', hb', hi, hj, rfl⟩ := idAt?_eq_some_iff.1 hz
  obtain rfl : b = b' := Option.some.inj (hb.symm.trans hb')
  have hvalue : (g.cell (g.idAt b i j)).value = .int (M.get i j) := hvalues i j (hr ▸ hi) (hcol ▸ hj)
  rwa [hvalue, Number.isNonzero_int] at hnonzero

end Graph

end CellLineage
